import SimpleSvr.L4Routing.ConsistentHashDelete

/-!
# What the hash ring serves (`ConsistentHash.hpp`)

`Hash` looks for a position from the key's hash up, and does not go on at the
smallest one: `hash_nearest` says for which keys it is the nearest point of the
ring. `Insert` makes a point of its own, but the positions that the key has keep
their point: `insert_serves` says when the point that is returned is looked up.
-/
namespace SimpleSvr.L4.ConsistentHash

variable {P : HashParams}

/-! ## Going round -/

/-- From `h` up, and then round from 0, `e` is the first entry of the ring. -/
def Nearest (ring : OrdMap UInt64 P.Point) (h : UInt64) (e : UInt64 × P.Point) : Prop :=
  e ∈ ring.entries ∧ ∀ e' ∈ ring.entries, e.1 - h ≤ e'.1 - h

theorem sub_toNat_of_lt {h x : UInt64} (hx : x < h) : (x - h).toNat = 2 ^ 64 - h.toNat + x.toNat := by
  have hle := UInt64.lt_iff_toNat_lt.mp hx
  have hlt := h.toNat_lt
  rw [UInt64.toNat_sub]
  omega

/-- What is up from `h` comes before what is below it. -/
theorem sub_le_sub_of_le {h x y : UInt64} (hx : h ≤ x) (hy : h ≤ y → x ≤ y) : x - h ≤ y - h := by
  rw [UInt64.le_iff_toNat_le, UInt64.toNat_sub_of_le _ _ hx]
  by_cases hle : h ≤ y
  · have hxy := UInt64.le_iff_toNat_le.mp (hy hle)
    rw [UInt64.toNat_sub_of_le _ _ hle]
    omega
  · have hlt := x.toNat_lt
    rw [sub_toNat_of_lt (UInt64.not_le.mp hle)]
    omega

/-- A ring that is not empty has one nearest entry. -/
theorem nearest_unique {ring : OrdMap UInt64 P.Point} {h : UInt64} {e e' : UInt64 × P.Point}
    (he : Nearest ring h e) (he' : Nearest ring h e') : e = e' := by
  have heq : e.1 - h = e'.1 - h := UInt64.le_antisymm (he.2 e' he'.1) (he'.2 e he.1)
  exact OrdMap.eq_of_mem he.1 he'.1 ((UInt64.sub_left_inj _).mp heq)

/-- `Hash` returns the value of the nearest point. -/
def HashesNearest (c : ConsistentHash P) (key : P.Key) : Prop :=
  ∃ e, Nearest c.m_stHashRing (P.hash key) e ∧ c.hash key = some e.2

/-- `Hash` finds the nearest point of the ring for the keys whose hash is not above the largest position. -/
theorem hash_nearest (c : ConsistentHash P) (key : P.Key) :
    c.HashesNearest key ↔ ∃ e ∈ c.m_stHashRing.entries, P.hash key ≤ e.1 := by
  constructor
  · intro hn
    obtain ⟨e, -, hhash⟩ := hn
    obtain ⟨e', he', -⟩ := Option.map_eq_some_iff.mp hhash
    obtain ⟨hmem, hle, -⟩ := OrdMap.lowerBound_some he'
    exact ⟨e', hmem, hle⟩
  · intro hex
    obtain ⟨e, he, hle⟩ := hex
    obtain ⟨e', he'⟩ := Option.isSome_iff_exists.mp (OrdMap.lowerBound_isSome he hle)
    obtain ⟨hmem, hup, hleast⟩ := OrdMap.lowerBound_some he'
    refine ⟨e', ⟨hmem, fun x hx => ?_⟩, congrArg (Option.map Prod.snd) he'⟩
    exact sub_le_sub_of_le hup (hleast x hx)

/-- One key with quota 1: the ring ends at 9216. -/
theorem hash_above_ring : (first.ring.insert (0 : Nat) (0 : UInt64) 1).m_stHashRing.entries ≠ [] ∧
    (first.ring.insert (0 : Nat) (0 : UInt64) 1).hash (9217 : UInt64) = none ∧
    ¬ (first.ring.insert (0 : Nat) (0 : UInt64) 1).HashesNearest (9217 : UInt64) := by
  have hnone : (first.ring.insert (0 : Nat) (0 : UInt64) 1).hash (9217 : UInt64) = none := by decide
  refine ⟨by decide, hnone, fun hn => ?_⟩
  obtain ⟨e, -, he⟩ := hn
  rw [hnone] at he
  cases he

/-! ## Inserting a key again -/

/-- A call of `Insert`, and the point that `new` returned for it. -/
structure Insertion (P : HashParams) where
  key : P.Key
  dwQuotas : UInt32
  pstPoint : P.Point

/-- The ring after the insertions, the last one first. -/
def inserted : List (Insertion P) → ConsistentHash P
  | [] => {}
  | i :: is => (inserted is).insert i.pstPoint i.key i.dwQuotas

def Insertion.positions (i : Insertion P) : List UInt64 := chain P i.key (claims P i.dwQuotas)

/-- Different keys have different positions. -/
def Separate (is : List (Insertion P)) : Prop :=
  ∀ i ∈ is, ∀ j ∈ is, i.key ≠ j.key → ∀ x ∈ i.positions, x ∉ j.positions

/-- All positions of the key of the last insertion have the point whose value it returned. -/
def ServesReturned (is : List (Insertion P)) (i : Insertion P) : Prop :=
  ∀ j ∈ i :: is, j.key = i.key → ∀ x ∈ j.positions, (inserted (i :: is)).m_stHashRing.find x = some i.pstPoint

variable {is : List (Insertion P)} {i : Insertion P} {x : UInt64} {p : P.Point}

theorem find_inserted_cons (i : Insertion P) (is : List (Insertion P)) (x : UInt64) :
    (inserted (i :: is)).m_stHashRing.find x =
      ((inserted is).m_stHashRing.find x).or (if x ∈ i.positions then some i.pstPoint else none) :=
  find_insert _ _ _ _ x

/-- An owner is the point of an insertion that claims the position. -/
theorem owner_of_find (h : (inserted is).m_stHashRing.find x = some p) :
    ∃ j ∈ is, j.pstPoint = p ∧ x ∈ j.positions := by
  induction is with
  | nil => cases h
  | cons i is ih =>
    rw [find_inserted_cons, Option.or_eq_some_iff] at h
    rcases h with h | h
    · obtain ⟨j, hj, hjp, hjx⟩ := ih h
      exact ⟨j, List.mem_cons_of_mem _ hj, hjp, hjx⟩
    · split_ifs at h with hx
      · exact ⟨i, List.mem_cons_self, Option.some.inj h.2, hx⟩
      · cases h.2

/-- A position that was claimed has an owner. -/
theorem find_of_claimed {j : Insertion P} (hj : j ∈ is) (hx : x ∈ j.positions) :
    ∃ p, (inserted is).m_stHashRing.find x = some p := by
  induction is with
  | nil => cases hj
  | cons i is ih =>
    rw [find_inserted_cons]
    cases hold : (inserted is).m_stHashRing.find x with
    | some p => exact ⟨p, rfl⟩
    | none =>
      rcases List.mem_cons.mp hj with rfl | hj
      · exact ⟨_, if_pos hx⟩
      · obtain ⟨p, hp⟩ := ih hj
        rw [hold] at hp
        cases hp

/-- An insertion of a key that is in the ring leaves its first position to the older point. -/
theorem serves_new (hnew : ((i :: is).map Insertion.pstPoint).Nodup) (h : ServesReturned is i) :
    ∀ j ∈ is, j.key ≠ i.key := by
  intro j hj hkey
  have hfirst : align P (P.hash i.key) ∈ j.positions := by
    rw [Insertion.positions, hkey]
    exact first_mem_chain _ _
  obtain ⟨p, hp⟩ := find_of_claimed hj hfirst
  obtain ⟨j', hj', hjp, -⟩ := owner_of_find hp
  have hret := h i List.mem_cons_self rfl _ (first_mem_chain i.key _)
  rw [find_inserted_cons, hp, Option.some_or] at hret
  have hsame : j'.pstPoint = i.pstPoint := hjp.trans (Option.some.inj hret)
  exact (List.nodup_cons.mp hnew).1 (hsame ▸ List.mem_map_of_mem hj')

theorem serves_of_new (hsep : Separate (i :: is)) (h : ∀ j ∈ is, j.key ≠ i.key) : ServesReturned is i := by
  intro j hj hkey x hx
  rcases List.mem_cons.mp hj with rfl | hj
  · have hfree : (inserted is).m_stHashRing.find x = none := by
      cases hold : (inserted is).m_stHashRing.find x with
      | none => rfl
      | some p =>
        obtain ⟨j', hj', -, hx'⟩ := owner_of_find hold
        exact absurd hx' (hsep j List.mem_cons_self j' (List.mem_cons_of_mem _ hj') (h j' hj').symm x hx)
    rw [find_inserted_cons, hfree, if_pos hx, Option.none_or]
  · exact absurd hkey (h j hj)

/-- The point whose value `Insert` returns has all positions of the key exactly where the key was not
inserted before. -/
theorem insert_serves (is : List (Insertion P)) (i : Insertion P) (hsep : Separate (i :: is))
    (hnew : ((i :: is).map Insertion.pstPoint).Nodup) :
    ServesReturned is i ↔ ∀ j ∈ is, j.key ≠ i.key :=
  ⟨serves_new hnew, serves_of_new hsep⟩

def insertion0 : Insertion steps := ⟨(0 : UInt64), 1, (0 : Nat)⟩

/-- Two lists have no position in common, by looking at each. -/
theorem apart {l₁ l₂ : List UInt64} (h : (l₁.all fun x => decide (x ∉ l₂)) = true) : ∀ x ∈ l₁, x ∉ l₂ :=
  fun x hx => of_decide_eq_true (List.all_eq_true.mp h x hx)

/-- A second key, far from the first. -/
theorem insert_serves_far : ServesReturned [insertion0] ⟨(20480 : UInt64), 1, (1 : Nat)⟩ := by
  apply (insert_serves [insertion0] ⟨(20480 : UInt64), 1, (1 : Nat)⟩ ?_ ?_).mpr
  · intro j hj
    rw [List.mem_singleton.mp hj]
    decide
  · intro i hi j hj hne
    rcases List.mem_cons.mp hi with rfl | hi <;> rcases List.mem_cons.mp hj with rfl | hj
    · exact absurd rfl hne
    · rw [List.mem_singleton.mp hj]
      exact apart (by decide)
    · rw [List.mem_singleton.mp hi]
      exact apart (by decide)
    · rw [List.mem_singleton.mp hi, List.mem_singleton.mp hj] at hne
      exact absurd rfl hne
  · decide

/-- The same key again: its first position keeps the first point. -/
theorem insert_again : Separate [⟨(0 : UInt64), 1, (1 : Nat)⟩, insertion0] ∧
    (inserted [⟨(0 : UInt64), 1, (1 : Nat)⟩, insertion0]).m_stHashRing.find 0 = some (0 : Nat) ∧
    ¬ ServesReturned [insertion0] ⟨(0 : UInt64), 1, (1 : Nat)⟩ := by
  have hkeys : ∀ i ∈ [(⟨(0 : UInt64), 1, (1 : Nat)⟩ : Insertion steps), insertion0], i.key = (0 : UInt64) := by
    intro i hi
    rcases List.mem_cons.mp hi with rfl | hi
    · rfl
    · rw [List.mem_singleton.mp hi]
      rfl
  have hfind : (inserted [⟨(0 : UInt64), 1, (1 : Nat)⟩, insertion0]).m_stHashRing.find 0 = some (0 : Nat) := rfl
  refine ⟨fun i hi j hj hne => absurd ((hkeys i hi).trans (hkeys j hj).symm) hne, hfind, fun h => ?_⟩
  have hret := h ⟨(0 : UInt64), 1, (1 : Nat)⟩ List.mem_cons_self rfl 0 (by decide)
  rw [hfind] at hret
  exact Nat.zero_ne_one (Option.some.inj hret)

end SimpleSvr.L4.ConsistentHash
