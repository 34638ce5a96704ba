import Mathlib.Data.List.Iterate
import SimpleSvr.Core.LTS
import SimpleSvr.L4Routing.ConsistentHash

/-!
# Taking a point out of the hash ring (`ConsistentHash.hpp`)

`Insert` claims `VirtualSize * dwQuotas` positions of a key's chain, `Delete`
gives up the first `VirtualSize` of them. `delete_run`: an insertion is undone
exactly when its quota claims no more than `VirtualSize` positions, and in runs
of such insertions and deletions the ring refers to no point that was deleted.
-/
namespace SimpleSvr.L4.ConsistentHash

variable {P : HashParams}

/-- `n` more positions of the chain of `ddwPointKey`.
mirrors include/ConsistentHash.hpp:136-141 -/
def eraseChain (P : HashParams) : Nat → UInt64 → OrdMap UInt64 P.Point → OrdMap UInt64 P.Point
  | 0, _, ring => ring
  | n + 1, ddwPointKey, ring =>
    eraseChain P n (align P (P.hash2 ddwPointKey)) (ring.erase (align P (P.hash2 ddwPointKey)))

/-- mirrors include/ConsistentHash.hpp:122-142 -/
def delete (c : ConsistentHash P) (key : P.Key) : ConsistentHash P where
  m_stHashRing := eraseChain P (P.VirtualSize.toNat - 1) (align P (P.hash key))
    (c.m_stHashRing.erase (align P (P.hash key)))

/-- The point that `Delete` deletes: `delete iter->second`.
mirrors include/ConsistentHash.hpp:128-131 -/
def deleted (c : ConsistentHash P) (key : P.Key) : Option P.Point :=
  c.m_stHashRing.find (align P (P.hash key))

/-! ## Chains -/

/-- The first `n` positions of a key's chain. -/
def chain (P : HashParams) (key : P.Key) (n : Nat) : List UInt64 :=
  List.iterate (fun ddwPointKey => align P (P.hash2 ddwPointKey)) (align P (P.hash key)) n

/-- How many positions `Insert` claims: the first is not counted. -/
def claims (P : HashParams) (dwQuotas : UInt32) : Nat := (P.VirtualSize * dwQuotas.toUInt64).toNat - 1 + 1

/-- How many positions `Delete` gives up. -/
def gives (P : HashParams) : Nat := P.VirtualSize.toNat - 1 + 1

theorem chain_initial (key : P.Key) {m n : Nat} (h : m ≤ n) : chain P key m <+: chain P key n := by
  obtain ⟨k, rfl⟩ := Nat.exists_eq_add_of_le h
  unfold chain
  rw [List.iterate_add]
  exact List.prefix_append _ _

theorem first_mem_chain (key : P.Key) (n : Nat) : align P (P.hash key) ∈ chain P key (n + 1) :=
  List.mem_cons_self

/-- A position of the chain that does not come earlier. -/
theorem exists_mem_chain {key : P.Key} {m n : Nat} (h : m < n) (hd : (chain P key n).Nodup) :
    ∃ x ∈ chain P key n, x ∉ chain P key m := by
  obtain ⟨k, rfl⟩ := Nat.exists_eq_add_of_lt h
  unfold chain at hd ⊢
  rw [Nat.add_assoc, List.iterate_add, List.iterate] at hd ⊢
  refine ⟨_, List.mem_append_right _ List.mem_cons_self, fun hx => ?_⟩
  exact (List.nodup_append.mp hd).2.2 _ hx _ List.mem_cons_self rfl

theorem find_insertChain (p : P.Point) (n : Nat) (x y : UInt64) (ring : OrdMap UInt64 P.Point) :
    (insertChain p n x ring).find y =
      (ring.find y).or (if y ∈ List.iterate (fun k => align P (P.hash2 k)) (align P (P.hash2 x)) n then
        some p else none) := by
  induction n generalizing x ring with
  | zero => simp [insertChain, List.iterate]
  | succ n ih =>
    rw [insertChain, ih]
    by_cases hy : y = align P (P.hash2 x)
    · subst hy
      rw [OrdMap.find_insert]
      cases ring.find (align P (P.hash2 x)) <;> simp [List.iterate]
    · rw [OrdMap.find_insert_ne hy]
      simp [List.iterate, hy]

/-- `Insert` claims the positions that have no owner. -/
theorem find_insert (c : ConsistentHash P) (p : P.Point) (key : P.Key) (q : UInt32) (y : UInt64) :
    (c.insert p key q).m_stHashRing.find y =
      (c.m_stHashRing.find y).or (if y ∈ chain P key (claims P q) then some p else none) := by
  unfold insert
  rw [find_insertChain]
  by_cases hy : y = align P (P.hash key)
  · subst hy
    rw [OrdMap.find_insert]
    cases c.m_stHashRing.find (align P (P.hash key)) <;> simp [chain, claims, List.iterate]
  · rw [OrdMap.find_insert_ne hy]
    simp [chain, claims, List.iterate, hy]

theorem find_eraseChain (n : Nat) (x y : UInt64) (ring : OrdMap UInt64 P.Point) :
    (eraseChain P n x ring).find y =
      if y ∈ List.iterate (fun k => align P (P.hash2 k)) (align P (P.hash2 x)) n then none else ring.find y := by
  induction n generalizing x ring with
  | zero => simp [eraseChain, List.iterate]
  | succ n ih =>
    rw [eraseChain, ih]
    by_cases hy : y = align P (P.hash2 x)
    · subst hy
      simp [OrdMap.find_erase, List.iterate]
    · rw [OrdMap.find_erase_ne hy]
      simp [List.iterate, hy]

theorem find_delete (c : ConsistentHash P) (key : P.Key) (y : UInt64) :
    (c.delete key).m_stHashRing.find y = if y ∈ chain P key (gives P) then none else c.m_stHashRing.find y := by
  unfold delete
  rw [find_eraseChain]
  by_cases hy : y = align P (P.hash key)
  · subst hy
    simp [OrdMap.find_erase, chain, gives, List.iterate]
  · rw [OrdMap.find_erase_ne hy]
    simp [chain, gives, List.iterate, hy]

theorem eq_of_find {c c' : ConsistentHash P} (h : ∀ y, c.m_stHashRing.find y = c'.m_stHashRing.find y) : c = c' :=
  congrArg ConsistentHash.mk (OrdMap.ext_find h)

/-! ## Delete after Insert -/

/-- The key is not in the ring, and the positions of its chain are distinct and free. -/
structure Free (c : ConsistentHash P) (key : P.Key) (q : UInt32) : Prop where
  quota : 1 ≤ q
  first : c.m_stHashRing.find (align P (P.hash key)) = none
  distinct : (chain P key (P.VirtualSize.toNat * q.toNat)).Nodup
  positions : ∀ x ∈ chain P key (P.VirtualSize.toNat * q.toNat), c.m_stHashRing.find x = none

/-- The quota claims no more positions than `Delete` gives up. -/
def Fits (P : HashParams) (q : UInt32) : Prop := P.VirtualSize * q.toUInt64 ≤ P.VirtualSize

theorem toNat_mul_le (P : HashParams) (q : UInt32) :
    (P.VirtualSize * q.toUInt64).toNat ≤ P.VirtualSize.toNat * q.toNat := by
  rw [UInt64.toNat_mul, UInt32.toNat_toUInt64]
  exact Nat.mod_le _ _

variable {c : ConsistentHash P} {key : P.Key} {q : UInt32}

theorem Free.claimed (h : Free c key q) {x : UInt64} (hx : x ∈ chain P key (claims P q)) :
    c.m_stHashRing.find x = none := by
  have hle := toNat_mul_le P q
  cases hn : (P.VirtualSize * q.toUInt64).toNat with
  | zero =>
    rw [claims, hn] at hx
    rw [List.mem_singleton.mp hx]
    exact h.first
  | succ n =>
    apply h.positions
    apply (chain_initial key _).subset hx
    unfold claims
    omega

theorem Free.given (h : Free c key q) {x : UInt64} (hx : x ∈ chain P key (gives P)) :
    c.m_stHashRing.find x = none := by
  have hq : 1 ≤ q.toNat := UInt32.le_iff_toNat_le.mp h.quota
  have hle := Nat.le_mul_of_pos_right P.VirtualSize.toNat hq
  cases hn : P.VirtualSize.toNat with
  | zero =>
    rw [gives, hn] at hx
    rw [List.mem_singleton.mp hx]
    exact h.first
  | succ n =>
    apply h.positions
    apply (chain_initial key _).subset hx
    unfold gives
    omega

theorem find_delete_insert (c : ConsistentHash P) (p : P.Point) (key : P.Key) (q : UInt32) (y : UInt64) :
    ((c.insert p key q).delete key).m_stHashRing.find y = if y ∈ chain P key (gives P) then none else
      (c.m_stHashRing.find y).or (if y ∈ chain P key (claims P q) then some p else none) := by
  rw [find_delete, find_insert]

theorem delete_insert (h : Free c key q) (hfit : Fits P q) (p : P.Point) : (c.insert p key q).delete key = c := by
  have hle := UInt64.le_iff_toNat_le.mp hfit
  have hsub : claims P q ≤ gives P := by
    unfold claims gives
    omega
  apply eq_of_find
  intro y
  rw [find_delete_insert]
  split_ifs with hg hc
  · exact (h.given hg).symm
  · exact absurd ((chain_initial key hsub).subset hc) hg
  · rw [Option.or_none]

/-- A position that was claimed and is not given up keeps the point. -/
theorem delete_insert_ne (h : Free c key q) (hfit : ¬Fits P q) (p : P.Point) : (c.insert p key q).delete key ≠ c := by
  have hlt := UInt64.lt_iff_toNat_lt.mp (UInt64.not_le.mp hfit)
  have hle := toNat_mul_le P q
  have hprod : claims P q ≤ P.VirtualSize.toNat * q.toNat := by
    unfold claims
    omega
  have hpos : 0 < P.VirtualSize.toNat := by
    apply Nat.pos_of_ne_zero
    intro hz
    rw [hz, Nat.zero_mul] at hle
    omega
  have hlong : gives P < claims P q := by
    unfold gives claims
    omega
  obtain ⟨y, hy, hg⟩ := exists_mem_chain hlong (h.distinct.sublist (chain_initial key hprod).sublist)
  intro heq
  have hfind := find_delete_insert c p key q y
  rw [heq, if_neg hg, if_pos hy, h.claimed hy] at hfind
  cases hfind

/-! ## Runs -/

variable [DecidableEq P.Key] [DecidableEq P.Point]

/-- A ring in use: the keys that were inserted and not deleted with the points `new` returned for
them, and the points that were deleted and whose memory `new` has not returned again. -/
structure Run (P : HashParams) where
  ring : ConsistentHash P := {}
  live : List (P.Key × P.Point) := []
  freed : List P.Point := []

inductive Call (P : HashParams) where
  | insert (pstPoint : P.Point) (key : P.Key) (dwQuotas : UInt32)
  | delete (key : P.Key)

def Run.next (s : Run P) : Call P → Run P
  | .insert p key q => ⟨s.ring.insert p key q, (key, p) :: s.live, s.freed.filter fun x => x ≠ p⟩
  | .delete key =>
    ⟨s.ring.delete key, s.live.filter fun e => e.1 ≠ key, (s.ring.deleted key).toList ++ s.freed⟩

/-- Keys that are not in the ring are inserted, with free positions and a point that `new` may return;
keys that are in the ring are deleted. -/
def Run.enabled (s : Run P) : Call P → Prop
  | .insert p key q => Free s.ring key q ∧ ∀ e ∈ s.live, e.2 ≠ p
  | .delete key => ∃ p, (key, p) ∈ s.live

def ringCalls (P : HashParams) [DecidableEq P.Key] [DecidableEq P.Point] : LTS (Run P) (Call P) where
  init s := s = {}
  step s l s' := s.enabled l ∧ s' = s.next l

/-- An insertion claims no more than `Delete` gives up; `VirtualSize * dwQuotas` does not wrap. -/
def Undone (_ : Run P) : Call P → Prop
  | .insert _ _ q => P.VirtualSize.toNat * q.toNat ≤ P.VirtualSize.toNat
  | .delete _ => True

/-- The positions of the ring are those of the live keys. -/
structure Inv (s : Run P) : Prop where
  owner : ∀ x p, s.ring.m_stHashRing.find x = some p ↔ ∃ key, (key, p) ∈ s.live ∧ x ∈ chain P key (gives P)
  distinct : (s.live.map Prod.snd).Nodup
  freed : ∀ p ∈ s.freed, ∀ e ∈ s.live, e.2 ≠ p

omit [DecidableEq P.Key] [DecidableEq P.Point] in
theorem claims_eq_gives {s : Run P} {p : P.Point} (hfree : Free s.ring key q) (hu : Undone s (.insert p key q)) :
    claims P q = gives P := by
  have hq : 1 ≤ q.toNat := UInt32.le_iff_toNat_le.mp hfree.quota
  have hle := Nat.le_mul_of_pos_right P.VirtualSize.toNat hq
  have heq : P.VirtualSize.toNat * q.toNat = P.VirtualSize.toNat := Nat.le_antisymm hu hle
  unfold claims gives
  rw [UInt64.toNat_mul, UInt32.toNat_toUInt64, heq, Nat.mod_eq_of_lt P.VirtualSize.toNat_lt]

theorem inv_insert {s : Run P} (h : Inv s) {p : P.Point} (he : s.enabled (.insert p key q))
    (hu : Undone s (.insert p key q)) : Inv (s.next (.insert p key q)) := by
  obtain ⟨hfree, hnew⟩ := he
  constructor
  · intro x p'
    show (s.ring.insert p key q).m_stHashRing.find x = some p' ↔ ∃ k, (k, p') ∈ (key, p) :: s.live ∧ _
    rw [find_insert, claims_eq_gives hfree hu]
    by_cases hx : x ∈ chain P key (gives P)
    · -- the position was free, so no live key has it
      have hnone := hfree.given hx
      rw [hnone, if_pos hx, Option.none_or, Option.some_inj]
      constructor
      · rintro rfl
        exact ⟨key, List.mem_cons_self, hx⟩
      · intro hclaim
        obtain ⟨k, hk, hkx⟩ := hclaim
        rcases List.mem_cons.mp hk with hk | hk
        · cases hk
          rfl
        · have hsome := (h.owner x p').mpr ⟨k, hk, hkx⟩
          rw [hnone] at hsome
          cases hsome
    · rw [if_neg hx, Option.or_none, h.owner]
      constructor
      · intro hclaim
        obtain ⟨k, hk, hkx⟩ := hclaim
        exact ⟨k, List.mem_cons_of_mem _ hk, hkx⟩
      · intro hclaim
        obtain ⟨k, hk, hkx⟩ := hclaim
        rcases List.mem_cons.mp hk with hk | hk
        · cases hk
          exact absurd hkx hx
        · exact ⟨k, hk, hkx⟩
  · apply List.nodup_cons.mpr
    refine ⟨fun hmem => ?_, h.distinct⟩
    obtain ⟨e, he, hp⟩ := List.mem_map.mp hmem
    exact hnew e he hp
  · intro p' hp' e he
    have hmem := List.mem_filter.mp hp'
    rcases List.mem_cons.mp he with rfl | he
    · exact Ne.symm (of_decide_eq_true hmem.2)
    · exact h.freed p' hmem.1 e he

omit [DecidableEq P.Key] [DecidableEq P.Point] in
/-- Points of different live keys are different. -/
theorem Inv.key_unique {s : Run P} (h : Inv s) {k k' : P.Key} {p : P.Point} (hk : (k, p) ∈ s.live)
    (hk' : (k', p) ∈ s.live) : k = k' := by
  have := List.inj_on_of_nodup_map h.distinct hk hk' rfl
  exact congrArg Prod.fst this

omit [DecidableEq P.Key] [DecidableEq P.Point] in
theorem Inv.deleted_eq {s : Run P} (h : Inv s) {p : P.Point} (hk : (key, p) ∈ s.live) :
    s.ring.deleted key = some p :=
  (h.owner _ p).mpr ⟨key, hk, first_mem_chain key _⟩

theorem inv_delete {s : Run P} (h : Inv s) (he : s.enabled (.delete key)) : Inv (s.next (.delete key)) := by
  obtain ⟨p, hp⟩ := he
  have hlive : ∀ {k p'}, (k, p') ∈ s.live.filter (fun e => e.1 ≠ key) ↔ (k, p') ∈ s.live ∧ k ≠ key := by
    simp
  constructor
  · intro x p'
    show (s.ring.delete key).m_stHashRing.find x = some p' ↔
      ∃ k, (k, p') ∈ s.live.filter (fun e => e.1 ≠ key) ∧ _
    rw [find_delete]
    by_cases hx : x ∈ chain P key (gives P)
    · -- the position was of the deleted key, so of no other
      rw [if_pos hx]
      constructor
      · intro hfalse
        cases hfalse
      · intro hclaim
        obtain ⟨k, hk, hkx⟩ := hclaim
        have hfst := (h.owner x p).mpr ⟨key, hp, hx⟩
        have hsnd := (h.owner x p').mpr ⟨k, (hlive.mp hk).1, hkx⟩
        cases hfst.symm.trans hsnd
        exact absurd (h.key_unique (hlive.mp hk).1 hp) (hlive.mp hk).2
    · rw [if_neg hx, h.owner]
      constructor
      · intro hclaim
        obtain ⟨k, hk, hkx⟩ := hclaim
        refine ⟨k, hlive.mpr ⟨hk, ?_⟩, hkx⟩
        rintro rfl
        exact hx hkx
      · intro hclaim
        obtain ⟨k, hk, hkx⟩ := hclaim
        exact ⟨k, (hlive.mp hk).1, hkx⟩
  · exact h.distinct.sublist (List.filter_sublist.map _)
  · intro p' hp' e he
    have hp'' : p' ∈ (s.ring.deleted key).toList ++ s.freed := hp'
    rw [h.deleted_eq hp] at hp''
    have hmem := hlive.mp he
    rcases List.mem_cons.mp hp'' with rfl | hfreed
    · intro heq
      exact hmem.2 (h.key_unique (heq ▸ hmem.1) hp)
    · exact h.freed p' hfreed e hmem.1

theorem inv_inductive : ((ringCalls P).guard Undone).Inductive Inv where
  init := by
    rintro s rfl
    exact ⟨fun x p => by simp [OrdMap.find, OrdMap.empty], .nil, nofun⟩
  step := by
    intro s c s' h hstep
    obtain ⟨hu, he, rfl⟩ := hstep
    cases c with
    | insert p key q => exact inv_insert h he hu
    | delete key => exact inv_delete h he

omit [DecidableEq P.Key] [DecidableEq P.Point] in
/-- No entry of the ring refers to a deleted point. -/
theorem Inv.not_freed {s : Run P} (h : Inv s) {x : UInt64} {p : P.Point}
    (hx : s.ring.m_stHashRing.find x = some p) : p ∉ s.freed := by
  intro hp
  obtain ⟨key, hk, -⟩ := (h.owner x p).mp hx
  exact h.freed p hp _ hk rfl

/-- `Delete` undoes `Insert` exactly where the quota claims no more positions than `Delete` gives
up; and where every insertion is such, no entry refers to a deleted point, nor does `Hash` return one. -/
theorem delete_run :
    (∀ (c : ConsistentHash P) (p : P.Point) (key : P.Key) (q : UInt32), Free c key q →
      ((c.insert p key q).delete key = c ↔ Fits P q)) ∧
    ∀ s, ((ringCalls P).guard Undone).Reachable s →
      (∀ e ∈ s.ring.m_stHashRing.entries, e.2 ∉ s.freed) ∧ ∀ key p, s.ring.hash key = some p → p ∉ s.freed := by
  refine ⟨fun c p key q h => ⟨fun heq => ?_, fun hfit => delete_insert h hfit p⟩, fun s hr => ?_⟩
  · by_contra hfit
    exact delete_insert_ne h hfit p heq
  · have h := inv_inductive.reachable s hr
    have hentry : ∀ e ∈ s.ring.m_stHashRing.entries, e.2 ∉ s.freed :=
      fun e he => h.not_freed (OrdMap.mem_iff_find.mp he)
    refine ⟨hentry, fun key p hhash => ?_⟩
    obtain ⟨e, he, rfl⟩ := Option.map_eq_some_iff.mp hhash
    exact hentry e (OrdMap.lowerBound_some he).1

/-- The template's defaults, with hash functions that are easy to follow. -/
def steps : HashParams where
  Key := UInt64
  Point := Nat
  hash := id
  hash2 := fun x => x + 1024

instance : DecidableEq steps.Key := inferInstanceAs (DecidableEq UInt64)
instance : DecidableEq steps.Point := inferInstanceAs (DecidableEq Nat)

def first : Run steps := {}

def insertion (q : UInt32) : Call steps := .insert (0 : Nat) (0 : UInt64) q

def deletion : Call steps := .delete (0 : UInt64)

theorem first_insert {q : UInt32} (h : Free first.ring (0 : UInt64) q) :
    (ringCalls steps).step first (insertion q) (first.next (insertion q)) :=
  ⟨⟨h, fun _ he => nomatch he⟩, rfl⟩

theorem first_delete (q : UInt32) : (ringCalls steps).step (first.next (insertion q)) deletion
    ((first.next (insertion q)).next deletion) :=
  ⟨⟨(0 : Nat), List.mem_cons_self⟩, rfl⟩

/-- One key with quota 1, inserted and deleted. -/
theorem delete_run_one : (first.ring.insert (0 : Nat) (0 : UInt64) 1).delete (0 : UInt64) = first.ring ∧
    ∀ e ∈ ((first.next (insertion 1)).next deletion).ring.m_stHashRing.entries,
      e.2 ∉ ((first.next (insertion 1)).next deletion).freed := by
  have hfree : Free first.ring (0 : UInt64) 1 := ⟨by decide, rfl, by decide, fun _ _ => rfl⟩
  have hone : Undone first (insertion 1) := Nat.le_refl 10
  have hfits : Fits steps 1 := UInt64.le_refl 10
  have h0 : ((ringCalls steps).guard Undone).Reachable first := .init rfl
  have h1 := h0.allowed (first_insert hfree) hone
  have h2 := h1.allowed (first_delete 1) trivial
  have hundo := (delete_run.1 _ (0 : Nat) _ 1 hfree).mpr hfits
  have hpoints := (delete_run.2 _ h2).1
  exact ⟨hundo, hpoints⟩

/-- One key with quota 2: its eleventh position keeps the point that was deleted. -/
theorem delete_leaves_point :
    Free first.ring (0 : UInt64) 2 ∧ (first.ring.insert (0 : Nat) (0 : UInt64) 2).delete (0 : UInt64) ≠ first.ring ∧
    ∃ s, (ringCalls steps).Reachable s ∧ ∃ key p, s.ring.hash key = some p ∧ p ∈ s.freed := by
  have hfree : Free first.ring (0 : UInt64) 2 := ⟨by decide, rfl, by decide, fun _ _ => rfl⟩
  have h0 : (ringCalls steps).Reachable first := .init rfl
  have h1 := h0.step (first_insert hfree)
  have h2 := h1.step (first_delete 2)
  refine ⟨hfree, fun heq => ?_, _, h2, (0 : UInt64), (0 : Nat), rfl, List.mem_cons_self⟩
  have hlen := congrArg (fun c => c.m_stHashRing.entries.length) heq
  revert hlen
  decide

end SimpleSvr.L4.ConsistentHash
