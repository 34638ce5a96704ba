import SimpleSvr.L4Routing.ConsistentHashLookup

/-!
# Rings with the same nodes agree (`ConsistentHash.hpp`)

Each worker keeps a ring of its own, and workers learn of nodes in different
orders. A node is a key and its quota: the points are addresses, and are not the
same in two workers.

`rings_agree`: while insertions find their positions free and deletions are of
keys that have as many positions as `Delete` gives up, what a ring serves depends
on its nodes only, whatever the calls that led to them. A ring with fewer nodes
serves each key as the larger one does, except the keys of the nodes that it does
not have.
-/
namespace SimpleSvr.L4.ConsistentHash

variable {P : HashParams}

/-- The ring, and the insertions that were not deleted. -/
structure Worker (P : HashParams) where
  ring : ConsistentHash P := {}
  members : List (Insertion P) := []

inductive Change (P : HashParams) where
  | insert (i : Insertion P)
  | delete (key : P.Key)

def Insertion.node (i : Insertion P) : P.Key × UInt32 := (i.key, i.dwQuotas)

namespace Worker

def nodes (s : Worker P) : List (P.Key × UInt32) := s.members.map Insertion.node

/-- The node whose value `Hash` returns. -/
def served [DecidableEq P.Point] (s : Worker P) (key : P.Key) : Option (P.Key × UInt32) :=
  (s.ring.hash key).bind fun p => (s.members.find? fun i => i.pstPoint = p).map Insertion.node

def next [DecidableEq P.Key] (s : Worker P) : Change P → Worker P
  | .insert i => ⟨s.ring.insert i.pstPoint i.key i.dwQuotas, i :: s.members⟩
  | .delete key => ⟨s.ring.delete key, s.members.filter fun i => i.key ≠ key⟩

def enabled (s : Worker P) : Change P → Prop
  | .insert i => (∀ x ∈ i.positions, s.ring.m_stHashRing.find x = none) ∧ ∀ j ∈ s.members, j.pstPoint ≠ i.pstPoint
  | .delete key => ∃ i ∈ s.members, i.key = key ∧ claims P i.dwQuotas = gives P

end Worker

def worker (P : HashParams) [DecidableEq P.Key] : LTS (Worker P) (Change P) where
  init s := s = {}
  step s l s' := s.enabled l ∧ s' = s.next l

/-- The positions of the ring are those of the members, each of one. -/
structure Members (s : Worker P) : Prop where
  owner : ∀ x p, s.ring.m_stHashRing.find x = some p ↔ ∃ i ∈ s.members, i.pstPoint = p ∧ x ∈ i.positions
  distinct : (s.members.map Insertion.pstPoint).Nodup

variable {s s₁ s₂ : Worker P} {i j : Insertion P} {key : P.Key} {n : P.Key × UInt32} {x : UInt64}

/-! ## Members -/

theorem Members.eq_of_point (h : Members s) (hi : i ∈ s.members) (hj : j ∈ s.members)
    (hp : i.pstPoint = j.pstPoint) : i = j :=
  List.inj_on_of_nodup_map h.distinct hi hj hp

/-- A position is of one member. -/
theorem Members.eq_of_position (h : Members s) (hi : i ∈ s.members) (hj : j ∈ s.members) (hx : x ∈ i.positions)
    (hx' : x ∈ j.positions) : i = j := by
  have hfst := (h.owner x i.pstPoint).mpr ⟨i, hi, rfl, hx⟩
  have hsnd := (h.owner x j.pstPoint).mpr ⟨j, hj, rfl, hx'⟩
  exact h.eq_of_point hi hj (Option.some.inj (hfst.symm.trans hsnd))

theorem Members.eq_of_key (h : Members s) (hi : i ∈ s.members) (hj : j ∈ s.members) (hkey : i.key = j.key) : i = j := by
  apply h.eq_of_position hi hj (first_mem_chain i.key _)
  rw [hkey]
  exact first_mem_chain j.key _

/-- Where two insertions are of one node, so are their positions. -/
theorem positions_of_node (h : i.node = j.node) : i.positions = j.positions := by
  obtain ⟨hkey, hq⟩ := Prod.mk.inj h
  rw [Insertion.positions, hkey, hq, Insertion.positions]

theorem members_insert [DecidableEq P.Key] (h : Members s) (he : s.enabled (.insert i)) :
    Members (s.next (.insert i)) := by
  obtain ⟨hfree, hnew⟩ := he
  constructor
  · intro x p
    show (s.ring.insert i.pstPoint i.key i.dwQuotas).m_stHashRing.find x = some p ↔ ∃ j ∈ i :: s.members, _
    rw [find_insert, List.exists_mem_cons_iff, ← h.owner x p, Option.or_eq_some_iff]
    by_cases hx : x ∈ i.positions
    · have hnone := hfree x hx
      rw [hnone, if_pos (show x ∈ chain P i.key (claims P i.dwQuotas) from hx)]
      simp [hx]
    · rw [if_neg (show x ∉ chain P i.key (claims P i.dwQuotas) from hx)]
      simp [hx]
  · apply List.nodup_cons.mpr
    refine ⟨fun hmem => ?_, h.distinct⟩
    obtain ⟨j, hj, hp⟩ := List.mem_map.mp hmem
    exact hnew j hj hp

theorem members_delete [DecidableEq P.Key] (h : Members s) (he : s.enabled (.delete key)) :
    Members (s.next (.delete key)) := by
  obtain ⟨i, hi, rfl, hclaims⟩ := he
  have hpositions : i.positions = chain P i.key (gives P) := by rw [Insertion.positions, hclaims]
  have hmem : ∀ {j}, j ∈ s.members.filter (fun j => j.key ≠ i.key) ↔ j ∈ s.members ∧ j.key ≠ i.key := by simp
  constructor
  · intro x p
    show (s.ring.delete i.key).m_stHashRing.find x = some p ↔ ∃ j ∈ s.members.filter (fun j => j.key ≠ i.key), _
    rw [find_delete, ← hpositions]
    by_cases hx : x ∈ i.positions
    · -- the position was of the deleted member, so of no other
      rw [if_pos hx]
      constructor
      · intro hfalse
        cases hfalse
      · intro hclaim
        obtain ⟨j, hj, -, hjx⟩ := hclaim
        obtain ⟨hj, hne⟩ := hmem.mp hj
        exact absurd (congrArg Insertion.key (h.eq_of_position hj hi hjx hx)) hne
    · rw [if_neg hx, h.owner]
      constructor
      · intro hclaim
        obtain ⟨j, hj, hp, hjx⟩ := hclaim
        refine ⟨j, hmem.mpr ⟨hj, fun hkey => hx ?_⟩, hp, hjx⟩
        rw [← h.eq_of_key hj hi hkey]
        exact hjx
      · intro hclaim
        obtain ⟨j, hj, hp, hjx⟩ := hclaim
        exact ⟨j, (hmem.mp hj).1, hp, hjx⟩
  · exact h.distinct.sublist (List.filter_sublist.map _)

theorem members_inductive [DecidableEq P.Key] : (worker P).Inductive Members where
  init := by
    rintro s rfl
    exact ⟨fun x p => by simp [OrdMap.find, OrdMap.empty], .nil⟩
  step := by
    intro s l s' h hs
    obtain ⟨he, rfl⟩ := hs
    cases l with
    | insert i => exact members_insert h he
    | delete key => exact members_delete h he

/-! ## What a ring serves -/

/-- The position is the first one of all members from the hash of the key up. -/
structure First (s : Worker P) (key : P.Key) (x : UInt64) : Prop where
  up : P.hash key ≤ x
  least : ∀ j ∈ s.members, ∀ y ∈ j.positions, P.hash key ≤ y → x ≤ y

/-- Where a member has a position from the hash of the key up, there is a first one. -/
theorem exists_first (h : Members s) (hi : i ∈ s.members) (hx : x ∈ i.positions) (hup : P.hash key ≤ x) :
    ∃ j ∈ s.members, ∃ y ∈ j.positions, First s key y := by
  have hentry : ∀ j ∈ s.members, ∀ y ∈ j.positions, (y, j.pstPoint) ∈ s.ring.m_stHashRing.entries :=
    fun j hj y hy => OrdMap.mem_iff_find.mpr ((h.owner y _).mpr ⟨j, hj, rfl, hy⟩)
  obtain ⟨e, he⟩ := Option.isSome_iff_exists.mp (OrdMap.lowerBound_isSome (hentry i hi x hx) hup)
  obtain ⟨hmem, hup, hleast⟩ := OrdMap.lowerBound_some he
  obtain ⟨j, hj, -, hjx⟩ := (h.owner e.1 e.2).mp (OrdMap.mem_iff_find.mp hmem)
  exact ⟨j, hj, e.1, hjx, hup, fun k hk y hy hle => hleast _ (hentry k hk y hy) hle⟩

theorem member_of_node (hn : n ∈ s.nodes) : ∃ i ∈ s.members, i.node = n := List.mem_map.mp hn

/-- What is first among more nodes is first among fewer. -/
theorem First.subset (hf : First s₁ key x) (hsub : s₂.nodes ⊆ s₁.nodes) : First s₂ key x := by
  refine ⟨hf.up, fun j hj y hy hle => ?_⟩
  obtain ⟨i, hi, hnode⟩ := member_of_node (hsub (List.mem_map_of_mem hj))
  rw [← positions_of_node hnode] at hy
  exact hf.least i hi y hy hle

variable [DecidableEq P.Point]

theorem find_member (h : Members s) (hi : i ∈ s.members) :
    (s.members.find? fun j => j.pstPoint = i.pstPoint) = some i := by
  cases hfind : s.members.find? fun j => j.pstPoint = i.pstPoint with
  | none => exact absurd (List.find?_eq_none.mp hfind i hi) (by simp)
  | some j =>
    have hp : j.pstPoint = i.pstPoint := by simpa using List.find?_some hfind
    rw [h.eq_of_point (List.mem_of_find?_eq_some hfind) hi hp]

theorem served_first (h : Members s) (hi : i ∈ s.members) (hx : x ∈ i.positions) (hfirst : First s key x) :
    s.served key = some i.node := by
  have hentry : (x, i.pstPoint) ∈ s.ring.m_stHashRing.entries :=
    OrdMap.mem_iff_find.mpr ((h.owner x _).mpr ⟨i, hi, rfl, hx⟩)
  obtain ⟨e, he⟩ := Option.isSome_iff_exists.mp (OrdMap.lowerBound_isSome hentry hfirst.up)
  obtain ⟨hmem, hup, hleast⟩ := OrdMap.lowerBound_some he
  obtain ⟨j, hj, -, hjx⟩ := (h.owner e.1 e.2).mp (OrdMap.mem_iff_find.mp hmem)
  have hpos : e.1 = x := le_antisymm (hleast _ hentry hfirst.up) (hfirst.least j hj _ hjx hup)
  have hhash : s.ring.hash key = some i.pstPoint := by
    rw [hash, he, OrdMap.eq_of_mem hmem hentry hpos]
    rfl
  rw [Worker.served, hhash, Option.bind_some, find_member h hi]
  rfl

/-- The node that is served has the first position. -/
theorem served_some (h : Members s) (hs : s.served key = some n) :
    ∃ i ∈ s.members, i.node = n ∧ ∃ x ∈ i.positions, First s key x := by
  obtain ⟨p, hhash, -⟩ := Option.bind_eq_some_iff.mp hs
  obtain ⟨e, he, -⟩ := Option.map_eq_some_iff.mp hhash
  obtain ⟨hmem, hup, -⟩ := OrdMap.lowerBound_some he
  obtain ⟨j, hj, -, hjx⟩ := (h.owner e.1 e.2).mp (OrdMap.mem_iff_find.mp hmem)
  obtain ⟨i, hi, x, hx, hfirst⟩ := exists_first h hj hjx hup
  rw [served_first h hi hx hfirst] at hs
  exact ⟨i, hi, Option.some.inj hs, x, hx, hfirst⟩

/-! ## Two workers -/

theorem served_subset (h₁ : Members s₁) (h₂ : Members s₂) (hsub : s₂.nodes ⊆ s₁.nodes) (hs : s₁.served key = some n)
    (hn : n ∈ s₂.nodes) : s₂.served key = some n := by
  obtain ⟨i, -, rfl, x, hx, hfirst⟩ := served_some h₁ hs
  obtain ⟨j, hj, hnode⟩ := member_of_node hn
  rw [← positions_of_node hnode] at hx
  rw [served_first h₂ hj hx (hfirst.subset hsub), hnode]

theorem served_none (h₁ : Members s₁) (h₂ : Members s₂) (hsub : s₂.nodes ⊆ s₁.nodes) (hs : s₁.served key = none) :
    s₂.served key = none := by
  cases hs₂ : s₂.served key with
  | none => rfl
  | some n =>
    obtain ⟨j, hj, -, x, hx, hfirst⟩ := served_some h₂ hs₂
    obtain ⟨i, hi, hnode⟩ := member_of_node (hsub (List.mem_map_of_mem hj))
    rw [← positions_of_node hnode] at hx
    obtain ⟨k, hk, y, hy, hfirst'⟩ := exists_first h₁ hi hx hfirst.up
    rw [served_first h₁ hk hy hfirst'] at hs
    cases hs

theorem served_mem (h : Members s) (hs : s.served key = some n) : n ∈ s.nodes := by
  obtain ⟨i, hi, rfl, -⟩ := served_some h hs
  exact List.mem_map_of_mem hi

/-- Of two rings, the one whose nodes the other has too serves the same keys by them, and those that it serves by
no node the other does not serve by one of its own; and where the nodes are the same, all keys are served alike. -/
theorem rings_agree [DecidableEq P.Key] (hr₁ : (worker P).Reachable s₁) (hr₂ : (worker P).Reachable s₂)
    (hsub : s₂.nodes ⊆ s₁.nodes) :
    (∀ key n, s₁.served key = some n → n ∈ s₂.nodes → s₂.served key = some n) ∧
    (∀ key, s₁.served key = none → s₂.served key = none) ∧
    (s₁.nodes ⊆ s₂.nodes → ∀ key, s₁.served key = s₂.served key) := by
  have h₁ := members_inductive.reachable s₁ hr₁
  have h₂ := members_inductive.reachable s₂ hr₂
  refine ⟨fun key n hs hn => served_subset h₁ h₂ hsub hs hn, fun key hs => served_none h₁ h₂ hsub hs,
    fun hsup key => ?_⟩
  cases hs : s₁.served key with
  | none => exact (served_none h₁ h₂ hsub hs).symm
  | some n => exact (served_subset h₁ h₂ hsub hs (hsup (served_mem h₁ hs))).symm

/-- Two keys far from each other, and the points of the two workers. -/
def near (p : Nat) : Insertion steps := ⟨(0 : UInt64), 1, p⟩

def far (p : Nat) : Insertion steps := ⟨(20480 : UInt64), 1, p⟩

theorem worker_pair (i j : Insertion steps) (hij : (j.positions.all fun x => decide (x ∉ i.positions)) = true)
    (hp : i.pstPoint ≠ j.pstPoint) :
    (worker steps).Reachable ((({} : Worker steps).next (.insert i)).next (.insert j)) := by
  have hinit : (worker steps).Reachable {} := .init rfl
  have hi : ({} : Worker steps).enabled (.insert i) := ⟨fun _ _ => rfl, nofun⟩
  have hone := hinit.step ⟨hi, rfl⟩
  have hj : (({} : Worker steps).next (.insert i)).enabled (.insert j) := by
    refine ⟨fun x hx => ?_, fun k hk => List.mem_singleton.mp hk ▸ hp⟩
    cases hfind : (({} : Worker steps).next (.insert i)).ring.m_stHashRing.find x with
    | none => rfl
    | some p =>
      obtain ⟨k, hk, -, hkx⟩ := ((members_inductive.reachable _ hone).owner x p).mp hfind
      rw [List.mem_singleton.mp hk] at hkx
      exact absurd hkx (apart hij x hx)
  exact hone.step ⟨hj, rfl⟩

/-- Two workers learn of two nodes in different orders. -/
theorem rings_agree_swapped : ((({} : Worker steps).next (.insert (near 0))).next (.insert (far 1))).served
      (9217 : UInt64) =
    ((({} : Worker steps).next (.insert (far 5))).next (.insert (near 3))).served (9217 : UInt64) :=
  (rings_agree (worker_pair (near 0) (far 1) (by decide) (by decide))
    (worker_pair (far 5) (near 3) (by decide) (by decide)) (by decide)).2.2 (by decide) _

end SimpleSvr.L4.ConsistentHash
