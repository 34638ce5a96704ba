import SimpleSvr.Core.OrdMap

/-!
# The hash ring (`ConsistentHash.hpp`)

A point owns the ring positions of its hash chain: the hash of its key, and
then each position hashed again. A position is claimed by `std::map::insert`,
so one that has an owner keeps it. A key is looked up at the first position not
below its hash.

`insert_disrupts_little`: an insertion sends a key where it went before, or to
the new point.
-/
namespace SimpleSvr.L4

instance instLinearOrderUInt64 : LinearOrder UInt64 where
  le_refl := UInt64.le_refl
  le_trans := @UInt64.le_trans
  le_antisymm := @UInt64.le_antisymm
  le_total := UInt64.le_total
  lt_iff_le_not_ge a b := by
    rw [UInt64.lt_iff_toNat_lt, UInt64.le_iff_toNat_le, UInt64.le_iff_toNat_le]
    omega
  toDecidableLE := inferInstance
  toDecidableEq := inferInstance
  toDecidableLT := inferInstance

/-- The template's parameters. `hash` and `hash2` are `HashT` at `KeyT` and at
`uint64_t`; `Point` is the pointer type of the points. -/
structure HashParams where
  Key : Type
  Point : Type
  VirtualSize : UInt64 := 10
  AlignSize : UInt64 := 1024
  hash : Key → UInt64
  hash2 : UInt64 → UInt64

/-- mirrors include/ConsistentHash.hpp:183-186 -/
structure ConsistentHash (P : HashParams) where
  m_stHashRing : OrdMap UInt64 P.Point := .empty

namespace ConsistentHash

variable {P : HashParams}

/-- mirrors include/ConsistentHash.hpp:108 -/
def align (P : HashParams) (ddwPointKey : UInt64) : UInt64 := ddwPointKey / P.AlignSize * P.AlignSize

/-- `n` more positions of the chain of `ddwPointKey`, for `pstPoint`.
mirrors include/ConsistentHash.hpp:112-117 -/
def insertChain (pstPoint : P.Point) : Nat → UInt64 → OrdMap UInt64 P.Point → OrdMap UInt64 P.Point
  | 0, _, ring => ring
  | n + 1, ddwPointKey, ring =>
    insertChain pstPoint n (align P (P.hash2 ddwPointKey)) (ring.insert (align P (P.hash2 ddwPointKey)) pstPoint)

/-- `pstPoint` is the point that `new` returned; the value of it is what `Insert` returns.
mirrors include/ConsistentHash.hpp:102-120 -/
def insert (c : ConsistentHash P) (pstPoint : P.Point) (key : P.Key) (dwQuotas : UInt32) : ConsistentHash P where
  m_stHashRing := insertChain pstPoint ((P.VirtualSize * dwQuotas.toUInt64).toNat - 1) (align P (P.hash key))
    (c.m_stHashRing.insert (align P (P.hash key)) pstPoint)

/-- mirrors include/ConsistentHash.hpp:144-152 -/
def hash (c : ConsistentHash P) (key : P.Key) : Option P.Point :=
  (c.m_stHashRing.lowerBound (P.hash key)).map Prod.snd

/-! ## Growing -/

/-- `ring'` has the entries of `ring`, and others of `p` only. -/
structure Grows (p : P.Point) (ring ring' : OrdMap UInt64 P.Point) : Prop where
  old : ∀ e ∈ ring.entries, e ∈ ring'.entries
  new : ∀ e ∈ ring'.entries, e ∈ ring.entries ∨ e.2 = p

variable {p : P.Point} {ring ring₁ ring₂ : OrdMap UInt64 P.Point}

theorem Grows.refl (ring : OrdMap UInt64 P.Point) : Grows p ring ring :=
  ⟨fun _ h => h, fun _ h => .inl h⟩

theorem Grows.trans (h₁ : Grows p ring ring₁) (h₂ : Grows p ring₁ ring₂) : Grows p ring ring₂ := by
  refine ⟨fun e he => h₂.old e (h₁.old e he), fun e he => ?_⟩
  rcases h₂.new e he with he | hp
  · exact h₁.new e he
  · exact .inr hp

/-- A claimed position keeps its owner. -/
theorem grows_insert (p : P.Point) (ring : OrdMap UInt64 P.Point) (k : UInt64) : Grows p ring (ring.insert k p) := by
  constructor
  · intro e he
    exact ring.mem_insert_of_mem he k p
  · intro e he
    rcases OrdMap.mem_insertList he with rfl | he
    · exact .inr rfl
    · exact .inl he

theorem grows_insertChain (p : P.Point) (n : Nat) (ddwPointKey : UInt64) (ring : OrdMap UInt64 P.Point) :
    Grows p ring (insertChain p n ddwPointKey ring) := by
  induction n generalizing ddwPointKey ring with
  | zero => exact .refl ring
  | succ n ih => exact (grows_insert p ring _).trans (ih _ _)

theorem insert_grows (c : ConsistentHash P) (p : P.Point) (n : P.Key) (q : UInt32) :
    Grows p c.m_stHashRing (c.insert p n q).m_stHashRing :=
  (grows_insert p _ _).trans (grows_insertChain p _ _ _)

/-- After an insertion a key goes where it went or to the new point, a key that went somewhere
still does, and no position changes its owner. -/
theorem insert_disrupts_little (c : ConsistentHash P) (p : P.Point) (n k : P.Key) (q : UInt32) :
    ((c.insert p n q).hash k = c.hash k ∨ (c.insert p n q).hash k = some p) ∧
    ((c.hash k).isSome → ((c.insert p n q).hash k).isSome) ∧
    ∀ pos owner, c.m_stHashRing.find pos = some owner → (c.insert p n q).m_stHashRing.find pos = some owner := by
  have hg := c.insert_grows p n q
  refine ⟨?_, fun h => ?_, fun pos owner h => ?_⟩
  · rcases OrdMap.lowerBound_extend hg.old hg.new (P.hash k) with h | h
    · exact .inl (congrArg _ h)
    · exact .inr h
  · rw [hash, Option.isSome_map] at h ⊢
    exact OrdMap.lowerBound_isSome_extend hg.old h
  · exact OrdMap.mem_iff_find.mp (hg.old _ (OrdMap.mem_iff_find.mpr h))

end ConsistentHash
end SimpleSvr.L4
