import SimpleSvr.L1Encoding.IOBufferBounds
import Mathlib.Algebra.Ring.Int.Defs
import Mathlib.Order.Lattice

/-!
# Seeks at the ends of a buffer

A seek adds an `ssize_t` to an unsigned cursor and tests the upper end only. A
sum below 0 wraps to above every buffer and is taken back to the end: a seek
backward past the start goes to the end (`seek_saturates_iff`).
-/
namespace SimpleSvr.L1.IOBuffer

/-- `x` within `[0, limit]`. -/
def clamp (x : Int) (limit : UInt64) : Int := max 0 (min x limit.toNat)

/-- Both seeks by `d` stop at the ends; and a backward one does not move its cursor forward. -/
structure Saturates (io : IOBuffer) (d : Int64) : Prop where
  read : ((io.readSeek d.toUInt64).readPosition.toNat : Int) =
    clamp (io.readPosition.toNat + d.toInt) io.availableReadSize
  write : ((io.writeSeek d.toUInt64).writePosition.toNat : Int) =
    clamp (io.writePosition.toNat + d.toInt) io.bufferSize
  backward : d.toInt ≤ 0 → (io.readSeek d.toUInt64).readPosition ≤ io.readPosition ∧
    (io.writeSeek d.toUInt64).writePosition ≤ io.writePosition

/-- Neither cursor is sent below 0, unless there is nowhere to go. -/
def InReach (io : IOBuffer) (d : Int64) : Prop :=
  (0 ≤ io.readPosition.toNat + d.toInt ∨ io.availableReadSize = 0) ∧
    (0 ≤ io.writePosition.toNat + d.toInt ∨ io.bufferSize = 0)

instance (io : IOBuffer) (d : Int64) : Decidable (InReach io d) := inferInstanceAs (Decidable (_ ∧ _))

/-- What either seek makes of its cursor. -/
def sought (x limit : UInt64) (d : Int64) : UInt64 :=
  if x + d.toUInt64 > limit then limit else x + d.toUInt64

/-- The two's complement of an `ssize_t`. -/
theorem toInt_cases (d : Int64) :
    (d.toUInt64.toNat < 2 ^ 63 ∧ d.toInt = d.toUInt64.toNat) ∨
      (2 ^ 63 ≤ d.toUInt64.toNat ∧ d.toInt = (d.toUInt64.toNat : Int) - 2 ^ 64) := by
  have h : d.toInt = if 2 * d.toUInt64.toNat < 2 ^ 64 then (d.toUInt64.toNat : Int)
      else (d.toUInt64.toNat : Int) - ((2 ^ 64 : Nat) : Int) := BitVec.toInt_eq_toNat_cond _
  split at h <;> omega

/-- A sum below 0 is taken for one past the end. -/
theorem toNat_sought {x limit : UInt64} (hx : x ≤ limit) (hl : limit.toNat < 2 ^ 62) (d : Int64) :
    ((sought x limit d).toNat : Int) =
      if 0 ≤ x.toNat + d.toInt then clamp (x.toNat + d.toInt) limit else limit.toNat := by
  have hle := UInt64.le_iff_toNat_le.mp hx
  have hd := d.toUInt64.toNat_lt
  have hsum : (x + d.toUInt64).toNat = (x.toNat + d.toUInt64.toNat) % 2 ^ 64 := UInt64.toNat_add _ _
  have hgt : x + d.toUInt64 > limit ↔ limit.toNat < (x + d.toUInt64).toNat := UInt64.lt_iff_toNat_lt
  unfold sought clamp
  rcases toInt_cases d with ⟨hlow, hval⟩ | ⟨hhigh, hval⟩
  · -- forward: no wrap, so the upper test is the right one
    have hpos : 0 ≤ (x.toNat : Int) + d.toInt := by omega
    rw [if_pos hpos]
    by_cases hc : x + d.toUInt64 > limit
    · rw [if_pos hc]
      rw [hgt, hsum] at hc
      omega
    · rw [if_neg hc, hsum]
      rw [hgt, hsum] at hc
      omega
  · by_cases hpos : 0 ≤ (x.toNat : Int) + d.toInt
    · -- backward within the buffer: the sum wraps to the right place
      have hc : ¬x + d.toUInt64 > limit := by
        rw [hgt, hsum]
        omega
      rw [if_pos hpos, if_neg hc, hsum]
      omega
    · have hc : x + d.toUInt64 > limit := by
        rw [hgt, hsum]
        omega
      rw [if_neg hpos, if_pos hc]

theorem sought_eq_clamp_iff {x limit : UInt64} (hx : x ≤ limit) (hl : limit.toNat < 2 ^ 62) (d : Int64) :
    ((sought x limit d).toNat : Int) = clamp (x.toNat + d.toInt) limit ↔
      0 ≤ x.toNat + d.toInt ∨ limit = 0 := by
  have hzero : limit = 0 ↔ limit.toNat = 0 := UInt64.toNat_inj.symm
  rw [toNat_sought hx hl, hzero]
  split
  · next hpos => exact iff_of_true rfl (.inl hpos)
  · next hneg =>
    unfold clamp
    omega

/-- A backward seek that stops at the start does not go forward. -/
theorem sought_le {x limit : UInt64} {d : Int64} (hd : d.toInt ≤ 0)
    (h : ((sought x limit d).toNat : Int) = clamp (x.toNat + d.toInt) limit) : sought x limit d ≤ x := by
  unfold clamp at h
  rw [UInt64.le_iff_toNat_le]
  omega

theorem bounded_inductive : uses.Inductive fun u => u.status ≠ .fault → Bounded u.io where
  init := by
    rintro u ⟨⟨mem, size, available, hmem, ha, hio⟩, -, -⟩ -
    rw [hio]
    exact new_bounded hmem ha
  step := by
    rintro u op u' h ⟨hst, hs, rfl⟩ hst'
    have hl := perform_lands (h hst) hs
    exact hl.bounded fun hw => hst' (hl.fault hw)

/-- Of a buffer in use, which seeks saturate. -/
theorem seek_saturates_iff {u : Use} (hr : uses.Reachable u) (hst : u.status ≠ .fault)
    (hsize : u.io.bufferSize.toNat < 2 ^ 62) (d : Int64) : Saturates u.io d ↔ InReach u.io d := by
  have hb := bounded_inductive.reachable u hr hst
  have havail : u.io.availableReadSize.toNat < 2 ^ 62 :=
    Nat.lt_of_le_of_lt (UInt64.le_iff_toNat_le.mp hb.available_le) hsize
  have hread := sought_eq_clamp_iff hb.read_le havail d
  have hwrite := sought_eq_clamp_iff hb.write_le hsize d
  constructor
  · intro h
    exact ⟨hread.mp h.read, hwrite.mp h.write⟩
  · intro h
    have hr := hread.mpr h.1
    have hw := hwrite.mpr h.2
    exact ⟨hr, hw, fun hd => ⟨sought_le hd hr, sought_le hd hw⟩⟩

/-- One byte read, and back to the start. -/
theorem seek_saturates_back : Saturates ({ fourBytes with readPosition := 1, writePosition := 1 }) (-1) := by
  have h0 : uses.Reachable _ := .init fourBytes_uses
  have h1 := h0.step (@uses_step _ (.read 1) (by decide) trivial)
  have h2 := h1.step (@uses_step _ (.writeSeek 1) (by decide) trivial)
  exact (seek_saturates_iff h2 (by decide) (by decide) (-1)).mpr (by decide)

/-- One step back from the start: the read cursor is at the end. -/
theorem seek_back_to_end : ∃ u, uses.Reachable u ∧ u.status ≠ .fault ∧ u.io.bufferSize.toNat < 2 ^ 62 ∧
    ¬Saturates u.io (-1) := by
  refine ⟨_, .init fourBytes_uses, by decide, by decide, fun h => ?_⟩
  exact absurd (h.backward (by decide)).1 (by decide)

end SimpleSvr.L1.IOBuffer
