import SimpleSvr.Core.Bytes

/-!
# Framing of byte streams

A `Framing` says of the bytes that are there how long the first frame is, if it
is complete. Bytes behind a complete frame do not change it; so cutting a stream
into frames piece by piece gives the frames of the whole (`split_append`).
-/
namespace SimpleSvr

structure Framing where
  frame : Bytes → Option Nat
  bounds : ∀ b n, frame b = some n → 0 < n ∧ n ≤ b.length
  extend : ∀ b c n, frame b = some n → frame (b ++ c) = some n

namespace Framing

variable {F : Framing} {b c : Bytes} {n : Nat}

/-- Up to `fuel` frames, and the rest. -/
def cut (F : Framing) : Nat → Bytes → List Bytes × Bytes
  | 0, b => ([], b)
  | fuel + 1, b =>
    match F.frame b with
    | none => ([], b)
    | some n => (b.take n :: (F.cut fuel (b.drop n)).1, (F.cut fuel (b.drop n)).2)

/-- The complete frames, and the incomplete tail. -/
def split (F : Framing) (b : Bytes) : List Bytes × Bytes := F.cut b.length b

theorem cut_of_le (F : Framing) : ∀ (fuel : Nat) (b : Bytes), b.length ≤ fuel → F.cut fuel b = F.split b := by
  intro fuel
  induction fuel using Nat.strongRecOn with
  | ind fuel ih =>
    intro b hle
    cases fuel with
    | zero =>
      rw [List.eq_nil_of_length_eq_zero (Nat.le_zero.mp hle)]
      rfl
    | succ fuel =>
      cases hf : F.frame b with
      | none =>
        rw [split, cut, hf]
        cases hl : b.length with
        | zero => rfl
        | succ k => rw [cut, hf]
      | some n =>
        obtain ⟨hpos, hn⟩ := F.bounds b n hf
        have hlen : (b.drop n).length = b.length - n := List.length_drop
        obtain ⟨k, hk⟩ : ∃ k, b.length = k + 1 := ⟨b.length - 1, by omega⟩
        have h₁ : F.cut fuel (b.drop n) = F.split (b.drop n) := ih fuel (Nat.lt_succ_self _) _ (by omega)
        have h₂ : F.cut k (b.drop n) = F.split (b.drop n) := ih k (by omega) _ (by omega)
        rw [split, hk, cut, cut, hf]
        simp only [h₁, h₂]

theorem split_none (hf : F.frame b = none) : F.split b = ([], b) := by
  rw [← cut_of_le F (b.length + 1) b (Nat.le_succ _), cut, hf]

theorem split_some (hf : F.frame b = some n) :
    F.split b = (b.take n :: (F.split (b.drop n)).1, (F.split (b.drop n)).2) := by
  have hlen : (b.drop n).length ≤ b.length := by
    rw [List.length_drop]
    exact Nat.sub_le _ _
  rw [← cut_of_le F (b.length + 1) b (Nat.le_succ _), cut, hf]
  simp only [cut_of_le F b.length _ hlen]

/-- The tail and what comes behind it are cut as if the frames before were still there. -/
theorem split_append (F : Framing) (b c : Bytes) :
    F.split (b ++ c) = ((F.split b).1 ++ (F.split ((F.split b).2 ++ c)).1, (F.split ((F.split b).2 ++ c)).2) := by
  induction hl : b.length using Nat.strongRecOn generalizing b with
  | ind k ih =>
    cases hf : F.frame b with
    | none => rw [split_none hf, List.nil_append]
    | some n =>
      obtain ⟨hpos, hn⟩ := F.bounds b n hf
      have hlen : (b.drop n).length = b.length - n := List.length_drop
      have hrest := ih (b.drop n).length (by omega) (b.drop n) rfl
      rw [split_some hf, split_some (F.extend b c n hf), List.take_append_of_le_length hn,
        List.drop_append_of_le_length hn, hrest]
      rfl

end Framing
end SimpleSvr
