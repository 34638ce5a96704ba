import Mathlib.Algebra.Ring.Nat
import Mathlib.Data.List.Induction

/-!
# Byte strings and big-endian numbers

`be n x` is the `n`-byte big-endian encoding of `x`, `ofBe` decodes. The two
are inverse on byte strings of one length (`ofBe_be`, `be_ofBe`).
-/
namespace SimpleSvr

abbrev Bytes := List UInt8

/-- The low `n` bytes of `x`, most significant first. -/
def be : Nat → Nat → Bytes
  | 0, _ => []
  | n + 1, x => be n (x / 256) ++ [UInt8.ofNat x]

def ofBe (l : Bytes) : Nat := l.foldl (fun acc b => acc * 256 + b.toNat) 0

@[simp] theorem length_be (n x : Nat) : (be n x).length = n := by
  induction n generalizing x with
  | zero => rfl
  | succ n ih => simp [be, ih]

theorem ofBe_concat (l : Bytes) (b : UInt8) : ofBe (l ++ [b]) = ofBe l * 256 + b.toNat := by
  simp [ofBe]

theorem ofBe_be (n x : Nat) : ofBe (be n x) = x % 256 ^ n := by
  induction n generalizing x with
  | zero => rw [Nat.pow_zero, Nat.mod_one]; rfl
  | succ n ih =>
    have hp : 256 ^ (n + 1) = 256 * 256 ^ n := Nat.pow_succ'
    rw [be, ofBe_concat, ih, UInt8.toNat_ofNat', hp, Nat.mod_mul, Nat.mul_comm, Nat.add_comm]

theorem ofBe_lt (l : Bytes) : ofBe l < 256 ^ l.length := by
  induction l using List.reverseRecOn with
  | nil => decide
  | append_singleton l b ih =>
    have hb := b.toNat_lt
    rw [ofBe_concat, List.length_append, List.length_singleton, Nat.pow_succ]
    omega

theorem be_ofBe (l : Bytes) : be l.length (ofBe l) = l := by
  induction l using List.reverseRecOn with
  | nil => rfl
  | append_singleton l b ih =>
    have hb := b.toNat_lt
    have hd : (ofBe l * 256 + b.toNat) / 256 = ofBe l := by omega
    have hm : UInt8.ofNat (ofBe l * 256 + b.toNat) = b := by
      rw [← UInt8.toNat_inj, UInt8.toNat_ofNat']
      omega
    rw [List.length_append, List.length_singleton, ofBe_concat, be, hd, hm, ih]

theorem be_add (m n x : Nat) : be (m + n) x = be m (x / 256 ^ n) ++ be n x := by
  induction n generalizing x with
  | zero => simp [be]
  | succ n ih =>
    rw [← Nat.add_assoc, be, ih, be, List.append_assoc, Nat.pow_succ', Nat.div_div_eq_div_mul]

theorem be_mod (n x : Nat) : be n (x % 256 ^ n) = be n x := by
  rw [← ofBe_be]
  have h := be_ofBe (be n x)
  rwa [length_be] at h

/-- Host order: the `n` bytes of `x` in the memory of a little-endian machine. -/
def host (n x : Nat) : Bytes := (be n x).reverse

def ofHost (l : Bytes) : Nat := ofBe l.reverse

end SimpleSvr
