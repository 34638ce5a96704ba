import Mathlib.Algebra.Order.Floor.Semifield
import Mathlib.Data.Int.Log
import Mathlib.Data.Rat.Floor
import Mathlib.Tactic.Linarith
import Mathlib.Tactic.NormNum
import Mathlib.Tactic.Positivity
import Mathlib.Tactic.Ring

/-!
# Doubles

A `Double` is what IEEE 754 binary64 has of the numbers that are not negative,
with an exponent that neither overflows nor underflows. `ofNat`, `*`, `/` and
`floor` compute as the processor does: to nearest, ties to even, with 53 bits.

Over them stands the rounding of a rational number, `round`. The operations are
the exact ones, rounded (`value_ofNat`, `value_mul`, `value_div`). `le_round` and
`round_le` say that rounding does not pass a double, `round_le_mul` bounds its
error, and `round_natCast_eq` and `round_sub` compute it.
-/
namespace SimpleSvr

/-- `mantissa * 2 ^ exponent` -/
structure Double where
  mantissa : ℕ
  exponent : ℤ

namespace Double

/-- The natural number nearest to `a / b`, the even one of two. -/
def nearest (a b : ℕ) : ℕ :=
  a / b + if 2 * (a % b) < b then 0 else if b < 2 * (a % b) then 1 else a / b % 2

/-- The exponent that leaves 53 bits of `a / b` before the point. The difference of the lengths is
right or one too large. -/
def exponentOf (a b : ℕ) : ℤ :=
  let e : ℤ := a.log2 - b.log2 - 52
  if a * 2 ^ (-e).toNat < 2 ^ 52 * (b * 2 ^ e.toNat) then e - 1 else e

/-- `a / b`, rounded. -/
def quotient (a b : ℕ) : Double :=
  let e := exponentOf a b
  ⟨nearest (a * 2 ^ (-e).toNat) (b * 2 ^ e.toNat), e⟩

/-- The double, times a power of two. -/
def scale (x : Double) (k : ℤ) : Double := ⟨x.mantissa, x.exponent + k⟩

def ofNat (n : ℕ) : Double := quotient n 1

instance : Mul Double where
  mul x y := (quotient (x.mantissa * y.mantissa) 1).scale (x.exponent + y.exponent)

instance : Div Double where
  div x y := (quotient x.mantissa y.mantissa).scale (x.exponent - y.exponent)

def floor (x : Double) : ℕ := x.mantissa * 2 ^ x.exponent.toNat / 2 ^ (-x.exponent).toNat

/-- The number that it stands for. -/
def value (x : Double) : ℚ := x.mantissa * 2 ^ x.exponent

/-! ## The rounding -/

/-- The nearest integer, the even one of two. -/
def roundEven (x : ℚ) : ℤ :=
  if x - ⌊x⌋ < 1 / 2 then ⌊x⌋ else if 1 / 2 < x - ⌊x⌋ then ⌊x⌋ + 1 else ⌊x⌋ + ⌊x⌋ % 2

/-- The distance of the doubles next to `q`. -/
def ulp (q : ℚ) : ℚ := 2 ^ (Int.log 2 q - 52)

/-- The double nearest to `q`. -/
def round (q : ℚ) : ℚ := roundEven (q / ulp q) * ulp q

variable {x q : ℚ} {n : ℤ}

/-! ## Integers -/

theorem roundEven_tie (n : ℤ) : roundEven (n + 1 / 2) = n + n % 2 := by
  have hfloor : ⌊(n : ℚ) + 1 / 2⌋ = n := Int.floor_eq_iff.mpr ⟨by linarith, by linarith⟩
  rw [roundEven, hfloor, if_neg (by linarith), if_neg (by linarith)]

theorem abs_roundEven_sub (x : ℚ) : |roundEven x - x| ≤ 1 / 2 := by
  have hlo := Int.floor_le x
  have hhi := Int.lt_floor_add_one x
  unfold roundEven
  split
  · rw [abs_le]
    constructor <;> linarith
  · split
    · push_cast
      rw [abs_le]
      constructor <;> linarith
    · have htie : x - ⌊x⌋ = 1 / 2 := by linarith
      have hparity : ((⌊x⌋ % 2 : ℤ) : ℚ) = 0 ∨ ((⌊x⌋ % 2 : ℤ) : ℚ) = 1 := by
        rcases Int.emod_two_eq_zero_or_one ⌊x⌋ with h | h
        · exact .inl (by rw [h]; rfl)
        · exact .inr (by rw [h]; rfl)
      push_cast at hparity ⊢
      rw [abs_le]
      constructor <;> rcases hparity with h | h <;> linarith

/-- A distance of less than one half decides. -/
theorem roundEven_eq (h : |x - n| < 1 / 2) : roundEven x = n := by
  have herr := abs_roundEven_sub x
  rw [abs_lt] at h
  rw [abs_le] at herr
  have hlt : |(roundEven x : ℚ) - n| < 1 := by
    rw [abs_lt]
    constructor <;> linarith
  have hint : |roundEven x - n| < 1 := by exact_mod_cast hlt
  exact sub_eq_zero.mp (Int.abs_lt_one_iff.mp hint)

theorem le_roundEven (h : (n : ℚ) ≤ x) : n ≤ roundEven x := by
  have herr := (abs_le.mp (abs_roundEven_sub x)).1
  have hlt : (n : ℚ) < roundEven x + 1 := by linarith
  exact Int.lt_add_one_iff.mp (by exact_mod_cast hlt)

theorem roundEven_le (h : x ≤ n) : roundEven x ≤ n := by
  have herr := (abs_le.mp (abs_roundEven_sub x)).2
  have hlt : (roundEven x : ℚ) < n + 1 := by linarith
  exact Int.lt_add_one_iff.mp (by exact_mod_cast hlt)

/-- The quotient of two natural numbers is rounded by the remainder. -/
theorem div_eq_add_mod (a : ℕ) {b : ℕ} (hb : 0 < b) : (a : ℚ) / b = (a / b : ℕ) + (a % b : ℕ) / b := by
  have hb' : (b : ℚ) ≠ 0 := Nat.cast_ne_zero.mpr hb.ne'
  have hsplit : (a : ℚ) = b * (a / b : ℕ) + (a % b : ℕ) := by exact_mod_cast (Nat.div_add_mod a b).symm
  rw [div_eq_iff hb', add_mul, div_mul_cancel₀ _ hb']
  linarith

theorem roundEven_div_down {a b : ℕ} (h : 2 * (a % b) < b) : roundEven (a / b) = (a / b : ℕ) := by
  have hb : 0 < b := by omega
  have hb' : (0 : ℚ) < b := Nat.cast_pos.mpr hb
  have hlt : ((a % b : ℕ) : ℚ) / b < 1 / 2 := by
    have : (2 : ℚ) * (a % b : ℕ) < b := by exact_mod_cast h
    rw [div_lt_iff₀ hb']
    linarith
  apply roundEven_eq
  rw [div_eq_add_mod a hb, Int.cast_natCast, add_sub_cancel_left, abs_of_nonneg (by positivity)]
  exact hlt

theorem roundEven_div_up {a b : ℕ} (hb : 0 < b) (h : b < 2 * (a % b)) : roundEven (a / b) = (a / b : ℕ) + 1 := by
  have hb' : (0 : ℚ) < b := Nat.cast_pos.mpr hb
  have hlo : 1 / 2 < ((a % b : ℕ) : ℚ) / b := by
    have : (b : ℚ) < 2 * (a % b : ℕ) := by exact_mod_cast h
    rw [lt_div_iff₀ hb']
    linarith
  have hhi : ((a % b : ℕ) : ℚ) / b < 1 := by
    rw [div_lt_one hb']
    exact_mod_cast Nat.mod_lt a hb
  apply roundEven_eq
  rw [div_eq_add_mod a hb, Int.cast_add, Int.cast_natCast, Int.cast_one, abs_lt]
  constructor <;> linarith

theorem roundEven_div_tie {a b : ℕ} (hb : 0 < b) (h : 2 * (a % b) = b) :
    roundEven (a / b) = (a / b : ℕ) + (a / b % 2 : ℕ) := by
  have hb' : (b : ℚ) ≠ 0 := Nat.cast_ne_zero.mpr hb.ne'
  have hhalf : ((a % b : ℕ) : ℚ) / b = 1 / 2 := by
    have : (2 : ℚ) * (a % b : ℕ) = b := by exact_mod_cast h
    rw [div_eq_div_iff hb' (by norm_num)]
    linarith
  have htie := roundEven_tie (a / b : ℕ)
  rw [Int.cast_natCast] at htie
  rw [div_eq_add_mod a hb, hhalf, htie, Int.natCast_mod, Nat.cast_ofNat]

/-! ## Doubles -/

theorem ulp_pos (q : ℚ) : 0 < ulp q := zpow_pos (by norm_num) _

theorem round_zero : round 0 = 0 := by
  have h : roundEven 0 = 0 := roundEven_eq (by norm_num)
  rw [round, zero_div, h, Int.cast_zero, zero_mul]

theorem two_pow_mul (k : ℕ) (e : ℤ) : (2 : ℚ) ^ k * 2 ^ e = 2 ^ (k + e) := by
  rw [zpow_add₀ (by norm_num), zpow_natCast]

/-- A positive number has 53 bits before its `ulp`. -/
theorem scaled (hq : 0 < q) : 2 ^ 52 * ulp q ≤ q ∧ q < 2 ^ 53 * ulp q := by
  have hlo := Int.zpow_log_le_self (b := 2) (by norm_num) hq
  have hhi := Int.lt_zpow_succ_log_self (b := 2) (by norm_num) q
  rw [ulp, two_pow_mul, two_pow_mul, show ((52 : ℕ) : ℤ) + (Int.log 2 q - 52) = Int.log 2 q by omega,
    show ((53 : ℕ) : ℤ) + (Int.log 2 q - 52) = Int.log 2 q + 1 by omega]
  exact ⟨by exact_mod_cast hlo, by exact_mod_cast hhi⟩

/-- The exponent is the one that leaves 53 bits. -/
theorem ulp_eq {e : ℤ} (hlo : 2 ^ 52 * 2 ^ e ≤ q) (hhi : q < 2 ^ 53 * 2 ^ e) : ulp q = 2 ^ e := by
  have hq : 0 < q := lt_of_lt_of_le (mul_pos (by norm_num) (zpow_pos (by norm_num) e)) hlo
  rw [two_pow_mul] at hlo hhi
  have h1 := (Int.zpow_le_iff_le_log (b := 2) (by norm_num) hq).mp (by exact_mod_cast hlo)
  have h2 := (Int.lt_zpow_iff_log_lt (b := 2) (by norm_num) hq).mp (by exact_mod_cast hhi)
  rw [ulp]
  congr 1
  omega

theorem round_eq {e : ℤ} (hlo : 2 ^ 52 * 2 ^ e ≤ q) (hhi : q < 2 ^ 53 * 2 ^ e) :
    round q = roundEven (q / 2 ^ e) * 2 ^ e := by
  rw [round, ulp_eq hlo hhi]

/-- The error is at most half an `ulp`. -/
theorem round_le_mul (hq : 0 ≤ q) : round q ≤ q * (1 + 1 / 2 ^ 53) := by
  rcases hq.eq_or_lt with rfl | hq
  · rw [round_zero, zero_mul]
  · have hpos := ulp_pos q
    have hscale := (scaled hq).1
    have herr := (abs_le.mp (abs_roundEven_sub (q / ulp q))).2
    have hmul := mul_le_mul_of_nonneg_right herr hpos.le
    rw [sub_mul, div_mul_cancel₀ _ hpos.ne'] at hmul
    unfold round
    linarith

/-- A double that is not below the ones with the exponent of `q` is a multiple of their distance. -/
theorem exists_multiple {n : ℕ} {j : ℤ} (hn : n ≤ 2 ^ 53) (h : 2 ^ 52 * ulp q ≤ n * 2 ^ j) :
    ∃ k : ℤ, (n : ℚ) * 2 ^ j = k * ulp q := by
  rcases h.eq_or_lt with h | h
  · exact ⟨2 ^ 52, by rw [← h]; norm_num⟩
  · have hle : (n : ℚ) * 2 ^ j ≤ 2 ^ 53 * 2 ^ j :=
      mul_le_mul_of_nonneg_right (by exact_mod_cast hn) (zpow_pos (by norm_num) j).le
    have hpow := h.trans_le hle
    rw [ulp, two_pow_mul, two_pow_mul, zpow_lt_zpow_iff_right₀ (by norm_num)] at hpow
    obtain ⟨d, hd⟩ := Int.le.dest (show Int.log 2 q - 52 ≤ j by omega)
    refine ⟨n * 2 ^ d, ?_⟩
    rw [← hd, ulp, add_comm, ← two_pow_mul]
    push_cast
    ring

/-- Rounding does not pass a double. -/
theorem le_round {n : ℕ} {j : ℤ} (hn : n ≤ 2 ^ 53) (h0 : 0 ≤ q) (h : n * 2 ^ j ≤ q) : n * 2 ^ j ≤ round q := by
  rcases h0.eq_or_lt with rfl | hq
  · rwa [round_zero]
  · have hpos := ulp_pos q
    by_cases hlow : (n : ℚ) * 2 ^ j < 2 ^ 52 * ulp q
    · have h52 : ((2 ^ 52 : ℤ) : ℚ) ≤ q / ulp q := by
        rw [le_div_iff₀ hpos]
        exact_mod_cast (scaled hq).1
      have hint : ((2 ^ 52 : ℤ) : ℚ) ≤ roundEven (q / ulp q) := by exact_mod_cast le_roundEven h52
      have hround : 2 ^ 52 * ulp q ≤ round q := by
        rw [round]
        exact mul_le_mul_of_nonneg_right (by exact_mod_cast hint) hpos.le
      exact hlow.le.trans hround
    · obtain ⟨k, hk⟩ := exists_multiple hn (not_lt.mp hlow)
      rw [hk] at h ⊢
      have hint : (k : ℚ) ≤ roundEven (q / ulp q) := by exact_mod_cast le_roundEven ((le_div_iff₀ hpos).mpr h)
      exact mul_le_mul_of_nonneg_right hint hpos.le

theorem round_le {n : ℕ} {j : ℤ} (hn : n ≤ 2 ^ 53) (h0 : 0 ≤ q) (h : q ≤ n * 2 ^ j) : round q ≤ n * 2 ^ j := by
  rcases h0.eq_or_lt with rfl | hq
  · rwa [round_zero]
  · have hpos := ulp_pos q
    obtain ⟨k, hk⟩ := exists_multiple hn ((scaled hq).1.trans h)
    rw [hk] at h ⊢
    have hint : (roundEven (q / ulp q) : ℚ) ≤ k := by exact_mod_cast roundEven_le ((div_le_iff₀ hpos).mpr h)
    exact mul_le_mul_of_nonneg_right hint hpos.le

/-- A double is itself. -/
theorem round_exact {n : ℕ} {j : ℤ} (hn : n ≤ 2 ^ 53) : round (n * 2 ^ j) = n * 2 ^ j := by
  have h0 : (0 : ℚ) ≤ n * 2 ^ j := mul_nonneg (Nat.cast_nonneg n) (zpow_pos (by norm_num) j).le
  exact le_antisymm (round_le hn h0 le_rfl) (le_round hn h0 le_rfl)

theorem round_natCast {n : ℕ} (hn : n ≤ 2 ^ 53) : round n = n := by
  have h := round_exact (j := 0) hn
  rwa [zpow_zero, mul_one] at h

theorem natCast_le_round {n : ℕ} (hn : n ≤ 2 ^ 53) (h : (n : ℚ) ≤ q) : (n : ℚ) ≤ round q := by
  have h0 : (0 : ℚ) ≤ q := (Nat.cast_nonneg n).trans h
  have hle := le_round (j := 0) hn h0 (by rwa [zpow_zero, mul_one])
  rwa [zpow_zero, mul_one] at hle

theorem round_nonneg (h : 0 ≤ q) : 0 ≤ round q := by
  exact_mod_cast natCast_le_round (n := 0) (by norm_num) (by exact_mod_cast h)

theorem round_natCast_eq {n e : ℕ} (hlo : 2 ^ (52 + e) ≤ n) (hhi : n < 2 ^ (53 + e)) :
    round n = roundEven (n / (2 ^ e : ℕ)) * (2 ^ e : ℕ) := by
  rw [pow_add] at hlo hhi
  have h := @round_eq n e (by exact_mod_cast hlo) (by exact_mod_cast hhi)
  rw [h]
  push_cast
  rw [zpow_natCast]

/-! ## Next to an integer -/

/-- Below an integer that is between two powers of two the doubles are as far apart as they are above it. -/
theorem round_sub {n k m : ℕ} {d : ℚ} (hm : k + m = 52) (hlo : 2 ^ k < n) (hhi : n < 2 ^ (k + 1)) (h0 : 0 ≤ d)
    (h1 : d ≤ 1) : round (n - d) = roundEven ((n * 2 ^ m : ℕ) - d * 2 ^ m) / 2 ^ m := by
  have hinv : (2 : ℚ) ^ (-m : ℤ) = (2 ^ m)⁻¹ := by rw [zpow_neg, zpow_natCast]
  have hone : (2 : ℚ) ^ k + 1 ≤ n := by exact_mod_cast hlo
  have hlt : (n : ℚ) < 2 ^ (k + 1) := by exact_mod_cast hhi
  have hpow : ∀ j : ℕ, (2 : ℚ) ^ (j + m) * 2 ^ (-m : ℤ) = 2 ^ j := fun j => by
    rw [hinv, pow_add, mul_assoc, mul_inv_cancel₀ (by positivity), mul_one]
  have h := @round_eq (n - d) (-m) ?_ ?_
  · rw [h, hinv, div_inv_eq_mul, sub_mul, div_eq_mul_inv, Nat.cast_mul, Nat.cast_pow, Nat.cast_ofNat]
  · rw [← hm, hpow]
    linarith
  · rw [show 53 = k + 1 + m by omega, hpow]
    linarith

/-! ## The operations -/

theorem nearest_eq {a b : ℕ} (hb : 0 < b) : (nearest a b : ℤ) = roundEven (a / b) := by
  unfold nearest
  split
  · next h => rw [roundEven_div_down h, Nat.add_zero]
  · split
    · next h => rw [roundEven_div_up hb h, Nat.cast_add, Nat.cast_one]
    · next h1 h2 => rw [roundEven_div_tie hb (by omega), Nat.cast_add]

theorem pow_toNat (e : ℤ) : (2 : ℚ) ^ e.toNat / 2 ^ (-e).toNat = 2 ^ e := by
  rcases Int.le_total 0 e with h | h
  · obtain ⟨k, rfl⟩ := Int.eq_ofNat_of_zero_le h
    simp
  · obtain ⟨k, hk⟩ := Int.eq_ofNat_of_zero_le (Int.neg_nonneg_of_nonpos h)
    obtain rfl : e = -k := by omega
    simp

/-- `a / b` before the point. -/
theorem shifted_div (a : ℕ) {b : ℕ} (hb : 0 < b) (e : ℤ) :
    ((a * 2 ^ (-e).toNat : ℕ) : ℚ) / (b * 2 ^ e.toNat : ℕ) = a / b / 2 ^ e := by
  have hb' : (b : ℚ) ≠ 0 := Nat.cast_ne_zero.mpr hb.ne'
  rw [← pow_toNat e]
  push_cast
  field_simp

theorem log2_bounds {a : ℕ} (ha : 0 < a) : (2 : ℚ) ^ (a.log2 : ℤ) ≤ a ∧ (a : ℚ) < 2 ^ (a.log2 + 1 : ℤ) := by
  constructor
  · rw [zpow_natCast]
    exact_mod_cast Nat.log2_self_le ha.ne'
  · rw [← Nat.cast_succ, zpow_natCast]
    exact_mod_cast Nat.lt_log2_self

/-- The lengths of `a` and `b` tell that of `a / b` up to one bit. -/
theorem div_bounds {a b : ℕ} (ha : 0 < a) (hb : 0 < b) :
    2 ^ (a.log2 - b.log2 - 1 : ℤ) ≤ (a : ℚ) / b ∧ (a : ℚ) / b < 2 ^ (a.log2 - b.log2 + 1 : ℤ) := by
  have htwo : (2 : ℚ) ≠ 0 := by norm_num
  have hb' : (0 : ℚ) < b := Nat.cast_pos.mpr hb
  obtain ⟨halo, hahi⟩ := log2_bounds ha
  obtain ⟨hblo, hbhi⟩ := log2_bounds hb
  constructor
  · rw [le_div_iff₀ hb']
    calc (2 : ℚ) ^ (a.log2 - b.log2 - 1 : ℤ) * b ≤ 2 ^ (a.log2 - b.log2 - 1 : ℤ) * 2 ^ (b.log2 + 1 : ℤ) :=
          mul_le_mul_of_nonneg_left hbhi.le (zpow_pos (by norm_num) _).le
      _ = 2 ^ (a.log2 : ℤ) := by rw [← zpow_add₀ htwo]; congr 1; ring
      _ ≤ a := halo
  · rw [div_lt_iff₀ hb']
    calc (a : ℚ) < 2 ^ (a.log2 + 1 : ℤ) := hahi
      _ = 2 ^ (a.log2 - b.log2 + 1 : ℤ) * 2 ^ (b.log2 : ℤ) := by rw [← zpow_add₀ htwo]; congr 1; ring
      _ ≤ 2 ^ (a.log2 - b.log2 + 1 : ℤ) * b := mul_le_mul_of_nonneg_left hblo (zpow_pos (by norm_num) _).le

theorem exponentOf_spec {a b : ℕ} (ha : 0 < a) (hb : 0 < b) :
    2 ^ 52 * 2 ^ exponentOf a b ≤ (a : ℚ) / b ∧ (a : ℚ) / b < 2 ^ 53 * 2 ^ exponentOf a b := by
  obtain ⟨hlo, hhi⟩ := div_bounds ha hb
  obtain ⟨e, he⟩ : ∃ e : ℤ, (a.log2 : ℤ) - b.log2 - 52 = e := ⟨_, rfl⟩
  have hlong : a * 2 ^ (-e).toNat < 2 ^ 52 * (b * 2 ^ e.toNat) ↔ (a : ℚ) / b < 2 ^ 52 * 2 ^ e := by
    have hpos : (0 : ℚ) < (b * 2 ^ e.toNat : ℕ) := Nat.cast_pos.mpr (Nat.mul_pos hb (Nat.two_pow_pos _))
    rw [← div_lt_iff₀ (zpow_pos (by norm_num) e), ← shifted_div a hb, div_lt_iff₀ hpos]
    norm_cast
  simp only [exponentOf, he, hlong, two_pow_mul]
  split
  · next h =>
    refine ⟨le_trans (le_of_eq ?_) hlo, h.trans_eq ?_⟩
    · congr 1; push_cast; omega
    · congr 1; push_cast; omega
  · next h =>
    refine ⟨not_lt.mp h, hhi.trans_eq ?_⟩
    congr 1; push_cast; omega

theorem value_quotient (a : ℕ) {b : ℕ} (hb : 0 < b) : (quotient a b).value = round (a / b) := by
  have hpos : 0 < b * 2 ^ (exponentOf a b).toNat := Nat.mul_pos hb (Nat.two_pow_pos _)
  have hvalue : (quotient a b).value = roundEven ((a : ℚ) / b / 2 ^ exponentOf a b) * 2 ^ exponentOf a b := by
    rw [← shifted_div a hb, ← nearest_eq hpos, Int.cast_natCast]
    rfl
  rw [hvalue]
  rcases Nat.eq_zero_or_pos a with rfl | ha
  · have h0 : roundEven 0 = 0 := roundEven_eq (by norm_num)
    rw [Nat.cast_zero, zero_div, zero_div, h0, round_zero, Int.cast_zero, zero_mul]
  · obtain ⟨hlo, hhi⟩ := exponentOf_spec ha hb
    rw [round_eq hlo hhi]

theorem value_scale (x : Double) (k : ℤ) : (x.scale k).value = x.value * 2 ^ k := by
  rw [value, value, scale, zpow_add₀ (by norm_num), mul_assoc]

theorem round_mul_pow (q : ℚ) (k : ℤ) (h : 0 ≤ q) : round (q * 2 ^ k) = round q * 2 ^ k := by
  rcases h.eq_or_lt with rfl | hq
  · rw [zero_mul, round_zero, zero_mul]
  · obtain ⟨hlo, hhi⟩ := scaled hq
    have hpos : (0 : ℚ) < 2 ^ k := zpow_pos (by norm_num) k
    have hulp : ulp q * 2 ^ k = 2 ^ (Int.log 2 q - 52 + k) := by rw [ulp, zpow_add₀ (by norm_num)]
    have h1 := mul_le_mul_of_nonneg_right hlo hpos.le
    have h2 := mul_lt_mul_of_pos_right hhi hpos
    rw [mul_assoc, hulp] at h1 h2
    rw [round_eq h1 h2, ← hulp, mul_div_mul_right _ _ hpos.ne', round, mul_assoc]

/-- A natural number of 53 bits is a double. -/
theorem value_ofNat {n : ℕ} (hn : n ≤ 2 ^ 53) : (ofNat n).value = n := by
  rw [ofNat, value_quotient n Nat.one_pos, Nat.cast_one, div_one, round_natCast hn]

theorem value_mul (x y : Double) : (x * y).value = round (x.value * y.value) := by
  have hmul : (x * y).value = ((quotient (x.mantissa * y.mantissa) 1).scale (x.exponent + y.exponent)).value := rfl
  rw [hmul, value_scale, value_quotient _ Nat.one_pos, ← round_mul_pow _ _ (by positivity), value, value,
    zpow_add₀ (by norm_num)]
  push_cast
  congr 1
  ring

/-- Dividing by what is not zero. -/
theorem value_div (x : Double) {y : Double} (hy : 0 < y.mantissa) : (x / y).value = round (x.value / y.value) := by
  have hdiv : (x / y).value = ((quotient x.mantissa y.mantissa).scale (x.exponent - y.exponent)).value := rfl
  rw [hdiv, value_scale, value_quotient _ hy, ← round_mul_pow _ _ (by positivity), value, value,
    zpow_sub₀ (by norm_num), div_mul_div_comm]

theorem floor_eq (x : Double) : x.floor = ⌊x.value⌋₊ := by
  have h := Nat.floor_div_eq_div (K := ℚ) (x.mantissa * 2 ^ x.exponent.toNat) (2 ^ (-x.exponent).toNat)
  rw [value, ← pow_toNat, ← mul_div_assoc, floor, ← h]
  push_cast
  rfl

end Double
end SimpleSvr
