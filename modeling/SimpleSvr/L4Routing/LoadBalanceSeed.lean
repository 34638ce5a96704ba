import SimpleSvr.L4Routing.LoadBalance
import Mathlib.Tactic.IntervalCases
import Mathlib.Tactic.GCongr

/-!
# The seed

`Route` computes `floor((double)n * rand() / RAND_MAX)` for `n` one more than
the total. Both operations round, by less than the quotients next to 1 and to
`n` are away from these: the result is 0 exactly where `n * rand()` is less than
`RAND_MAX` (`draw_eq_zero_iff`), and for a `rand()` below its upper end it is
less than `n` (`draw_lt`). At the upper end the product is `n * RAND_MAX`, of up
to 63 bits; where it lies half way between two doubles and the even one is below
it, the quotient is below `n` (`draw_max_lt_iff`). For an `n` of 22 bits the
rounding does nothing (`draw_eq`).
-/
namespace SimpleSvr.L4.LoadBalance

/-- `n * RAND_MAX` is half way between two doubles, and the lower one is the even one. -/
def RoundsBelow (n : Nat) : Prop := 22 ≤ n.log2 ∧ n % 2 ^ (n.log2 - 20) = 3 * 2 ^ (n.log2 - 22)

instance (n : Nat) : Decidable (RoundsBelow n) := inferInstanceAs (Decidable (_ ∧ _))

variable {n rand : Nat}

/-- What `draw` is the integer part of. -/
def drawn (n rand : Nat) : ℚ := Double.round (Double.round (n * rand) / RAND_MAX)

/-- A `uint32_t` and an `int` are doubles as they are; the product is rounded, and the quotient. -/
theorem draw_spec (hn : n < 2 ^ 32) (hrand : rand ≤ RAND_MAX) : draw n rand = ⌊drawn n rand⌋₊ := by
  have hM : RAND_MAX ≤ 2 ^ 53 := by decide
  have hpos : 0 < (Double.ofNat RAND_MAX).mantissa := by decide
  rw [draw, Double.floor_eq, Double.value_div _ hpos, Double.value_mul, Double.value_ofNat (by omega),
    Double.value_ofNat (hrand.trans hM), Double.value_ofNat hM, drawn]

theorem drawn_nonneg (n rand : Nat) : 0 ≤ drawn n rand := by
  have h : (0 : ℚ) ≤ n * rand := by positivity
  exact Double.round_nonneg (div_nonneg (Double.round_nonneg h) (Nat.cast_nonneg _))

theorem drawn_le (n rand : Nat) : drawn n rand ≤ n * rand / RAND_MAX * (1 + 1 / 2 ^ 53) ^ 2 := by
  have h : (0 : ℚ) ≤ n * rand := by positivity
  have hM : (0 : ℚ) ≤ RAND_MAX := Nat.cast_nonneg _
  have h1 := Double.round_le_mul h
  have h2 := Double.round_le_mul (div_nonneg (Double.round_nonneg h) hM)
  calc drawn n rand ≤ Double.round (n * rand) / RAND_MAX * (1 + 1 / 2 ^ 53) := h2
    _ ≤ n * rand * (1 + 1 / 2 ^ 53) / RAND_MAX * (1 + 1 / 2 ^ 53) := by gcongr
    _ = n * rand / RAND_MAX * (1 + 1 / 2 ^ 53) ^ 2 := by ring

/-! ## Both ends -/

theorem draw_lt_iff (hn : n < 2 ^ 32) (hrand : rand ≤ RAND_MAX) {k : Nat} : draw n rand < k ↔ drawn n rand < k := by
  rw [draw_spec hn hrand, Nat.floor_lt (drawn_nonneg n rand)]

theorem natCast_le_drawn {k : Nat} (hk : k ≤ 2 ^ 53) (h : k * RAND_MAX ≤ Double.round (n * rand)) :
    (k : ℚ) ≤ drawn n rand :=
  Double.natCast_le_round hk ((le_div_iff₀ (by norm_num [RAND_MAX])).mpr h)

/-- `rand()` makes no more than its share. -/
theorem mul_div_le {k : Nat} (h : rand ≤ k) : (n : ℚ) * rand / RAND_MAX ≤ n * k / RAND_MAX := by
  have hrand : (rand : ℚ) ≤ k := by exact_mod_cast h
  gcongr

theorem draw_le (hn : n < 2 ^ 32) (hrand : rand ≤ RAND_MAX) : draw n rand ≤ n := by
  have hle := (drawn_le n rand).trans (mul_le_mul_of_nonneg_right (mul_div_le hrand) (by positivity))
  have hn' : (n : ℚ) < 2 ^ 32 := by exact_mod_cast hn
  rw [mul_div_cancel_right₀ _ (show (RAND_MAX : ℚ) ≠ 0 by norm_num [RAND_MAX])] at hle
  apply Nat.lt_succ_iff.mp
  rw [draw_lt_iff hn hrand]
  push_cast
  linarith

/-- The rounding is less than `1 / RAND_MAX` of the product. -/
theorem draw_lt (hn : n < 2 ^ 32) (hpos : 0 < n) (hrand : rand < RAND_MAX) : draw n rand < n := by
  have hle := (drawn_le n rand).trans
    (mul_le_mul_of_nonneg_right (mul_div_le (Nat.le_sub_one_of_lt hrand)) (by positivity))
  have hn' : (0 : ℚ) < n := Nat.cast_pos.mpr hpos
  rw [draw_lt_iff hn hrand.le]
  refine hle.trans_lt ?_
  rw [mul_div_assoc, mul_assoc]
  exact mul_lt_of_lt_one_right hn' (by norm_num [RAND_MAX])

theorem draw_eq_zero_iff (hn : n < 2 ^ 32) (hrand : rand ≤ RAND_MAX) : draw n rand = 0 ↔ n * rand < RAND_MAX := by
  rw [draw_spec hn hrand, Nat.floor_eq_zero]
  constructor
  · intro h
    by_contra hge
    have hM : (RAND_MAX : ℚ) ≤ n * rand := by exact_mod_cast not_lt.mp hge
    have hround := Double.natCast_le_round (show RAND_MAX ≤ 2 ^ 53 by decide) hM
    have hone := @natCast_le_drawn n rand 1 (by decide) (by rwa [Nat.cast_one, one_mul])
    rw [Nat.cast_one] at hone
    linarith
  · intro h
    have hle : (n : ℚ) * rand ≤ (RAND_MAX - 1 : Nat) := by exact_mod_cast Nat.le_sub_one_of_lt h
    calc drawn n rand ≤ n * rand / RAND_MAX * (1 + 1 / 2 ^ 53) ^ 2 := drawn_le n rand
      _ ≤ (RAND_MAX - 1 : Nat) / RAND_MAX * (1 + 1 / 2 ^ 53) ^ 2 := by gcongr
      _ < 1 := by norm_num [RAND_MAX]

/-- A product of 53 bits is a double, and its quotient is not so near below an integer as to be rounded to it. -/
theorem draw_eq (hn : n < 2 ^ 22) (hrand : rand ≤ RAND_MAX) : draw n rand = n * rand / RAND_MAX := by
  have hM : 0 < RAND_MAX := by decide
  have hprod : n * rand ≤ 2 ^ 22 * RAND_MAX := Nat.mul_le_mul hn.le hrand
  have hexact : Double.round (n * rand) = (n * rand : Nat) := by
    rw [← Nat.cast_mul]
    exact Double.round_natCast (hprod.trans (by decide))
  have hk : n * rand / RAND_MAX ≤ n := Nat.div_le_of_le_mul ((Nat.mul_le_mul_left n hrand).trans_eq (Nat.mul_comm _ _))
  obtain ⟨k, hkeq⟩ : ∃ k, n * rand / RAND_MAX = k := ⟨_, rfl⟩
  rw [draw_spec (by omega) hrand]
  rw [hkeq] at hk ⊢
  have hlo : k * RAND_MAX ≤ n * rand := hkeq ▸ Nat.div_mul_le_self _ _
  have hhi : n * rand + 1 ≤ (k + 1) * RAND_MAX := hkeq ▸ (Nat.lt_mul_div_succ _ hM).trans_eq (Nat.mul_comm _ _)
  refine (Nat.floor_eq_iff (drawn_nonneg n rand)).mpr ⟨natCast_le_drawn (by omega) ?_, ?_⟩
  · rw [hexact]
    exact_mod_cast hlo
  · have hle : drawn n rand ≤ (n * rand : Nat) / RAND_MAX * (1 + 1 / 2 ^ 53) := by
      unfold drawn
      rw [hexact]
      exact Double.round_le_mul (by positivity)
    have hhi' : ((n * rand : Nat) : ℚ) + 1 ≤ (k + 1) * RAND_MAX := by exact_mod_cast hhi
    have hk' : (k : ℚ) + 1 ≤ 2 ^ 22 := by exact_mod_cast (show k + 1 ≤ 2 ^ 22 by omega)
    have hquot : ((n * rand : Nat) : ℚ) / RAND_MAX ≤ k + 1 - 1 / RAND_MAX := by
      rw [div_le_iff₀ (by norm_num [RAND_MAX]), sub_mul, div_mul_cancel₀ _ (by norm_num [RAND_MAX])]
      linarith
    calc drawn n rand ≤ (n * rand : Nat) / RAND_MAX * (1 + 1 / 2 ^ 53) := hle
      _ ≤ (k + 1 - 1 / RAND_MAX) * (1 + 1 / 2 ^ 53) := by gcongr
      _ < k + 1 := by
        norm_num [RAND_MAX]
        linarith

/-! ## The upper end -/

/-- Two remainders that add up to a multiple of what they are remainders of. -/
theorem mod_eq_iff {a n b : Nat} (hb : 0 < b) (h : 4 * b ∣ a + n) : a % (4 * b) = b ↔ n % (4 * b) = 3 * b := by
  have ha := Nat.mod_lt a (show 0 < 4 * b by omega)
  have hn := Nat.mod_lt n (show 0 < 4 * b by omega)
  have hsum : 4 * b ∣ a % (4 * b) + n % (4 * b) := by
    rwa [Nat.dvd_iff_mod_eq_zero, ← Nat.add_mod, ← Nat.dvd_iff_mod_eq_zero]
  obtain ⟨t, ht⟩ := hsum
  rcases t with - | - | t
  · rw [Nat.mul_zero] at ht
    omega
  · rw [Nat.zero_add, Nat.mul_one] at ht
    omega
  · have hle : 4 * b * 2 ≤ 4 * b * (t + 2) := Nat.mul_le_mul_left _ (by omega)
    have ht' : a % (4 * b) + n % (4 * b) = 4 * b * (t + 2) := ht
    omega

/-- Half way, and down: a condition on the product, which has `f + 1` bits more than a double. -/
theorem half_iff {f : Nat} (hf : f ≤ 9) (n : Nat) :
    (2 * (n * RAND_MAX % 2 ^ (f + 1)) = 2 ^ (f + 1) ∧ n * RAND_MAX / 2 ^ (f + 1) % 2 = 0) ↔
      n % 2 ^ (f + 2) = 3 * 2 ^ f := by
  have hb : 0 < 2 ^ f := Nat.two_pow_pos f
  have h2 : 2 ^ (f + 1) = 2 * 2 ^ f := by rw [Nat.pow_succ, Nat.mul_comm]
  have h4 : 2 ^ (f + 2) = 4 * 2 ^ f := by rw [Nat.pow_add, Nat.mul_comm]
  have hdvd : 4 * 2 ^ f ∣ n * RAND_MAX + n := by
    rw [← Nat.mul_succ, ← h4]
    exact (Nat.pow_dvd_pow 2 (show f + 2 ≤ 31 by omega)).mul_left n
  have hmod := @Nat.mod_mul (2 * 2 ^ f) 2 (n * RAND_MAX)
  rw [show 2 * 2 ^ f * 2 = 4 * 2 ^ f by omega] at hmod
  rw [h4, h2, ← mod_eq_iff hb hdvd, hmod]
  have hlt := Nat.mod_lt (n * RAND_MAX) (show 0 < 2 * 2 ^ f by omega)
  rcases Nat.mod_two_eq_zero_or_one (n * RAND_MAX / (2 * 2 ^ f)) with h | h
  · rw [h]
    omega
  · rw [h]
    omega

theorem not_draw_lt (hn : n < 2 ^ 32) (h : (n : ℚ) * RAND_MAX ≤ Double.round (n * RAND_MAX)) :
    ¬draw n RAND_MAX < n := by
  rw [draw_lt_iff hn le_rfl]
  exact not_lt.mpr (natCast_le_drawn (by omega) h)

/-- A product that is rounded down by `d`. -/
theorem drawn_sub {f d : Nat} (hf : f ≤ 9) (hlo : 2 ^ (f + 22) < n) (hhi : n < 2 ^ (f + 22 + 1)) (hd : d ≤ 2 ^ f)
    (h : Double.round (n * RAND_MAX) = n * RAND_MAX - d) :
    drawn n RAND_MAX = Double.roundEven ((n * 2 ^ (30 - f) : Nat) - d * 2 ^ (30 - f) / RAND_MAX) / 2 ^ (30 - f) := by
  have hM : (RAND_MAX : ℚ) ≠ 0 := by norm_num [RAND_MAX]
  have hd9 : d ≤ 2 ^ 9 := hd.trans (Nat.pow_le_pow_right (by decide) hf)
  have hd' : (d : ℚ) / RAND_MAX ≤ 1 := by
    rw [div_le_one (by norm_num [RAND_MAX])]
    exact_mod_cast hd9.trans (by decide)
  unfold drawn
  have hsub := @Double.round_sub n (f + 22) (30 - f) _ (by omega) hlo hhi
    (div_nonneg (Nat.cast_nonneg d) (Nat.cast_nonneg _)) hd'
  rw [h, sub_div, mul_div_cancel_right₀ _ hM, hsub, div_mul_eq_mul_div]

/-- Where it was rounded down by less than half, the quotient is rounded up again. -/
theorem drawn_of_down {f d : Nat} (hf : f ≤ 9) (hlo : 2 ^ (f + 22) < n) (hhi : n < 2 ^ (f + 22 + 1)) (hd : d < 2 ^ f)
    (h : Double.round (n * RAND_MAX) = n * RAND_MAX - d) : drawn n RAND_MAX = n := by
  have hs : 2 ^ f * 2 ^ (30 - f) = 2 ^ 30 := by rw [← pow_add]; congr 1; omega
  have hs0 : 0 < 2 ^ (30 - f) := Nat.two_pow_pos _
  have hsmall : 2 * (d * 2 ^ (30 - f)) < RAND_MAX := by
    have hle : (d + 1) * 2 ^ (30 - f) ≤ 2 ^ f * 2 ^ (30 - f) := Nat.mul_le_mul_right _ hd
    have h21 : 2 ^ 21 ≤ 2 ^ (30 - f) := Nat.pow_le_pow_right (by decide) (by omega)
    rw [hs, Nat.succ_mul] at hle
    unfold RAND_MAX
    omega
  have hhalf : (d : ℚ) * 2 ^ (30 - f) / RAND_MAX < 1 / 2 := by
    rw [div_lt_iff₀ (by norm_num [RAND_MAX])]
    have : (2 : ℚ) * (d * 2 ^ (30 - f)) < RAND_MAX := by exact_mod_cast hsmall
    linarith
  have hnonneg : (0 : ℚ) ≤ d * 2 ^ (30 - f) / RAND_MAX :=
    div_nonneg (mul_nonneg (Nat.cast_nonneg d) (by positivity)) (Nat.cast_nonneg _)
  have hround : Double.roundEven ((n * 2 ^ (30 - f) : Nat) - d * 2 ^ (30 - f) / RAND_MAX) =
      (n * 2 ^ (30 - f) : Nat) := by
    apply Double.roundEven_eq
    rw [Int.cast_natCast, sub_sub_cancel_left, abs_neg, abs_of_nonneg hnonneg]
    exact hhalf
  rw [drawn_sub hf hlo hhi hd.le h, hround]
  push_cast
  exact mul_div_cancel_right₀ _ (by positivity)

/-- Where it was rounded down by half, the quotient stays below. -/
theorem drawn_of_half {f : Nat} (hf : f ≤ 9) (hlo : 2 ^ (f + 22) < n) (hhi : n < 2 ^ (f + 22 + 1))
    (h : Double.round (n * RAND_MAX) = n * RAND_MAX - (2 ^ f : Nat)) : drawn n RAND_MAX < n := by
  have hs : ((2 ^ f : Nat) : ℚ) * 2 ^ (30 - f) = 2 ^ 30 := by
    push_cast
    rw [← pow_add]; congr 1; omega
  have hround : Double.roundEven ((n * 2 ^ (30 - f) : Nat) - 2 ^ 30 / RAND_MAX) = (n * 2 ^ (30 - f) : Nat) - 1 := by
    apply Double.roundEven_eq
    rw [Int.cast_sub, Int.cast_natCast, Int.cast_one, abs_lt]
    constructor <;> norm_num [RAND_MAX]
  rw [drawn_sub hf hlo hhi le_rfl h, hs, hround, div_lt_iff₀ (by positivity)]
  push_cast
  linarith

/-- A product with `f + 1` bits more than a double has. -/
theorem draw_lt_iff_half {f : Nat} (hf : f ≤ 9) (hlo : 2 ^ (f + 22) < n) (hhi : n < 2 ^ (f + 22 + 1))
    (hprod : 2 ^ (52 + (f + 1)) ≤ n * RAND_MAX) : draw n RAND_MAX < n ↔ n % 2 ^ (f + 2) = 3 * 2 ^ f := by
  have hn : n < 2 ^ 32 := hhi.trans_le (Nat.pow_le_pow_right (by decide) (by omega))
  have hlt : n * RAND_MAX < 2 ^ (53 + (f + 1)) := by
    have hmul : n * RAND_MAX < 2 ^ (f + 22 + 1) * 2 ^ 31 := Nat.mul_lt_mul_of_lt_of_le hhi (by decide) (by decide)
    rwa [← pow_add, show f + 22 + 1 + 31 = 53 + (f + 1) by omega] at hmul
  have hpow : 2 ^ (f + 1) = 2 * 2 ^ f := by rw [pow_succ, Nat.mul_comm]
  have hround := Double.round_natCast_eq hprod hlt
  rw [Nat.cast_mul] at hround
  have hsplit : (n : ℚ) * RAND_MAX = (n * RAND_MAX / 2 ^ (f + 1) : Nat) * (2 ^ (f + 1) : Nat) +
      (n * RAND_MAX % 2 ^ (f + 1) : Nat) := by
    exact_mod_cast (Nat.div_add_mod' (n * RAND_MAX) (2 ^ (f + 1))).symm
  have hmod := Nat.mod_lt (n * RAND_MAX) (Nat.two_pow_pos (f + 1))
  have hmod' : ((n * RAND_MAX % 2 ^ (f + 1) : Nat) : ℚ) ≤ (2 ^ (f + 1) : Nat) := by exact_mod_cast hmod.le
  rw [← half_iff hf]
  rcases Nat.lt_trichotomy (2 * (n * RAND_MAX % 2 ^ (f + 1))) (2 ^ (f + 1)) with hd | hd | hd
  · -- down by less than half
    rw [← Nat.cast_mul, Double.roundEven_div_down hd, Int.cast_natCast, Nat.cast_mul] at hround
    have hdrawn := drawn_of_down hf hlo hhi (by omega) (hround.trans (eq_sub_of_add_eq hsplit.symm))
    refine iff_of_false ?_ fun h => absurd h.1 hd.ne
    rw [draw_lt_iff hn le_rfl, hdrawn]
    exact lt_irrefl _
  · rw [← Nat.cast_mul, Double.roundEven_div_tie (Nat.two_pow_pos _) hd, Nat.cast_mul] at hround
    rcases Nat.mod_two_eq_zero_or_one (n * RAND_MAX / 2 ^ (f + 1)) with heven | hodd
    · rw [heven, Nat.cast_zero, add_zero, Int.cast_natCast] at hround
      have hhalf : n * RAND_MAX % 2 ^ (f + 1) = 2 ^ f := by omega
      rw [hhalf] at hsplit
      have hdrawn := drawn_of_half hf hlo hhi (hround.trans (eq_sub_of_add_eq hsplit.symm))
      exact iff_of_true ((draw_lt_iff hn le_rfl).mpr hdrawn) ⟨hd, heven⟩
    · refine iff_of_false (not_draw_lt hn ?_) fun h => by omega
      rw [hodd, Nat.cast_one, Int.cast_add, Int.cast_natCast, Int.cast_one] at hround
      rw [hround, hsplit]
      linarith
  · -- up
    rw [← Nat.cast_mul, Double.roundEven_div_up (Nat.two_pow_pos _) hd, Nat.cast_mul, Int.cast_add, Int.cast_natCast,
      Int.cast_one] at hround
    refine iff_of_false (not_draw_lt hn ?_) fun h => absurd h.1 hd.ne'
    rw [hround, hsplit]
    linarith

/-- The `n` whose product has no more bits than `RAND_MAX` and the bits of `n` behind its first. -/
theorem short_product {f : Nat} (hf : f ≤ 9) (hlo : 2 ^ (f + 22) ≤ n) (hhi : n < 2 ^ 32)
    (hprod : n * RAND_MAX < 2 ^ (52 + (f + 1))) : n = 2 ^ (f + 22) ∨ f = 9 ∧ n = 2 ^ 31 + 1 := by
  have hpow : 2 ^ (52 + (f + 1)) = 2 ^ (f + 22) * 2 ^ 31 := by rw [← pow_add]; congr 1; omega
  rw [hpow] at hprod
  unfold RAND_MAX at hprod
  by_cases h9 : f = 9
  · subst h9
    omega
  · have hle : 2 ^ (f + 22) ≤ 2 ^ 30 := Nat.pow_le_pow_right (by decide) (by omega)
    omega

theorem not_draw_lt_of_short {f : Nat} (hf : f ≤ 9) (hlo : 2 ^ (f + 22) ≤ n) (hhi : n < 2 ^ 32)
    (hprod : n * RAND_MAX < 2 ^ (52 + (f + 1))) : ¬draw n RAND_MAX < n ∧ ¬n % 2 ^ (f + 2) = 3 * 2 ^ f := by
  rcases short_product hf hlo hhi hprod with hpow | h9
  · -- a power of two shifts
    constructor
    · apply not_draw_lt hhi
      have hexact := @Double.round_exact RAND_MAX (f + 22 : ℕ) (by decide)
      rw [zpow_natCast, mul_comm] at hexact
      rw [hpow, Nat.cast_pow, Nat.cast_ofNat]
      exact hexact.ge
    · rw [hpow, Nat.mod_eq_zero_of_dvd (Nat.pow_dvd_pow 2 (by omega))]
      have := Nat.two_pow_pos f
      omega
  · obtain ⟨hf9, hn⟩ := h9
    rw [hf9, hn]
    constructor
    · apply not_draw_lt (by decide)
      have hround := @Double.round_natCast_eq ((2 ^ 31 + 1) * RAND_MAX) 9 (by decide) (by decide)
      rw [Double.roundEven_div_up (by decide) (by decide)] at hround
      rw [← Nat.cast_mul, hround]
      norm_num [RAND_MAX]
    · decide

/-- For the largest `rand()` the seed stays below `n` exactly where the product is rounded down from half way. -/
theorem draw_max_lt_iff (hn : n < 2 ^ 32) : draw n RAND_MAX < n ↔ RoundsBelow n := by
  by_cases hbits : n < 2 ^ 22
  · have hexact := draw_eq hbits (Nat.le_refl RAND_MAX)
    rw [Nat.mul_div_cancel _ (show 0 < RAND_MAX by decide)] at hexact
    refine iff_of_false (by omega) fun h => ?_
    rcases Nat.eq_zero_or_pos n with rfl | hpos
    · exact absurd h.1 (by decide)
    · exact absurd h.1 (Nat.not_le.mpr ((Nat.log2_lt hpos.ne').mpr hbits))
  · have hne : n ≠ 0 := by omega
    obtain ⟨f, hf⟩ : ∃ f, n.log2 = f + 22 := ⟨n.log2 - 22, (Nat.sub_add_cancel ((Nat.le_log2 hne).mpr (by omega))).symm⟩
    have hf9 : f ≤ 9 := by
      have := (Nat.log2_lt hne).mpr hn
      omega
    obtain ⟨hlo, hhi⟩ := (Nat.log2_eq_iff hne).mp hf
    have hbelow : RoundsBelow n ↔ n % 2 ^ (f + 2) = 3 * 2 ^ f := by
      unfold RoundsBelow
      rw [hf, show f + 22 - 20 = f + 2 by omega, Nat.add_sub_cancel]
      exact and_iff_right (by omega)
    rw [hbelow]
    by_cases hprod : 2 ^ (52 + (f + 1)) ≤ n * RAND_MAX
    · have hlo' : 2 ^ (f + 22) < n := by
        refine hlo.lt_of_ne fun he => ?_
        rw [show 52 + (f + 1) = f + 22 + 31 by omega, pow_add, ← he] at hprod
        exact absurd hprod (Nat.not_le.mpr (Nat.mul_lt_mul_of_pos_left (by decide) (Nat.two_pow_pos _)))
      exact draw_lt_iff_half hf9 hlo' hhi hprod
    · obtain ⟨h1, h2⟩ := not_draw_lt_of_short hf9 hlo hn (Nat.not_le.mp hprod)
      exact iff_of_false h1 h2

end SimpleSvr.L4.LoadBalance
