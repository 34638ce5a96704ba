import SimpleSvr.L2Machine.TimerHeap

/-!
# Where the wheel keeps an item

An item filed with expiry `t` at base `L` is due at tick `max t L`. `Placed B b
t d` says that bucket `b` is a right place, at base `B`, for an item with
expiry `t` that is due at `d`: in `m_Vector1` the slot of `d`, less than one
turn ahead of `B`; in a coarser vector a slot whose window opens within one turn
of `B` and not after `t`, and (but for the clamped `m_Vector5`) closes after
`t`. The base may have any alignment.

* `placed_bucketOf`: `InternalAddTimerItem` places an item.
* `bucketOf_avoid`: it never files into the slot that `cascade` empties at an
  aligned base, not even back into `m_Vector5`.
* `placed_window`: that slot holds the items of the window opening now.
* `placed_succ`: once it is empty the base may advance.
-/
namespace SimpleSvr.L2.Timer

/-- Ticks in one slot of `m_Vector{n+2}`. -/
def gran (n : Fin 4) : Nat := 2 ^ (8 + 6 * n.val)

theorem gran_pos (n : Fin 4) : 0 < gran n := Nat.two_pow_pos _

def Placed (B : Nat) : Bucket → Nat → Nat → Prop
  | .vector1 i, _, d => B ≤ d ∧ d < B + 256 ∧ i.val = d % 256
  | .vectorN n i, t, d => d = t ∧ ∃ q, i.val = q % 64 ∧ B ≤ q * gran n ∧
      q * gran n < B + 64 * gran n ∧ q * gran n ≤ t ∧ (n.val ≠ 3 → t < q * gran n + gran n)

theorem tvr_toNat (tv : UInt64) : (tvr tv).val = tv.toNat % 256 := tvr_val tv

theorem tvnShift_toNat : ∀ n : Fin 4, (tvnShift n).toNat = 8 + 6 * n.val := by decide

theorem tvn_toNat (n : Fin 4) (tv : UInt64) : (tvn n tv).val = tv.toNat / gran n % 64 := by
  have h : 8 + 6 * n.val < 64 := by omega
  refine (tvn_val _).trans ?_
  rw [UInt64.toNat_shiftRight, tvnShift_toNat, Nat.mod_eq_of_lt h, Nat.shiftRight_eq_div_pow, gran]

/-! ## Filing -/

/-- The slot chosen by `InternalAddTimerItem`: `m_Vector1` for what is due
within 256 ticks, else the vector whose turn covers `v`, the clamped expiry. -/
inductive Filed (L t : Nat) : Bucket → Prop
  | near (i : Fin 256) (hd : max t L < L + 256) (hi : i.val = max t L % 256) : Filed L t (.vector1 i)
  | far (n : Fin 4) (i : Fin 64) (v : Nat) (hi : i.val = v / gran n % 64) (hlo : L + gran n ≤ v)
      (hhi : v < L + 64 * gran n) (hle : v ≤ t) (hv : n.val ≠ 3 → v = t) : Filed L t (.vectorN n i)

/-- In the last vector the expiry is clamped to the end of its turn. -/
theorem filed_last {L t : UInt64} (hL : L.toNat ≤ 2 ^ 63) (hidx : (t - L).toNat = t.toNat - L.toNat)
    (h3 : 2 ^ 26 ≤ t.toNat - L.toNat) :
    Filed L.toNat t.toNat (.vectorN 3 (tvn 3 (if maxTval < t - L then maxTval + L else t))) := by
  have hg : gran 3 = 2 ^ 26 := rfl
  have hclamp : maxTval < t - L ↔ 2 ^ 32 - 1 < t.toNat - L.toNat := by
    rw [UInt64.lt_iff_toNat_lt, hidx]
    rfl
  by_cases hc : maxTval < t - L
  · have hc' := hclamp.mp hc
    have hv : (maxTval + L).toNat = 2 ^ 32 - 1 + L.toNat := by
      rw [UInt64.toNat_add, show maxTval.toNat = 2 ^ 32 - 1 from rfl]
      omega
    rw [if_pos hc]
    exact .far 3 _ _ (tvn_toNat 3 _) (by omega) (by omega) (by omega) fun h => absurd rfl h
  · have hc' := Nat.not_lt.mp fun h => hc (hclamp.mpr h)
    rw [if_neg hc]
    exact .far 3 _ _ (tvn_toNat 3 _) (by omega) (by omega) (Nat.le_refl _) fun h => absurd rfl h

theorem bucketOf_filed (L t : UInt64) (hL : L.toNat ≤ 2 ^ 63) :
    Filed L.toNat t.toNat (bucketOf L t) := by
  have ht := t.toNat_lt
  unfold bucketOf
  by_cases hlt : t < L
  · have hlt' := UInt64.lt_iff_toNat_lt.mp hlt
    rw [if_pos hlt]
    exact .near _ (by omega) (by rw [tvr_toNat, Nat.max_eq_right (Nat.le_of_lt hlt')])
  have hle : L.toNat ≤ t.toNat := Nat.not_lt.mp fun h => hlt (UInt64.lt_iff_toNat_lt.mpr h)
  have hidx : (t - L).toNat = t.toNat - L.toNat :=
    UInt64.toNat_sub_of_le t L (UInt64.le_iff_toNat_le.mpr hle)
  have lt_iff : ∀ k : UInt64, t - L < k ↔ t.toNat - L.toNat < k.toNat := fun k => by
    rw [UInt64.lt_iff_toNat_lt, hidx]
  have far : ∀ n : Fin 4, gran n ≤ t.toNat - L.toNat → t.toNat - L.toNat < 64 * gran n →
      Filed L.toNat t.toNat (.vectorN n (tvn n t)) := fun n h1 h2 =>
    .far n _ t.toNat (tvn_toNat n t) (by omega) (by omega) (Nat.le_refl _) fun _ => rfl
  rw [if_neg hlt]
  by_cases h0 : t - L < 0x100
  · have hnear : t.toNat - L.toNat < 256 := (lt_iff _).mp h0
    rw [if_pos h0]
    exact .near _ (by omega) (by rw [tvr_toNat, Nat.max_eq_left hle])
  have h0' : 256 ≤ t.toNat - L.toNat := Nat.not_lt.mp fun h => h0 ((lt_iff _).mpr h)
  rw [if_neg h0]
  by_cases h1 : t - L < 0x4000
  · rw [if_pos h1]
    exact far 0 h0' ((lt_iff _).mp h1)
  have h1' : 2 ^ 14 ≤ t.toNat - L.toNat := Nat.not_lt.mp fun h => h1 ((lt_iff _).mpr h)
  rw [if_neg h1]
  by_cases h2 : t - L < 0x100000
  · rw [if_pos h2]
    exact far 1 h1' ((lt_iff _).mp h2)
  have h2' : 2 ^ 20 ≤ t.toNat - L.toNat := Nat.not_lt.mp fun h => h2 ((lt_iff _).mpr h)
  rw [if_neg h2]
  by_cases h3 : t - L < 0x4000000
  · rw [if_pos h3]
    exact far 2 h2' ((lt_iff _).mp h3)
  have h3' : 2 ^ 26 ≤ t.toNat - L.toNat := Nat.not_lt.mp fun h => h3 ((lt_iff _).mpr h)
  rw [if_neg h3]
  exact filed_last hL hidx h3'

/-- A window that holds `v`, at least one window after `L`, opens after `L`. -/
theorem window_lt {L v g : Nat} (hg : 0 < g) (h : L + g ≤ v) : L < v / g * g := by
  have h1 := Nat.div_add_mod v g
  have h2 := Nat.mod_lt v hg
  rw [Nat.mul_comm] at h1
  omega

theorem Filed.placed {L t : Nat} {b : Bucket} (h : Filed L t b) : Placed L b t (max t L) := by
  cases h with
  | near i hd hi => exact ⟨Nat.le_max_right _ _, hd, hi⟩
  | far n i v hi hlo hhi hle hv =>
    have h1 := window_lt (gran_pos n) hlo
    have h2 := Nat.div_mul_le_self v (gran n)
    refine ⟨Nat.max_eq_left (by omega), v / gran n, hi, Nat.le_of_lt h1, by omega, by omega, fun hn => ?_⟩
    rw [← hv hn]
    have := Nat.lt_div_mul_add (gran_pos n) (a := v)
    omega

theorem placed_bucketOf (L t : UInt64) (hL : L.toNat ≤ 2 ^ 63) :
    Placed L.toNat (bucketOf L t) t.toNat (max t.toNat L.toNat) := (bucketOf_filed L t hL).placed

/-- Window numbers within one turn of an aligned base are told apart by their
slot. -/
theorem window_unique {L g q : Nat} (hal : L % g = 0) (hs : q % 64 = L / g % 64)
    (hlo : L ≤ q * g) (hhi : q * g < L + 64 * g) : q * g = L := by
  have hL : L / g * g = L := Nat.div_mul_cancel (Nat.dvd_of_mod_eq_zero hal)
  rcases Nat.eq_zero_or_pos g with rfl | hg
  · omega
  have h1 : L / g ≤ q := Nat.le_of_mul_le_mul_right (hL.symm ▸ hlo) hg
  have h2 : q < L / g + 64 := by
    refine Nat.lt_of_mul_lt_mul_right (a := g) ?_
    rw [Nat.add_mul, hL]; exact hhi
  have : q = L / g := by omega
  rw [this, hL]

theorem bucketOf_avoid (L t : UInt64) (hL : L.toNat ≤ 2 ^ 63) (n : Fin 4)
    (hal : L.toNat % gran n = 0) : bucketOf L t ≠ .vectorN n (tvn n L) := by
  intro e
  have h := bucketOf_filed L t hL
  rw [e] at h
  cases h with
  | far _ _ v hi hlo hhi =>
    have h1 := window_lt (gran_pos n) hlo
    have h2 := Nat.div_mul_le_self v (gran n)
    rw [tvn_toNat] at hi
    have := window_unique hal hi.symm (Nat.le_of_lt h1) (by omega)
    omega

/-! ## Advancing the base -/

/-- The slot that an aligned base cascades holds what is due from now on. -/
theorem placed_window {L t d : Nat} {n : Fin 4} {i : Fin 64} (h : Placed L (.vectorN n i) t d)
    (hal : L % gran n = 0) (hi : i.val = L / gran n % 64) : L ≤ t ∧ d = t := by
  obtain ⟨hd, q, hq, hlo, hhi, hle, -⟩ := h
  have := window_unique hal (hq.symm.trans hi) hlo hhi
  exact ⟨by omega, hd⟩

/-- The slot of the current tick holds what is due now. -/
theorem placed_due {L t d : Nat} {i : Fin 256} (h : Placed L (.vector1 i) t d) (hi : i.val = L % 256) :
    d = L := by
  obtain ⟨hlo, hhi, hd⟩ := h
  omega

theorem placed_succ {L t d : Nat} {b : Bucket} (h : Placed L b t d) (h1 : ∀ i, b = .vector1 i → i.val ≠ L % 256)
    (hn : ∀ n i, b = .vectorN n i → L % gran n = 0 → i.val ≠ L / gran n % 64) : Placed (L + 1) b t d := by
  cases b with
  | vector1 i =>
    obtain ⟨hlo, hhi, hd⟩ := h
    have hne : d ≠ L := fun e => h1 i rfl (by rw [hd, e])
    exact ⟨by omega, by omega, hd⟩
  | vectorN n i =>
    obtain ⟨hd, q, hq, hlo, hhi, hle, hc⟩ := h
    have hne : q * gran n ≠ L := fun e => by
      refine hn n i rfl (by rw [← e]; exact Nat.mul_mod_left q (gran n)) ?_
      rw [hq, ← e, Nat.mul_div_cancel _ (gran_pos n)]
    exact ⟨hd, q, hq, by omega, by omega, hle, hc⟩

theorem Placed.le {B t d : Nat} {b : Bucket} (h : Placed B b t d) : B ≤ d := by
  cases b with
  | vector1 i => exact h.1
  | vectorN n i => obtain ⟨rfl, q, -, hlo, -, hle, -⟩ := h; omega

end SimpleSvr.L2.Timer
