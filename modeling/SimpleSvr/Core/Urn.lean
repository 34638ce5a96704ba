import Mathlib.Data.Multiset.Count

/-!
# Dealing tickets

An urn holds the tickets `Q`. They are dealt one at a time, in any order, and
all put back when none is left. `Dealt Q l part`: `l` was dealt so far, `part`
of it since the tickets were last put back.

`Dealt.share`: of any number of tickets dealt, each `k` has its share, to less
than one filling of the urn.
-/
namespace SimpleSvr

variable {K : Type}

inductive Dealt (Q : Multiset K) : List K → List K → Prop
  | start : Dealt Q [] []
  | deal {l part : List K} {k : K} (h : Dealt Q l part) (hk : ((part ++ [k] : List K) : Multiset K) ≤ Q) :
      Dealt Q (l ++ [k]) (part ++ [k])
  | again {l part : List K} (h : Dealt Q l part) (hall : (part : Multiset K) = Q) : Dealt Q l []

namespace Dealt

variable {Q : Multiset K} {l part : List K}

theorem part_le (h : Dealt Q l part) : (part : Multiset K) ≤ Q := by
  cases h with
  | start => exact Multiset.zero_le Q
  | deal _ hk => exact hk
  | again _ _ => exact Multiset.zero_le Q

theorem length_le (h : Dealt Q l part) : part.length ≤ Q.card := Multiset.card_le_card h.part_le

/-- A filling of which all are dealt. -/
theorem eq_of_length (h : Dealt Q l part) (hlen : part.length = Q.card) : (part : Multiset K) = Q :=
  Multiset.eq_of_le_of_card_le h.part_le (Nat.le_of_eq hlen.symm)

variable [DecidableEq K]

/-- Full fillings, and `part`. -/
theorem rounds (h : Dealt Q l part) :
    ∃ n, l.length = n * Q.card + part.length ∧ ∀ k, l.count k = n * Q.count k + part.count k := by
  induction h with
  | start => exact ⟨0, by simp, by simp⟩
  | deal h hk ih =>
    obtain ⟨n, hlen, hcount⟩ := ih
    refine ⟨n, ?_, fun k => ?_⟩
    · rw [List.length_append, List.length_append, hlen, Nat.add_assoc]
    · rw [List.count_append, List.count_append, hcount, Nat.add_assoc]
  | @again l part h hall ih =>
    obtain ⟨n, hlen, hcount⟩ := ih
    have hcard : part.length = Q.card := congrArg Multiset.card hall
    refine ⟨n + 1, ?_, fun k => ?_⟩
    · rw [hlen, hcard, Nat.succ_mul, List.length_nil, Nat.add_zero]
    · have hk : part.count k = Q.count k := by rw [← hall, Multiset.coe_count]
      rw [hcount, hk, Nat.succ_mul, List.count_nil, Nat.add_zero]

theorem rounds_div {n r d : Nat} (hr : r < d) : (n * d + r) / d = n := by
  rw [Nat.mul_comm, Nat.mul_add_div (by omega), Nat.div_eq_of_lt hr, Nat.add_zero]

/-- After any number of tickets, `k` came between once for each of its tickets in every full filling, and
once more for each in the filling that was begun. -/
theorem share (h : Dealt Q l part) (k : K) :
    l.length / Q.card * Q.count k ≤ l.count k ∧
      l.count k ≤ (l.length + Q.card - 1) / Q.card * Q.count k := by
  obtain ⟨n, hlen, hcount⟩ := h.rounds
  have hle := h.length_le
  have hpart : part.count k ≤ Q.count k := by
    rw [← Multiset.coe_count]
    exact Multiset.count_le_of_le k h.part_le
  rw [hcount, hlen]
  rcases Nat.eq_zero_or_pos part.length with h0 | hpos
  · -- between two fillings
    have hnil : part.count k = 0 := by rw [List.eq_nil_of_length_eq_zero h0, List.count_nil]
    rw [h0, hnil, Nat.add_zero, Nat.add_zero]
    rcases Nat.eq_zero_or_pos Q.card with hQ | hQ
    · rw [Multiset.card_eq_zero.mp hQ, Multiset.count_zero, Nat.mul_zero, Nat.mul_zero]
      exact ⟨Nat.le_refl _, Nat.zero_le _⟩
    · rw [Nat.mul_div_cancel _ hQ, Nat.add_sub_assoc hQ, rounds_div (by omega)]
      exact ⟨Nat.le_refl _, Nat.le_refl _⟩
  · have hup : n * Q.card + part.length + Q.card - 1 = (n + 1) * Q.card + (part.length - 1) := by
      rw [Nat.succ_mul]
      omega
    rw [hup, rounds_div (n := n + 1) (r := part.length - 1) (d := Q.card) (by omega), Nat.succ_mul]
    refine ⟨?_, Nat.add_le_add_left hpart _⟩
    rcases Nat.lt_or_ge part.length Q.card with hlt | hge
    · rw [rounds_div hlt]
      exact Nat.le_add_right _ _
    · have hlast := Nat.le_antisymm hle hge
      have hk : part.count k = Q.count k := by rw [← h.eq_of_length hlast, Multiset.coe_count]
      rw [hlast, ← Nat.succ_mul, Nat.mul_div_cancel _ (by omega), hk, Nat.succ_mul]

end Dealt
end SimpleSvr
