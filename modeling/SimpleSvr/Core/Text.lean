import Mathlib.Data.List.TakeDrop
import Mathlib.Data.List.TakeWhile

/-!
# Trimming and scanning

`trimBy p s` is `s` without what `p` holds of at either end. `trimBy_around`
evaluates it on a text written with such ends, `exists_ends` finds them again.

`span_append` evaluates a scan on a text written as what is scanned and what
follows; `span_eq` is its converse.
-/
namespace SimpleSvr

variable {α : Type} {p : α → Bool} {a b s : List α}

/-- The text is empty or starts with a character that `p` does not hold of. -/
def Stops (p : α → Bool) (s : List α) : Prop := ∀ c ∈ s.head?, p c = false

def trimBy (p : α → Bool) (s : List α) : List α := ((s.dropWhile p).reverse.dropWhile p).reverse

/-- Nothing to trim at either end. -/
def Trimmed (p : α → Bool) (s : List α) : Prop := Stops p s ∧ Stops p s.reverse

theorem stops_nil : Stops p [] := nofun

theorem stops_cons {c : α} (h : p c = false) : Stops p (c :: s) := by
  intro d hd
  cases hd
  exact h

theorem stops_dropWhile (p : α → Bool) (s : List α) : Stops p (s.dropWhile p) := by
  intro c hc
  have h := List.head?_dropWhile_not p s
  rw [Option.mem_def.mp hc] at h
  exact h

theorem dropWhile_of_stops (h : Stops p s) : s.dropWhile p = s := by
  cases s with
  | nil => rfl
  | cons c s => exact List.dropWhile_cons_of_neg (Bool.eq_false_iff.mp (h c rfl))

theorem takeWhile_of_stops (h : Stops p s) : s.takeWhile p = [] := by
  cases s with
  | nil => rfl
  | cons c s => exact List.takeWhile_cons_of_neg (Bool.eq_false_iff.mp (h c rfl))

theorem Stops.append (h : Stops p s) (hs : s ≠ []) (b : List α) : Stops p (s ++ b) := by
  cases s with
  | nil => exact absurd rfl hs
  | cons c s => exact h

theorem stops_of_all {q : α → Bool} (h : ∀ c ∈ s, q c = true) (hpq : ∀ c, q c = true → p c = false) : Stops p s :=
  fun c hc => hpq c (h c (List.mem_of_mem_head? hc))

/-! ## Trimming -/

theorem trimBy_around (ha : ∀ c ∈ a, p c = true) (hs : Trimmed p s) (hb : ∀ c ∈ b, p c = true) :
    trimBy p (a ++ (s ++ b)) = s := by
  rw [trimBy, List.dropWhile_append_of_pos ha]
  by_cases he : s = []
  · have hnil : b.dropWhile p = [] := List.dropWhile_eq_nil_iff.mpr hb
    rw [he, List.nil_append, hnil]
    rfl
  · have hrev : ∀ c ∈ b.reverse, p c = true := fun c hc => hb c (List.mem_reverse.mp hc)
    rw [dropWhile_of_stops (hs.1.append he b), List.reverse_append, List.dropWhile_append_of_pos hrev,
      dropWhile_of_stops hs.2, List.reverse_reverse]

/-- The ends that trimming takes away. -/
theorem exists_ends (p : α → Bool) (s : List α) :
    ∃ a b, (∀ c ∈ a, p c = true) ∧ (∀ c ∈ b, p c = true) ∧ s = a ++ (trimBy p s ++ b) := by
  refine ⟨s.takeWhile p, ((s.dropWhile p).reverse.takeWhile p).reverse, ?_, ?_, ?_⟩
  · exact fun c hc => List.mem_takeWhile_imp hc
  · exact fun c hc => List.mem_takeWhile_imp (List.mem_reverse.mp hc)
  · rw [trimBy, ← List.reverse_append, List.takeWhile_append_dropWhile, List.reverse_reverse,
      List.takeWhile_append_dropWhile]

/-! ## Scanning -/

theorem takeWhile_append (ha : ∀ c ∈ a, p c = true) (hb : Stops p b) : (a ++ b).takeWhile p = a := by
  rw [List.takeWhile_append_of_pos ha, takeWhile_of_stops hb, List.append_nil]

theorem stops_bne_iff [BEq α] [LawfulBEq α] {c : α} : Stops (· != c) s ↔ s = [] ∨ ∃ t, s = c :: t := by
  cases s with
  | nil => exact iff_of_true stops_nil (.inl rfl)
  | cons d t =>
    constructor
    · intro h
      have hd : d = c := bne_eq_false_iff_eq.mp (h d rfl)
      exact .inr ⟨t, hd ▸ rfl⟩
    · rintro (h | ⟨t', h⟩)
      · cases h
      · cases h
        exact stops_cons (bne_self_eq_false c)

/-- A line without its comment and the blanks around. -/
theorem trimBy_takeWhile {q : α → Bool} {rest : List α} (hpq : ∀ c, p c = true → q c = true)
    (ha : ∀ c ∈ a, p c = true) (hs : Trimmed p s) (hq : ∀ c ∈ s, q c = true) (hb : ∀ c ∈ b, p c = true)
    (hrest : Stops q rest) : trimBy p ((a ++ (s ++ b) ++ rest).takeWhile q) = s := by
  have hbody : ∀ c ∈ a ++ (s ++ b), q c = true := by
    intro c hc
    simp only [List.mem_append] at hc
    rcases hc with hc | hc | hc
    · exact hpq c (ha c hc)
    · exact hq c hc
    · exact hpq c (hb c hc)
  rw [takeWhile_append hbody hrest]
  exact trimBy_around ha hs hb

theorem span_append (ha : ∀ c ∈ a, p c = true) (hb : Stops p b) : (a ++ b).span p = (a, b) := by
  rw [List.span_eq_takeWhile_dropWhile, takeWhile_append ha hb, List.dropWhile_append_of_pos ha,
    dropWhile_of_stops hb]

theorem span_eq (h : s.span p = (a, b)) : s = a ++ b ∧ (∀ c ∈ a, p c = true) ∧ Stops p b := by
  rw [List.span_eq_takeWhile_dropWhile] at h
  cases h
  exact ⟨List.takeWhile_append_dropWhile.symm, fun c hc => List.mem_takeWhile_imp hc, stops_dropWhile p s⟩

/-! ## Lines -/

theorem forall_mem_intercalate {P : α → Prop} {x : α} {ls : List (List α)} (hx : P x)
    (h : ∀ l ∈ ls, ∀ c ∈ l, P c) : ∀ c ∈ [x].intercalate ls, P c := by
  induction ls with
  | nil => exact nofun
  | cons l ls ih =>
    rw [List.forall_mem_cons] at h
    by_cases hn : ls = []
    · rw [hn, List.intercalate_singleton]
      exact h.1
    · rw [List.intercalate_cons_of_ne_nil hn]
      intro c hc
      simp only [List.mem_append, List.mem_singleton] at hc
      rcases hc with (hc | rfl) | hc
      · exact h.1 c hc
      · exact hx
      · exact ih h.2 c hc

end SimpleSvr
