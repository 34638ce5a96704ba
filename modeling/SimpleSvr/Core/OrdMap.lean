import Mathlib.Algebra.Ring.Nat
import Mathlib.Order.Defs.LinearOrder
import Mathlib.Data.Prod.Basic
import Mathlib.Data.List.Sort

/-!
# Ordered maps

`OrdMap K V` is a finite map kept in the order of its keys, as `std::map` is:
it is iterated in that order, `insert` keeps an entry that is there, and
`lowerBound k` is the first entry whose key is not below `k`.

* `mem_iff_find`: the entries are what `find` finds.
* `find_split`, `insert_split`: where an operation acts, the entries are
  `l₁ ++ (k, v) :: l₂`, and `erase`, `modify` and `insert` act between `l₁` and `l₂`.
* `lowerBound_extend`: adding entries of one value redirects a lower bound to
  that value or not at all.
-/
namespace SimpleSvr

structure OrdMap (K V : Type) [LinearOrder K] where
  entries : List (K × V)
  sorted : entries.Pairwise fun a b => a.1 < b.1

namespace OrdMap

variable {K V : Type} [LinearOrder K]

def empty : OrdMap K V := ⟨[], .nil⟩

def find (m : OrdMap K V) (k : K) : Option V :=
  (m.entries.find? fun e => e.1 = k).map Prod.snd

def lowerBound (m : OrdMap K V) (k : K) : Option (K × V) :=
  m.entries.find? fun e => k ≤ e.1

def insertList (k : K) (v : V) : List (K × V) → List (K × V)
  | [] => [(k, v)]
  | e :: l => if k < e.1 then (k, v) :: e :: l else if k = e.1 then e :: l else e :: insertList k v l

theorem mem_insertList {k : K} {v : V} {e : K × V} {l : List (K × V)} (h : e ∈ insertList k v l) :
    e = (k, v) ∨ e ∈ l := by
  induction l with
  | nil => exact .inl (List.mem_singleton.mp h)
  | cons a l ih =>
    rw [insertList] at h
    split_ifs at h with h1 h2
    · exact List.mem_cons.mp h
    · exact .inr h
    · rcases List.mem_cons.mp h with rfl | h
      · exact .inr List.mem_cons_self
      · exact (ih h).imp_right (List.mem_cons_of_mem _)

theorem sorted_insertList (k : K) (v : V) {l : List (K × V)} (h : l.Pairwise fun a b => a.1 < b.1) :
    (insertList k v l).Pairwise fun a b => a.1 < b.1 := by
  induction l with
  | nil => exact List.pairwise_singleton _ _
  | cons a l ih =>
    rw [insertList]
    have hl := List.pairwise_cons.mp h
    split_ifs with h1 h2
    · refine List.pairwise_cons.mpr ⟨fun e he => ?_, h⟩
      rcases List.mem_cons.mp he with rfl | he
      · exact h1
      · exact lt_trans h1 (hl.1 e he)
    · exact h
    · refine List.pairwise_cons.mpr ⟨fun e he => ?_, ih hl.2⟩
      rcases mem_insertList he with rfl | he
      · exact lt_of_le_of_ne (not_lt.mp h1) (Ne.symm h2)
      · exact hl.1 e he

/-- An entry that is there stays. -/
def insert (m : OrdMap K V) (k : K) (v : V) : OrdMap K V :=
  ⟨insertList k v m.entries, sorted_insertList k v m.sorted⟩

def erase (m : OrdMap K V) (k : K) : OrdMap K V :=
  ⟨m.entries.filter fun e => e.1 ≠ k, m.sorted.filter _⟩

/-- Change the values, in order. -/
def mapVals (m : OrdMap K V) (f : K → V → V) : OrdMap K V :=
  ⟨m.entries.map fun e => (e.1, f e.1 e.2), List.pairwise_map.mpr m.sorted⟩

def modify (m : OrdMap K V) (k : K) (f : V → V) : OrdMap K V :=
  m.mapVals fun k' v => if k' = k then f v else v

variable {m : OrdMap K V} {k : K} {v : V}

/-! ## Around one key -/

/-- The entries below a key, the entry of the key if there is one, and the entries above. -/
theorem exists_around (k : K) {l : List (K × V)} (h : l.Pairwise fun a b => a.1 < b.1) :
    ∃ l₁ l₂ : List (K × V), ∃ o : Option V, (∀ e ∈ l₁, e.1 < k) ∧ (∀ e ∈ l₂, k < e.1) ∧
      l = l₁ ++ (o.toList.map (Prod.mk k) ++ l₂) := by
  induction l with
  | nil => exact ⟨[], [], none, by simp, by simp, rfl⟩
  | cons a l ih =>
    have hl := List.pairwise_cons.mp h
    rcases lt_trichotomy a.1 k with hlt | heq | hgt
    · obtain ⟨l₁, l₂, o, h₁, h₂, he⟩ := ih hl.2
      refine ⟨a :: l₁, l₂, o, fun e he => ?_, h₂, by rw [he]; rfl⟩
      rcases List.mem_cons.mp he with rfl | he
      · exact hlt
      · exact h₁ e he
    · refine ⟨[], l, some a.2, by simp, fun e he => heq ▸ hl.1 e he, ?_⟩
      rw [← heq]
      rfl
    · refine ⟨[], a :: l, none, by simp, fun e he => ?_, rfl⟩
      rcases List.mem_cons.mp he with rfl | he
      · exact hgt
      · exact lt_trans hgt (hl.1 e he)

section Around

variable {l₁ l₂ : List (K × V)} {o : Option V} (h₁ : ∀ e ∈ l₁, e.1 < k) (h₂ : ∀ e ∈ l₂, k < e.1)
include h₁ h₂

theorem find_around (he : m.entries = l₁ ++ (o.toList.map (Prod.mk k) ++ l₂)) : m.find k = o := by
  have hlow : l₁.find? (fun e => decide (e.1 = k)) = none :=
    List.find?_eq_none.mpr fun e he => by simpa using ne_of_lt (h₁ e he)
  have hhigh : l₂.find? (fun e => decide (e.1 = k)) = none :=
    List.find?_eq_none.mpr fun e he => by simpa using ne_of_gt (h₂ e he)
  rw [find, he, List.find?_append, hlow]
  cases o with
  | none => simpa using hhigh
  | some v => simp

theorem insertList_around (v : V) :
    insertList k v (l₁ ++ (o.toList.map (Prod.mk k) ++ l₂)) = l₁ ++ (k, o.getD v) :: l₂ := by
  induction l₁ with
  | nil =>
    cases o with
    | some w => simp [insertList]
    | none =>
      cases l₂ with
      | nil => rfl
      | cons a l₂ => exact if_pos (h₂ a List.mem_cons_self)
  | cons a l₁ ih =>
    have ha := h₁ a List.mem_cons_self
    rw [List.cons_append, insertList, if_neg (not_lt_of_gt ha), if_neg (ne_of_gt ha),
      ih fun e he => h₁ e (List.mem_cons_of_mem _ he)]
    rfl

theorem filter_around :
    (l₁ ++ (o.toList.map (Prod.mk k) ++ l₂)).filter (fun e => decide (e.1 ≠ k)) = l₁ ++ l₂ := by
  have hlow : l₁.filter (fun e => decide (e.1 ≠ k)) = l₁ :=
    List.filter_eq_self.mpr fun e he => by simpa using ne_of_lt (h₁ e he)
  have hhigh : l₂.filter (fun e => decide (e.1 ≠ k)) = l₂ :=
    List.filter_eq_self.mpr fun e he => by simpa using ne_of_gt (h₂ e he)
  rw [List.filter_append, List.filter_append, hlow, hhigh]
  cases o <;> simp

theorem map_around (f : V → V) :
    (l₁ ++ (o.toList.map (Prod.mk k) ++ l₂)).map (fun e => (e.1, if e.1 = k then f e.2 else e.2)) =
      l₁ ++ ((o.map f).toList.map (Prod.mk k) ++ l₂) := by
  have hlow : l₁.map (fun e => (e.1, if e.1 = k then f e.2 else e.2)) = l₁ :=
    (List.map_congr_left fun e he => by rw [if_neg (ne_of_lt (h₁ e he)), id]).trans l₁.map_id
  have hhigh : l₂.map (fun e => (e.1, if e.1 = k then f e.2 else e.2)) = l₂ :=
    (List.map_congr_left fun e he => by rw [if_neg (ne_of_gt (h₂ e he)), id]).trans l₂.map_id
  rw [List.map_append, List.map_append, hlow, hhigh]
  cases o <;> simp

end Around

/-- What the operations on one key do to the entries. -/
theorem around (m : OrdMap K V) (k : K) :
    ∃ l₁ l₂ : List (K × V), (∀ e ∈ l₁, e.1 < k) ∧ (∀ e ∈ l₂, k < e.1) ∧
      m.entries = l₁ ++ ((m.find k).toList.map (Prod.mk k) ++ l₂) ∧
      (∀ v, (m.insert k v).entries = l₁ ++ (k, (m.find k).getD v) :: l₂) ∧
      (m.erase k).entries = l₁ ++ l₂ ∧
      ∀ f, (m.modify k f).entries = l₁ ++ (((m.find k).map f).toList.map (Prod.mk k) ++ l₂) := by
  obtain ⟨l₁, l₂, o, h₁, h₂, he⟩ := exists_around k m.sorted
  obtain rfl := find_around h₁ h₂ he
  refine ⟨l₁, l₂, h₁, h₂, he, fun v => ?_, ?_, fun f => ?_⟩
  · rw [← insertList_around h₁ h₂, ← he]
    rfl
  · rw [← filter_around (o := m.find k) h₁ h₂, ← he]
    rfl
  · rw [← map_around h₁ h₂, ← he]
    rfl

/-! ## Lookup -/

theorem mem_iff_find : (k, v) ∈ m.entries ↔ m.find k = some v := by
  obtain ⟨l₁, l₂, h₁, h₂, he, -⟩ := m.around k
  rw [he]
  constructor
  · intro h
    rcases List.mem_append.mp h with h | h
    · exact absurd (h₁ _ h) (lt_irrefl k)
    · rcases List.mem_append.mp h with h | h
      · simpa using h
      · exact absurd (h₂ _ h) (lt_irrefl k)
  · intro h
    rw [h]
    simp

theorem find_insert (m : OrdMap K V) (k : K) (v : V) : (m.insert k v).find k = some ((m.find k).getD v) := by
  obtain ⟨l₁, l₂, h₁, h₂, -, hi, -⟩ := m.around k
  exact @find_around _ _ _ (m.insert k v) k l₁ l₂ (some _) h₁ h₂ (hi v)

theorem find_insert_ne {k' : K} (h : k' ≠ k) (v : V) : (m.insert k v).find k' = m.find k' := by
  obtain ⟨l₁, l₂, -, -, he, hi, -⟩ := m.around k
  apply Option.ext
  intro w
  rw [← mem_iff_find, ← mem_iff_find, he, hi v]
  simp [h, Ne.symm h]

theorem find_modify (m : OrdMap K V) (k : K) (f : V → V) : (m.modify k f).find k = (m.find k).map f := by
  obtain ⟨l₁, l₂, h₁, h₂, -, -, -, hm⟩ := m.around k
  exact @find_around _ _ _ (m.modify k f) k l₁ l₂ _ h₁ h₂ (hm f)

theorem find_modify_ne {k' : K} (h : k' ≠ k) (f : V → V) : (m.modify k f).find k' = m.find k' := by
  obtain ⟨l₁, l₂, -, -, he, -, -, hm⟩ := m.around k
  apply Option.ext
  intro w
  rw [← mem_iff_find, ← mem_iff_find, he, hm f]
  simp [Ne.symm h]

theorem find_erase (m : OrdMap K V) (k : K) : (m.erase k).find k = none := by
  obtain ⟨l₁, l₂, h₁, h₂, -, -, hd, -⟩ := m.around k
  exact @find_around _ _ _ (m.erase k) k l₁ l₂ none h₁ h₂ hd

theorem find_erase_ne {k' : K} (h : k' ≠ k) : (m.erase k).find k' = m.find k' := by
  obtain ⟨l₁, l₂, -, -, he, -, hd, -⟩ := m.around k
  apply Option.ext
  intro w
  rw [← mem_iff_find, ← mem_iff_find, he, hd]
  simp [Ne.symm h]

theorem find_erase_iff {a : K} : (m.erase k).find a = some v ↔ a ≠ k ∧ m.find a = some v := by
  by_cases h : a = k
  · rw [h, find_erase]
    exact iff_of_false nofun fun hc => hc.1 rfl
  · rw [find_erase_ne h]
    exact (and_iff_right h).symm

/-- What a modification leaves alone. -/
theorem map_find_modify {W : Type} {f : V → V} {g : V → W} (h : ∀ v, g (f v) = g v) (m : OrdMap K V) (k a : K) :
    ((m.modify k f).find a).map g = (m.find a).map g := by
  by_cases ha : a = k
  · rw [ha, find_modify, Option.map_map, show g ∘ f = g from funext h]
  · rw [find_modify_ne ha]

theorem mem_insert_of_mem (m : OrdMap K V) {e : K × V} (he : e ∈ m.entries) (k : K) (v : V) :
    e ∈ (m.insert k v).entries := by
  obtain ⟨k', w⟩ := e
  by_cases h : k' = k
  · subst h
    rw [mem_iff_find] at he ⊢
    rw [find_insert, he, Option.getD_some]
  · rw [mem_iff_find] at he ⊢
    rwa [find_insert_ne h]

theorem mem_insert {e : K × V} (he : e ∈ (m.insert k v).entries) : e = (k, v) ∨ e ∈ m.entries :=
  mem_insertList he

theorem mem_erase {e : K × V} (he : e ∈ (m.erase k).entries) : e ∈ m.entries ∧ e.1 ≠ k := by
  have h := List.mem_filter.mp he
  exact ⟨h.1, of_decide_eq_true h.2⟩

theorem mem_modify {e : K × V} {f : V → V} (he : e ∈ (m.modify k f).entries) :
    (e ∈ m.entries ∧ e.1 ≠ k) ∨ ∃ w, (k, w) ∈ m.entries ∧ e = (k, f w) := by
  obtain ⟨a, ha, rfl⟩ := List.mem_map.mp he
  by_cases h : a.1 = k
  · right
    refine ⟨a.2, h ▸ ha, ?_⟩
    simp only [h, ↓reduceIte]
  · left
    simp only [h, ↓reduceIte]
    exact ⟨ha, h⟩

theorem mem_mapVals {e : K × V} {f : K → V → V} (he : e ∈ (m.mapVals f).entries) :
    ∃ w, (e.1, w) ∈ m.entries ∧ e.2 = f e.1 w := by
  obtain ⟨a, ha, rfl⟩ := List.mem_map.mp he
  exact ⟨a.2, ha, rfl⟩

theorem find_mapVals (m : OrdMap K V) (f : K → V → V) (k : K) : (m.mapVals f).find k = (m.find k).map (f k) := by
  apply Option.ext
  intro w
  rw [← mem_iff_find, Option.map_eq_some_iff]
  constructor
  · intro h
    obtain ⟨v, hv, hw⟩ := mem_mapVals h
    exact ⟨v, mem_iff_find.mp hv, hw.symm⟩
  · rintro ⟨v, hv, rfl⟩
    exact List.mem_map.mpr ⟨(k, v), mem_iff_find.mpr hv, rfl⟩

theorem ext {m m' : OrdMap K V} (h : m.entries = m'.entries) : m = m' := by
  cases m
  cases m'
  cases h
  rfl

/-- A map is what `find` finds. -/
theorem ext_find {m m' : OrdMap K V} (h : ∀ k, m.find k = m'.find k) : m = m' := by
  have : Std.Irrefl fun a b : K × V => a.1 < b.1 := ⟨fun a => lt_irrefl a.1⟩
  have : Std.Antisymm fun a b : K × V => a.1 < b.1 := ⟨fun a b hab hba => absurd hba (lt_asymm hab)⟩
  apply ext
  apply m.sorted.eq_of_mem_iff m'.sorted
  intro e
  rw [show e = (e.1, e.2) from rfl, mem_iff_find, mem_iff_find, h]

/-- `m[k] = v` -/
def put (m : OrdMap K V) (k : K) (v : V) : OrdMap K V := (m.insert k v).modify k fun _ => v

theorem find_put (m : OrdMap K V) (k : K) (v : V) : (m.put k v).find k = some v := by
  rw [put, find_modify, find_insert, Option.map_some]

theorem find_put_ne {k' : K} (h : k' ≠ k) (v : V) : (m.put k v).find k' = m.find k' := by
  rw [put, find_modify_ne h, find_insert_ne h]

theorem insert_of_find {w : V} (h : m.find k = some w) (v : V) : m.insert k v = m := by
  obtain ⟨l₁, l₂, -, -, he, hi, -⟩ := m.around k
  apply ext
  rw [hi v, he, h]
  rfl

theorem modify_of_find (h : m.find k = none) (f : V → V) : m.modify k f = m := by
  obtain ⟨l₁, l₂, -, -, he, -, -, hm⟩ := m.around k
  apply ext
  rw [hm f, he, h]
  rfl

/-! ## Sums -/

def sum (m : OrdMap K V) (f : V → Nat) : Nat := (m.entries.map fun e => f e.2).sum

theorem sum_insert (h : m.find k = none) (v : V) (f : V → Nat) : (m.insert k v).sum f = m.sum f + f v := by
  obtain ⟨l₁, l₂, -, -, he, hi, -⟩ := m.around k
  rw [sum, sum, hi v, he, h]
  simp only [List.map_append, List.map_cons, List.sum_append, List.sum_cons, Option.toList, List.map_nil,
    List.sum_nil, Option.getD_none]
  omega

theorem sum_erase (h : m.find k = some v) (f : V → Nat) : (m.erase k).sum f + f v = m.sum f := by
  obtain ⟨l₁, l₂, -, -, he, -, hd, -⟩ := m.around k
  rw [sum, sum, hd, he, h]
  simp only [List.map_append, List.map_cons, List.sum_append, List.sum_cons, Option.toList, List.map_nil,
    List.sum_nil]
  omega

theorem sum_modify (h : m.find k = some v) (g : V → V) (f : V → Nat) :
    (m.modify k g).sum f + f v = m.sum f + f (g v) := by
  obtain ⟨l₁, l₂, -, -, he, -, -, hm⟩ := m.around k
  rw [sum, sum, hm g, he, h]
  simp only [List.map_append, List.map_cons, List.sum_append, List.sum_cons, Option.toList, List.map_nil,
    List.sum_nil, Option.map_some]
  omega

theorem sum_mapVals {g : K → V → V} {f : V → Nat} (h : ∀ k v, f (g k v) = f v) : (m.mapVals g).sum f = m.sum f := by
  simp only [sum, mapVals, List.map_map]
  exact congrArg List.sum (List.map_congr_left fun e _ => h e.1 e.2)

theorem sum_modify_of_eq {g : V → V} {f : V → Nat} (h : ∀ v, f (g v) = f v) : (m.modify k g).sum f = m.sum f := by
  apply sum_mapVals
  intro k' v
  split
  · exact h v
  · rfl

theorem sum_erase_le (m : OrdMap K V) (k : K) (f : V → Nat) : (m.erase k).sum f ≤ m.sum f := by
  obtain ⟨l₁, l₂, -, -, he, -, hd, -⟩ := m.around k
  rw [sum, sum, hd, he]
  simp only [List.map_append, List.sum_append]
  omega

theorem sum_le_add_length {f g : V → Nat} (h : ∀ e ∈ m.entries, f e.2 ≤ g e.2 + 1) :
    m.sum f ≤ m.sum g + m.entries.length := by
  rw [sum, sum]
  generalize m.entries = l at h
  induction l with
  | nil => exact Nat.le_refl _
  | cons e l ih =>
    have he := h e List.mem_cons_self
    have hl := ih fun e he => h e (List.mem_cons_of_mem _ he)
    simp only [List.map_cons, List.sum_cons, List.length_cons]
    omega

theorem length_insert (h : m.find k = none) (v : V) : (m.insert k v).entries.length = m.entries.length + 1 := by
  obtain ⟨l₁, l₂, -, -, he, hi, -⟩ := m.around k
  rw [hi v, he, h]
  simp only [List.length_append, List.length_cons, Option.toList, List.map_nil, List.length_nil]
  omega

theorem length_erase_le (m : OrdMap K V) (k : K) : (m.erase k).entries.length ≤ m.entries.length :=
  List.length_filter_le _ _

theorem length_erase (h : m.find k = some v) : (m.erase k).entries.length + 1 = m.entries.length := by
  obtain ⟨l₁, l₂, -, -, he, -, hd, -⟩ := m.around k
  rw [hd, he, h]
  simp only [List.length_append, List.length_cons, Option.toList, List.map_cons, List.map_nil, List.length_nil]
  omega

theorem length_mapVals (m : OrdMap K V) (f : K → V → V) : (m.mapVals f).entries.length = m.entries.length :=
  List.length_map _

/-- One value counts in a sum. -/
theorem le_sum (h : m.find k = some v) (f : V → Nat) : f v ≤ m.sum f := by
  rw [← sum_erase h f]
  omega

/-! ## Lower bounds -/

theorem lowerBound_some {e : K × V} (h : m.lowerBound k = some e) :
    e ∈ m.entries ∧ k ≤ e.1 ∧ ∀ e' ∈ m.entries, k ≤ e'.1 → e.1 ≤ e'.1 := by
  obtain ⟨hk, as, bs, heq, has⟩ := List.find?_eq_some_iff_append.mp h
  have hsort := m.sorted
  rw [heq] at hsort ⊢
  refine ⟨by simp, by simpa using hk, fun e' he' hk' => ?_⟩
  rcases List.mem_append.mp he' with ha | hb
  · exact absurd hk' (by simpa using has e' ha)
  · rcases List.mem_cons.mp hb with rfl | hb
    · exact le_refl _
    · have hcons := (List.pairwise_append.mp hsort).2.1
      exact le_of_lt ((List.pairwise_cons.mp hcons).1 e' hb)

theorem lowerBound_none (h : m.lowerBound k = none) : ∀ e ∈ m.entries, e.1 < k := by
  intro e he
  have := List.find?_eq_none.mp h e he
  simpa using this

theorem lowerBound_isSome {e : K × V} (he : e ∈ m.entries) (hk : k ≤ e.1) : (m.lowerBound k).isSome := by
  cases h : m.lowerBound k with
  | some _ => rfl
  | none => exact absurd (lowerBound_none h e he) (not_lt_of_ge hk)

theorem eq_of_mem {e₁ e₂ : K × V} (h₁ : e₁ ∈ m.entries) (h₂ : e₂ ∈ m.entries) (h : e₁.1 = e₂.1) : e₁ = e₂ := by
  obtain ⟨k₁, v₁⟩ := e₁
  obtain ⟨k₂, v₂⟩ := e₂
  obtain rfl : k₁ = k₂ := h
  rw [mem_iff_find] at h₁ h₂
  rw [Option.some.inj (h₁.symm.trans h₂)]

/-- A map that grows by entries of one value sends a lower bound where it was, or to that value. -/
theorem lowerBound_extend {m' : OrdMap K V} {p : V} (hold : ∀ e ∈ m.entries, e ∈ m'.entries)
    (hnew : ∀ e ∈ m'.entries, e ∈ m.entries ∨ e.2 = p) (k : K) :
    m'.lowerBound k = m.lowerBound k ∨ (m'.lowerBound k).map Prod.snd = some p := by
  cases h' : m'.lowerBound k with
  | none =>
    left
    cases h : m.lowerBound k with
    | none => rfl
    | some e =>
      obtain ⟨he, hk, -⟩ := lowerBound_some h
      exact absurd (lowerBound_none h' e (hold e he)) (not_lt_of_ge hk)
  | some e' =>
    obtain ⟨he', hk', hmin'⟩ := lowerBound_some h'
    rcases hnew e' he' with he | hp
    · -- the bound was there before: it is the least of the new entries, so of the old ones
      left
      obtain ⟨e, h⟩ := Option.isSome_iff_exists.mp (lowerBound_isSome he hk')
      obtain ⟨hmem, hk, hmin⟩ := lowerBound_some h
      rw [h, eq_of_mem he hmem (le_antisymm (hmin' e (hold e hmem) hk) (hmin e' he hk'))]
    · right
      rw [Option.map_some, hp]

/-- Growing loses no lower bound. -/
theorem lowerBound_isSome_extend {m' : OrdMap K V} (hold : ∀ e ∈ m.entries, e ∈ m'.entries)
    (h : (m.lowerBound k).isSome) : (m'.lowerBound k).isSome := by
  obtain ⟨e, he⟩ := Option.isSome_iff_exists.mp h
  obtain ⟨hmem, hk, -⟩ := lowerBound_some he
  exact lowerBound_isSome (hold e hmem) hk

/-! ## Values of another type -/

variable {W : Type} {F : V → W}

def mapTo (m : OrdMap K V) (F : V → W) : OrdMap K W :=
  ⟨m.entries.map fun e => (e.1, F e.2), List.pairwise_map.mpr m.sorted⟩

theorem find_mapTo (m : OrdMap K V) (F : V → W) (k : K) : (m.mapTo F).find k = (m.find k).map F := by
  apply Option.ext
  intro w
  rw [← mem_iff_find, Option.map_eq_some_iff]
  constructor
  · intro h
    obtain ⟨e, he, heq⟩ := List.mem_map.mp h
    obtain ⟨rfl, rfl⟩ := Prod.mk.inj heq
    exact ⟨e.2, mem_iff_find.mp he, rfl⟩
  · rintro ⟨v, hv, rfl⟩
    exact List.mem_map.mpr ⟨(k, v), mem_iff_find.mpr hv, rfl⟩

theorem mapTo_insert (m : OrdMap K V) (k : K) (v : V) : (m.insert k v).mapTo F = (m.mapTo F).insert k (F v) := by
  apply ext_find
  intro a
  rw [find_mapTo]
  by_cases ha : a = k
  · subst ha
    rw [find_insert, find_insert, find_mapTo, Option.getD_map, Option.map_some]
  · rw [find_insert_ne ha, find_insert_ne ha, find_mapTo]

theorem mapTo_erase (m : OrdMap K V) (k : K) : (m.erase k).mapTo F = (m.mapTo F).erase k := by
  apply ext_find
  intro a
  rw [find_mapTo]
  by_cases ha : a = k
  · subst ha
    rw [find_erase, find_erase, Option.map_none]
  · rw [find_erase_ne ha, find_erase_ne ha, find_mapTo]

theorem mapTo_modify {f : V → V} {g : W → W} (h : ∀ v, F (f v) = g (F v)) (m : OrdMap K V) (k : K) :
    (m.modify k f).mapTo F = (m.mapTo F).modify k g := by
  apply ext_find
  intro a
  rw [find_mapTo]
  by_cases ha : a = k
  · subst ha
    rw [find_modify, find_modify, find_mapTo, Option.map_map, Option.map_map]
    exact congrArg (fun f => (m.find a).map f) (funext h)
  · rw [find_modify_ne ha, find_modify_ne ha, find_mapTo]

end OrdMap
end SimpleSvr
