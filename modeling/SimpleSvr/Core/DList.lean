import Mathlib.Data.List.Nodup

/-!
# Intrusive doubly linked lists

A node stores the addresses of its two neighbours. `Links A` is what a heap
shows of that: for every live address its `(prev, next)` pair. `Seg k p l n`
says that `k` links the addresses `l` into one segment, entered from `p` and
left to `n`.

* `seg_append`: a segment splits at any point.
* `seg_congr`: a segment only depends on the links of its own addresses.
* `seg_push`: linking a node in front of a list (`push`).
* `seg_unlink`: the pointer swing that takes a node out (`unlink`) leaves the
  list without it; the first node may be taken out only when nothing precedes
  it.

Only the nodes of the list and its neighbours are written (`push_other`,
`unlink_other`), so every disjoint segment stays what it was.
-/
namespace SimpleSvr.DList

variable {A : Type}

/-- For every live address, its `(prev, next)` pair. -/
abbrev Links (A : Type) := A → Option (Option A × Option A)

def Seg (k : Links A) : Option A → List A → Option A → Prop
  | _, [], _ => True
  | p, a :: l, n => k a = some (p, l.head?.or n) ∧ Seg k (some a) l n

@[simp] theorem seg_nil (k : Links A) (p n : Option A) : Seg k p [] n := trivial

theorem seg_cons {k : Links A} {p n : Option A} {a : A} {l : List A} :
    Seg k p (a :: l) n ↔ k a = some (p, l.head?.or n) ∧ Seg k (some a) l n := Iff.rfl

theorem seg_append {k : Links A} {n : Option A} {l₂ : List A} :
    ∀ {p : Option A} {l₁ : List A},
      Seg k p (l₁ ++ l₂) n ↔ Seg k p l₁ (l₂.head?.or n) ∧ Seg k (l₁.getLast?.or p) l₂ n
  | p, [] => by simp
  | p, a :: l₁ => by
    have ih := @seg_append k n l₂ (some a) l₁
    have hlast : (a :: l₁).getLast?.or p = l₁.getLast?.or (some a) := by
      rw [List.getLast?_cons]
      cases l₁.getLast? <;> simp
    have hhead : (l₁ ++ l₂).head?.or n = l₁.head?.or (l₂.head?.or n) := by
      cases l₁ <;> simp
    rw [List.cons_append, seg_cons, seg_cons, ih, hlast, hhead, and_assoc]

theorem seg_congr {k k' : Links A} {n : Option A} :
    ∀ {p : Option A} {l : List A}, (∀ a ∈ l, k' a = k a) → Seg k p l n → Seg k' p l n
  | _, [], _, _ => trivial
  | _, a :: _, h, ⟨h1, h2⟩ =>
    ⟨(h a List.mem_cons_self).trans h1, seg_congr (fun b hb => h b (List.mem_cons_of_mem a hb)) h2⟩

theorem seg_live {k : Links A} {n : Option A} :
    ∀ {p : Option A} {l : List A}, Seg k p l n → ∀ a ∈ l, (k a).isSome
  | _, a :: _, ⟨h1, h2⟩, b, hb => by
    rcases List.mem_cons.mp hb with rfl | hb
    · rw [h1]; rfl
    · exact seg_live h2 b hb

/-- The links of a node inside a list. -/
theorem seg_at {k : Links A} {p : Option A} {l₁ l₂ : List A} {a : A}
    (h : Seg k p (l₁ ++ a :: l₂) none) : k a = some (l₁.getLast?.or p, l₂.head?) := by
  have h2 := (seg_append.mp h).2.1
  simpa using h2

variable [DecidableEq A]

/-- `x->prev = p`, when `x` is live. -/
def setPrev (k : Links A) (x : A) (p : Option A) : Links A :=
  fun y => if y = x then (k y).map fun v => (p, v.2) else k y

/-- `x->next = n`, when `x` is live. -/
def setNext (k : Links A) (x : A) (n : Option A) : Links A :=
  fun y => if y = x then (k y).map fun v => (v.1, n) else k y

theorem setPrev_other (k : Links A) {x y : A} (p : Option A) (h : y ≠ x) : setPrev k x p y = k y :=
  if_neg h

theorem setNext_other (k : Links A) {x y : A} (n : Option A) (h : y ≠ x) : setNext k x n y = k y :=
  if_neg h

theorem setPrev_self (k : Links A) (x : A) (p : Option A) :
    setPrev k x p x = (k x).map fun v => (p, v.2) := if_pos rfl

theorem setNext_self (k : Links A) (x : A) (n : Option A) :
    setNext k x n x = (k x).map fun v => (v.1, n) := if_pos rfl

/-- The first node of a segment may be re-aimed at a new predecessor. -/
theorem seg_setPrev {k : Links A} {p p' n : Option A} {a : A} {l : List A} (hn : (a :: l).Nodup)
    (h : Seg k p (a :: l) n) : Seg (setPrev k a p') p' (a :: l) n := by
  obtain ⟨h1, h2⟩ := h
  have hal := (List.nodup_cons.mp hn).1
  refine ⟨by rw [setPrev_self, h1]; rfl, seg_congr (fun b hb => ?_) h2⟩
  exact setPrev_other k p' fun e => hal (e ▸ hb)

/-- The last node of a segment may be re-aimed at a new successor. -/
theorem seg_setNext {k : Links A} {n n' : Option A} {a : A} :
    ∀ {p : Option A} {l : List A}, (l ++ [a]).Nodup → Seg k p (l ++ [a]) n →
      Seg (setNext k a n') p (l ++ [a]) n'
  | p, [], _, h => by
    refine ⟨?_, trivial⟩
    have h1 : k a = some (p, none.or n) := h.1
    rw [setNext_self, h1]; rfl
  | p, b :: l, hn, ⟨h1, h2⟩ => by
    have hb := List.nodup_cons.mp hn
    have hba : b ≠ a := fun e => hb.1 (by simp [e])
    refine ⟨?_, seg_setNext hb.2 h2⟩
    rw [setNext_other k n' hba, h1]
    cases l <;> rfl

/-! ## Linking in front -/

/-- Link the node `a` in front of the list whose first node is `h`. -/
def push (k : Links A) (a : A) (h : Option A) : Links A :=
  let k := fun y => if y = a then some (none, h) else k y
  match h with
  | none => k
  | some x => setPrev k x (some a)

theorem push_other (k : Links A) {a y : A} {h : Option A} (ha : y ≠ a) (hh : h ≠ some y) :
    push k a h y = k y := by
  cases h with
  | none => simp [push, ha]
  | some x =>
    have hx : y ≠ x := fun e => hh (by rw [e])
    simp [push, setPrev_other _ _ hx, ha]

theorem seg_push {k : Links A} {a : A} {l : List A} (hn : (a :: l).Nodup)
    (h : Seg k none l none) : Seg (push k a l.head?) none (a :: l) none := by
  obtain ⟨hal, hl⟩ := List.nodup_cons.mp hn
  have h' : Seg (fun y => if y = a then some (none, l.head?) else k y) none l none :=
    seg_congr (fun b hb => by rw [if_neg]; rintro rfl; exact hal hb) h
  cases l with
  | nil => exact ⟨by simp [push], trivial⟩
  | cons x l =>
    have hax : a ≠ x := fun e => hal (by simp [e])
    refine ⟨?_, seg_setPrev hl h'⟩
    simp [push, setPrev_other _ _ hax]

/-! ## Taking a node out -/

/-- The successor `n` (if any) gets the predecessor `p`. -/
def swingNext (k : Links A) (p n : Option A) : Links A :=
  match n with
  | some y => setPrev k y p
  | none => k

/-- The predecessor `p` (if any) gets the successor `n`. -/
def swingPrev (k : Links A) (p n : Option A) : Links A :=
  match p with
  | some x => setNext k x n
  | none => k

/-- The pointer swing: the two neighbours of the node `a` skip it. -/
def unlink (k : Links A) (a : A) : Links A :=
  match k a with
  | none => k
  | some (p, n) => swingPrev (swingNext k p n) p n

theorem unlink_eq {k : Links A} {a : A} {p n : Option A} (h : k a = some (p, n)) :
    unlink k a = swingPrev (swingNext k p n) p n := by
  unfold unlink; rw [h]

theorem swingNext_other (k : Links A) {p n : Option A} {y : A} (h : n ≠ some y) :
    swingNext k p n y = k y := by
  cases n with
  | none => rfl
  | some x => exact setPrev_other _ _ fun e => h (by rw [e])

theorem swingPrev_other (k : Links A) {p n : Option A} {y : A} (h : p ≠ some y) :
    swingPrev k p n y = k y := by
  cases p with
  | none => rfl
  | some x => exact setNext_other _ _ fun e => h (by rw [e])

theorem unlink_other (k : Links A) {a y : A} (hp : ∀ n, k a ≠ some (some y, n))
    (hn : ∀ p, k a ≠ some (p, some y)) : unlink k a y = k y := by
  cases h : k a with
  | none => unfold unlink; rw [h]
  | some v =>
    obtain ⟨p, n⟩ := v
    rw [unlink_eq h, swingPrev_other _ fun e => hp n (by rw [h, e]),
      swingNext_other _ fun e => hn p (by rw [h, e])]

theorem seg_unlink {k : Links A} {p : Option A} {l₁ l₂ : List A} {a : A}
    (hn : (l₁ ++ a :: l₂).Nodup) (h : Seg k p (l₁ ++ a :: l₂) none) (hp : l₁ ≠ [] ∨ p = none) :
    Seg (unlink k a) p (l₁ ++ l₂) none := by
  have hat := seg_at h
  obtain ⟨s1, s2⟩ := seg_append.mp h
  have s2 := s2.2
  have n1 : l₁.Nodup := (List.nodup_append.mp hn).1
  have n2 : l₂.Nodup := (List.nodup_cons.mp (List.nodup_append.mp hn).2.1).2
  have hd : ∀ x ∈ l₁, ∀ y ∈ l₂, x ≠ y := fun x hx y hy =>
    (List.nodup_append.mp hn).2.2 x hx y (List.mem_cons_of_mem a hy)
  rw [unlink_eq hat]
  -- the right part, re-aimed at `a`'s predecessor
  have right : Seg (swingNext k (l₁.getLast?.or p) l₂.head?) (l₁.getLast?.or p) l₂ none := by
    cases l₂ with
    | nil => trivial
    | cons y l₂ => exact seg_setPrev n2 s2
  have left : Seg (swingNext k (l₁.getLast?.or p) l₂.head?) p l₁ (some a) := by
    refine seg_congr (fun b hb => swingNext_other _ fun e => ?_) (by simpa using s1)
    exact hd b hb b (List.mem_of_head? e) rfl
  rcases List.eq_nil_or_concat' l₁ with rfl | ⟨l, x, rfl⟩
  · -- `a` is the first node, so nothing precedes it
    have hp : p = none := hp.resolve_left (fun h => h rfl)
    subst hp
    simpa [swingPrev] using right
  · simp only [List.getLast?_append, List.getLast?_singleton, Option.some_or] at right left ⊢
    refine seg_append.mpr ⟨?_, ?_⟩
    · have : Seg _ p (l ++ [x]) l₂.head? := seg_setNext n1 left
      simpa [swingPrev] using this
    · refine seg_congr (fun b hb => swingPrev_other _ fun e => ?_) (by simpa using right)
      cases e
      exact hd x (by simp) x hb rfl

end SimpleSvr.DList
