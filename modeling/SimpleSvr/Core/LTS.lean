/-!
# Labelled transition systems

`LTS S L` is a set of initial states and a labelled step relation. A safety
property of every run is proved by giving an inductive invariant
(`Inductive`): it holds initially and every step keeps it, so it holds of
every reachable state (`Inductive.reachable`).

`guard P` keeps the steps whose source state and label satisfy `P`: its runs
are the runs of the system in which every step meets `P`.
-/
namespace SimpleSvr

structure LTS (S L : Type) where
  init : S → Prop
  step : S → L → S → Prop

namespace LTS

variable {S L : Type}

/-- The system of a partial step function (`none`: the step is not enabled). -/
def ofFn (init : S → Prop) (f : S → L → Option S) : LTS S L where
  init := init
  step s l s' := f s l = some s'

def guard (M : LTS S L) (P : S → L → Prop) : LTS S L where
  init := M.init
  step s l s' := P s l ∧ M.step s l s'

inductive Reachable (M : LTS S L) : S → Prop
  | init {s : S} (h : M.init s) : Reachable M s
  | step {s : S} {l : L} {s' : S} (hr : Reachable M s) (h : M.step s l s') : Reachable M s'

structure Inductive (M : LTS S L) (I : S → Prop) : Prop where
  init : ∀ s, M.init s → I s
  step : ∀ s l s', I s → M.step s l s' → I s'

theorem Inductive.reachable {M : LTS S L} {I : S → Prop} (h : M.Inductive I) (s : S)
    (hr : M.Reachable s) : I s := by
  induction hr with
  | init h0 => exact h.init _ h0
  | step _ hs ih => exact h.step _ _ _ ih hs

theorem Reachable.allowed {M : LTS S L} {P : S → L → Prop} {s s' : S} {l : L} (hr : (M.guard P).Reachable s)
    (h : M.step s l s') (hp : P s l) : (M.guard P).Reachable s' :=
  .step hr ⟨hp, h⟩

/-- Where `Q` is kept by exactly the steps that `P` allows, the runs that `P` allows are those that end
in `Q`. -/
theorem guard_reachable {M : LTS S L} {P : S → L → Prop} {Q : S → Prop} (h0 : ∀ s, M.init s → Q s)
    (hstep : ∀ s l s', M.Reachable s → M.step s l s' → (Q s' ↔ Q s ∧ P s l)) (s : S) :
    (M.guard P).Reachable s ↔ M.Reachable s ∧ Q s := by
  constructor
  · intro hr
    induction hr with
    | init h => exact ⟨.init h, h0 _ h⟩
    | step _ hs ih => exact ⟨.step ih.1 hs.2, (hstep _ _ _ ih.1 hs.2).mpr ⟨ih.2, hs.1⟩⟩
  · intro hr
    obtain ⟨hr, hq⟩ := hr
    induction hr with
    | init h => exact .init h
    | step hr hs ih =>
      obtain ⟨hq, hp⟩ := (hstep _ _ _ hr hs).mp hq
      exact .step (ih hq) ⟨hp, hs⟩

/-- Where the partial step function `f` makes steps of `M`, so does a list of labels. -/
theorem Reachable.run {M : LTS S L} {f : S → L → Option S} {P : L → Prop}
    (hf : ∀ s l s', P l → f s l = some s' → M.step s l s') :
    ∀ (ls : List L) {s s' : S}, (∀ l ∈ ls, P l) → M.Reachable s → ls.foldlM f s = some s' →
      M.Reachable s'
  | [], _, _, _, hr, e => by cases e; exact hr
  | l :: ls, s, s', hP, hr, e => by
    rw [List.foldlM_cons, Option.bind_eq_bind, Option.bind_eq_some_iff] at e
    obtain ⟨s₁, e₁, e⟩ := e
    exact run hf ls (fun l hl => hP l (List.mem_cons_of_mem _ hl))
      (.step hr (hf _ _ _ (hP l List.mem_cons_self) e₁)) e

/-- The partial step function `f` where it is enabled. -/
def checked (enabled : S → L → Prop) [∀ s l, Decidable (enabled s l)] (f : S → L → Option S) (s : S) (l : L) :
    Option S :=
  if enabled s l then f s l else none

theorem Reachable.checked {M : LTS S L} {enabled : S → L → Prop} [∀ s l, Decidable (enabled s l)]
    {f : S → L → Option S} (hf : ∀ s l s', enabled s l → f s l = some s' → M.step s l s') (ls : List L) {s s' : S}
    (hr : M.Reachable s) (e : ls.foldlM (LTS.checked enabled f) s = some s') : M.Reachable s' := by
  refine run (P := fun _ => True) (fun s l s' _ hs => ?_) ls (fun _ _ => trivial) hr e
  rw [LTS.checked] at hs
  split at hs
  · next hl => exact hf s l s' hl hs
  · cases hs

theorem Reachable.checked_guard {M : LTS S L} {P enabled : S → L → Prop} [∀ s l, Decidable (P s l)]
    [∀ s l, Decidable (enabled s l)] {f : S → L → Option S}
    (hf : ∀ s l s', enabled s l → f s l = some s' → M.step s l s') (ls : List L) {s s' : S}
    (hr : (M.guard P).Reachable s) (e : ls.foldlM (LTS.checked (fun s l => P s l ∧ enabled s l) f) s = some s') :
    (M.guard P).Reachable s' := by
  have hg : ∀ s l s', P s l ∧ enabled s l → f s l = some s' → (M.guard P).step s l s' :=
    fun s l s' hl hs => ⟨hl.1, hf s l s' hl.2 hs⟩
  exact checked hg ls hr e

end LTS
end SimpleSvr
