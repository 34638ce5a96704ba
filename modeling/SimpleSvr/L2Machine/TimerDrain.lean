import SimpleSvr.L2Machine.TimerPending

/-!
# Callbacks that use the timer

While `CheckTimer` walks the list that it cut, the callbacks of its items set,
update and clear timers by id. `Made` says which call is made by whose callback,
and in which state of the timer; there the id map gives the item that the call
is about. `drain_safe` ties each call to what the walk does with that item: it
was cleared or updated exactly if a callback asked for it, it is not invoked
then, and the rest of the list is, once each.

A call that names the id of an item reaches that item if ids tell the items
apart: they did when the walk began (`Distinct`), or the counter has not wrapped.
-/
namespace SimpleSvr.L2.Timer
open SimpleSvr.DList

variable {F D : Type} {interval : Int} {env : Env F D} {s s' u : TimerBase F D} {ch ch' : Chains}
  {cur : Option Addr} {rest rest' : List Addr} {a c : Addr} {R : Nat → Nat → Prop} {due : Addr → Nat}
  {k : UInt64} {o : Op F D} {event : Event}

/-! ## The calls of a walk -/

/-- The walk of tick `k`, from `s` with the item at `head` next, comes to the
item `c`, whose callback makes the call `o` when the timer is in state `u`. -/
inductive Made (interval : Int) (env : Env F D) (k : UInt64) (c : Addr) (u : TimerBase F D) (o : Op F D) :
    TimerBase F D → Option Addr → Prop
  | here {s : TimerBase F D} {it : TimerItem F D} {ops : List (Op F D)} (hit : s.mem c = some it)
      (hops : ops ++ [o] <+: env it.callback it.data ((s.eraseId it.timerId).emit (.invoked c k)))
      (e : runCalls interval ((s.eraseId it.timerId).emit (.invoked c k)) ops = some u) :
      Made interval env k c u o s (some c)
  | later {a : Addr} {s s₁ s₂ : TimerBase F D} {it it₁ : TimerItem F D} (hit : s.mem a = some it)
      (e : invoke interval env ((s.eraseId it.timerId).emit (.invoked a k)) a = some s₁)
      (hit₁ : s₁.mem a = some it₁) (e₁ : s₁.delete a = some s₂)
      (h : Made interval env k c u o s₂ it₁.nextItem) : Made interval env k c u o s (some a)

theorem Made.callState {head : Option Addr} (h : Made interval env k c u o s head)
    (hw : Walking interval env k head s) : CallState interval env (some c) u := by
  induction h with
  | here hit hops e => exact .callback hw hit ((List.prefix_append _ _).trans hops) e
  | later hit e hit₁ e₁ _ ih => exact ih (.next hw hit e hit₁ e₁)

/-- The callback of the next item starts. -/
theorem Walking.enter {it : TimerItem F D} (hw : Walking interval env k (some a) s) (hit : s.mem a = some it)
    (hi : Inv s ch none (a :: rest) (fun _ d => d = k.toNat) due) :
    Inv ((s.eraseId it.timerId).emit (.invoked a k)) ch (some a) rest (fun _ d => d = k.toNat) due := by
  obtain ⟨-, -, -, -, hk, -⟩ := hw.inv
  obtain ⟨it', hit', hin⟩ := hi.enter hk
  cases hit.symm.trans hit'
  exact hin

theorem invoke_calls {it : TimerItem F D} (hit : s.mem a = some it) (e : invoke interval env s a = some s') :
    runCalls interval s (env it.callback it.data s) = some s' := by
  obtain ⟨it', hit', hcalls⟩ := Option.bind_eq_some_iff.mp e
  cases hit.symm.trans hit'
  exact hcalls

/-! ## The trace of a walk -/

theorem mem_cleared : .cleared a ∈ opEvents interval u o ↔ ∃ id, o = .clear id ∧ u.timerDataMap id = some a := by
  cases o with
  | setTimeout callback timeout data tv => simp [opEvents]
  | update id timeout tv => cases hm : u.timerDataMap id <;> simp [opEvents, hm]
  | clear id => cases hm : u.timerDataMap id <;> simp [opEvents, hm, eq_comm]

theorem mem_updated : .updated a ∈ opEvents interval u o ↔
    ∃ id timeout tv, o = .update id timeout tv ∧ u.timerDataMap id = some a := by
  cases o with
  | setTimeout callback timeout data tv => simp [opEvents]
  | update id timeout tv => cases hm : u.timerDataMap id <;> simp [opEvents, hm, eq_comm]
  | clear id => cases hm : u.timerDataMap id <;> simp [opEvents, hm]

/-- The calls of one callback leave their own events, each those of its state. -/
theorem runCalls_log : ∀ (os : List (Op F D)) (s : TimerBase F D) (ch : Chains) (rest : List Addr)
    (due : Addr → Nat), Inv s ch (some a) rest R due → runCalls interval s os = some s' →
    ∃ new, s'.log = new ++ s.log ∧ ∀ event, event ∈ new ↔
      ∃ ops o u, ops ++ [o] <+: os ∧ runCalls interval s ops = some u ∧ event ∈ opEvents interval u o
  | [], s, _, _, _, _, e => by
    cases e
    refine ⟨[], rfl, fun event => iff_of_false List.not_mem_nil ?_⟩
    rintro ⟨ops, o, u, hops, -⟩
    simpa using hops.length_le
  | op :: os, s, ch, rest, due, h, e => by
    obtain ⟨s₁, e₁, e⟩ := Option.bind_eq_some_iff.mp e
    obtain ⟨s₁', ch₁, rest₁, due₁, e₁', h₁, -⟩ := h.op (.inl rfl) interval op
    cases e₁.symm.trans e₁'
    obtain ⟨new, hlog, hnew⟩ := runCalls_log os s₁ ch₁ rest₁ due₁ h₁ e
    refine ⟨new ++ opEvents interval s op, ?_, fun event => ?_⟩
    · rw [hlog, h.op_log (.inl rfl) e₁, List.append_assoc]
    · rw [List.mem_append, hnew]
      constructor
      · rintro (⟨ops, o, u, hops, hu, hm⟩ | hm)
        · refine ⟨op :: ops, o, u, List.cons_prefix_cons.mpr ⟨rfl, hops⟩, ?_, hm⟩
          simp only [runCalls, e₁, Option.bind_eq_bind, Option.bind_some]
          exact hu
        · exact ⟨[], op, s, List.cons_prefix_cons.mpr ⟨rfl, List.nil_prefix⟩, rfl, hm⟩
      · rintro ⟨ops, o, u, hops, hu, hm⟩
        cases ops with
        | nil =>
          obtain ⟨rfl, -⟩ := List.cons_prefix_cons.mp hops
          cases hu
          exact .inr hm
        | cons op' ops =>
          obtain ⟨rfl, htail⟩ := List.cons_prefix_cons.mp hops
          simp only [runCalls, e₁, Option.bind_eq_bind, Option.bind_some] at hu
          exact .inl ⟨ops, o, u, htail, hu, hm⟩

/-- Whatever else the trace of a walk holds was left by a call of a callback. -/
theorem drain_log : ∀ (n : Nat) (s : TimerBase F D) (head : Option Addr), Walking interval env k head s →
    drain interval env k n s head = some s' →
    ∃ new, s'.log = new ++ s.log ∧ ∀ event, (∀ b t, event ≠ .invoked b t) → (∀ b, event ≠ .freed b) →
      (event ∈ new ↔ ∃ c u o, Made interval env k c u o s head ∧ event ∈ opEvents interval u o)
  | n, s, none, _, e => by
    have hs : s' = s := by cases n <;> exact (Option.some.inj e).symm
    refine ⟨[], by rw [hs]; rfl, fun event _ _ => iff_of_false List.not_mem_nil ?_⟩
    rintro ⟨c, u, o, h, -⟩
    cases h
  | 0, _, some _, _, e => by cases e
  | n + 1, s, some a, hw, e => by
    obtain ⟨it, hit, e⟩ := Option.bind_eq_some_iff.mp e
    obtain ⟨s₁, e₁, e⟩ := Option.bind_eq_some_iff.mp e
    obtain ⟨it₁, hit₁, e⟩ := Option.bind_eq_some_iff.mp e
    obtain ⟨s₂, e₂, e⟩ := Option.bind_eq_some_iff.mp e
    obtain ⟨ch, rest, due, hhead, -, hi⟩ := hw.inv
    obtain ⟨rest, rfl⟩ := List.head?_eq_some_iff.mp hhead.symm
    obtain ⟨new₁, hlog₁, hnew₁⟩ := runCalls_log _ _ _ _ _ (hw.enter hit hi) (invoke_calls hit e₁)
    obtain ⟨new, hlog, hnew⟩ := drain_log n s₂ it₁.nextItem (.next hw hit e₁ hit₁ e₂) e
    refine ⟨new ++ (.freed a :: (new₁ ++ [.invoked a k])), ?_, fun event hinv hfreed => ?_⟩
    · rw [hlog, delete_log e₂, hlog₁]
      simp [TimerBase.emit, TimerBase.eraseId]
    · have hout : event ∈ new ++ (.freed a :: (new₁ ++ [.invoked a k])) ↔ event ∈ new₁ ∨ event ∈ new := by
        simp only [List.mem_append, List.mem_cons, hfreed, hinv, List.not_mem_nil, false_or, or_false]
        exact or_comm
      rw [hout, hnew₁, hnew event hinv hfreed]
      constructor
      · rintro (⟨ops, o, u, hops, hu, hm⟩ | ⟨c, u, o, h, hm⟩)
        · exact ⟨a, u, o, .here hit hops hu, hm⟩
        · exact ⟨c, u, o, .later hit e₁ hit₁ e₂ h, hm⟩
      · rintro ⟨c, u, o, h, hm⟩
        cases h with
        | here hit' hops hu =>
          cases hit.symm.trans hit'
          exact .inl ⟨_, o, u, hops, hu, hm⟩
        | later hit' e₁' hit₁' e₂' h =>
          cases hit.symm.trans hit'
          cases e₁.symm.trans e₁'
          cases hit₁.symm.trans hit₁'
          cases e₂.symm.trans e₂'
          exact .inr ⟨c, u, o, h, hm⟩

/-! ## Ids in a walk -/

/-- Live ids are distinct: each live item is the one that the map holds under its id. -/
def Distinct (s : TimerBase F D) : Prop := ∀ a it, s.mem a = some it → s.timerDataMap it.timerId = some a

/-- They are until the counter wraps. -/
theorem LoopHead.distinct (h : LoopHead interval env s) (hb : s.brk < 2 ^ 32) : Distinct s := fun a it hit => by
  obtain ⟨ch, due, hi⟩ := h.inv fun _ _ => True
  rw [hi.timerId hit]
  exact hi.ids.all hb a (hi.waits.mp ⟨by rw [hit]; rfl, nofun⟩)

/-- Of the first `n` items, each that waits is found under its id; the list
that is walked holds no other. -/
structure Kept (n : Nat) (cur : Option Addr) (rest : List Addr) (s : TimerBase F D) : Prop where
  le : n ≤ s.brk
  cut : ∀ x ∈ rest, x < n
  found : ∀ x id t, x < n → cur ≠ some x → view s x = some (id, t) → s.timerDataMap id = some x

theorem Kept.op {n : Nat} (h : Kept n cur rest s) (hop : OpCase s s' ch rest ch' rest') : Kept n cur rest' s' := by
  cases hop with
  | idle e => rw [e]; exact h
  | add t id hid hlog hview hmap hlast hbase hbrk =>
    refine ⟨by rw [hbrk]; exact Nat.le_succ_of_le h.le, h.cut, fun x i t' hx hc hv => ?_⟩
    rw [hview, if_neg (Nat.ne_of_lt (Nat.lt_of_lt_of_le hx h.le))] at hv
    rw [hmap, h.found x i t' hx hc hv, Option.some_or]
  | move id a t hm hlog hview hmap hstill =>
    refine ⟨by rw [hstill.brk]; exact h.le, fun x hx => h.cut x (List.mem_of_mem_erase hx), fun x i t' hx hc hv => ?_⟩
    rw [hmap]
    rw [hview] at hv
    split at hv
    · next e =>
      cases hv
      rw [e]
      exact hm
    · exact h.found x i t' hx hc hv
  | remove id a hm hlog hview hmap hstill =>
    refine ⟨by rw [hstill.brk]; exact h.le, fun x hx => h.cut x (List.mem_of_mem_erase hx), fun x i t' hx hc hv => ?_⟩
    rw [hview] at hv
    split at hv
    · cases hv
    next hxa =>
    have hfound := h.found x i t' hx hc hv
    rw [hmap, if_neg fun (e : i = id) => hxa (Option.some.inj (hfound.symm.trans (e ▸ hm)))]
    exact hfound

theorem Kept.enter {n : Nat} (h : Kept n none (a :: rest) s) {it : TimerItem F D} (hit : s.mem a = some it) :
    Kept n (some a) rest ((s.eraseId it.timerId).emit (.invoked a k)) where
  le := h.le
  cut x hx := h.cut x (List.mem_cons_of_mem a hx)
  found x id t hx hc hv := by
    have hfound : s.timerDataMap id = some x := h.found x id t hx nofun hv
    have hself : s.timerDataMap it.timerId = some a :=
      h.found a it.timerId it.timeval (h.cut a List.mem_cons_self) nofun (by simp [view, hit])
    refine (if_neg fun e => hc ?_).trans hfound
    rw [← hself, ← hfound, e]

theorem Kept.leave {n : Nat} (h : Kept n (some a) rest s) (e : s.delete a = some s') : Kept n none rest s' := by
  obtain ⟨it, -, rfl⟩ := Option.map_eq_some_iff.mp e
  refine ⟨h.le, h.cut, fun x id t hx _ hv => ?_⟩
  by_cases hxa : x = a
  · simp [view, TimerBase.poke, TimerBase.emit, hxa] at hv
  · refine h.found x id t hx (fun e => hxa (Option.some.inj e).symm) ?_
    simpa [view, TimerBase.poke, TimerBase.emit, hxa] using hv

theorem runCalls_kept {n : Nat} : ∀ (ops : List (Op F D)) (s : TimerBase F D) (ch : Chains) (rest : List Addr)
    (due : Addr → Nat), Inv s ch (some a) rest R due → Kept n (some a) rest s →
    runCalls interval s ops = some s' → ∃ ch' rest' due', Inv s' ch' (some a) rest' R due' ∧ Kept n (some a) rest' s'
  | [], s, ch, rest, due, h, hkept, e => by
    cases e
    exact ⟨ch, rest, due, h, hkept⟩
  | op :: ops, s, ch, rest, due, h, hkept, e => by
    obtain ⟨s₁, e₁, e⟩ := Option.bind_eq_some_iff.mp e
    obtain ⟨s₁', ch₁, rest₁, due₁, e₁', h₁, hop⟩ := h.op (.inl rfl) interval op
    cases e₁.symm.trans e₁'
    exact runCalls_kept ops s₁ ch₁ rest₁ due₁ h₁ (hkept.op hop) e

/-- However far the walk has come, an item that waits is found under its id. -/
theorem Made.kept {n : Nat} {head : Option Addr} (h : Made interval env k c u o s head) :
    ∀ {ch : Chains} {rest : List Addr} {due : Addr → Nat}, head = rest.head? → Walking interval env k head s →
      Inv s ch none rest (fun _ d => d = k.toNat) due → Kept n none rest s → ∃ rest', Kept n (some c) rest' u := by
  induction h with
  | here hit hops e =>
    intro ch rest due hhead hw hi hkept
    obtain ⟨rest, rfl⟩ := List.head?_eq_some_iff.mp hhead.symm
    obtain ⟨ch', rest', due', -, hkept'⟩ := runCalls_kept _ _ _ _ _ (hw.enter hit hi) (hkept.enter hit) e
    exact ⟨rest', hkept'⟩
  | later hit e hit₁ e₁ _ ih =>
    intro ch rest due hhead hw hi hkept
    obtain ⟨rest, rfl⟩ := List.head?_eq_some_iff.mp hhead.symm
    obtain ⟨ch', rest', due', hback, hkept'⟩ :=
      runCalls_kept _ _ _ _ _ (hw.enter hit hi) (hkept.enter hit) (invoke_calls hit e)
    obtain ⟨it', s₂, hit', hnext, e₂, hout, -⟩ := hback.leave
    cases hit₁.symm.trans hit'
    cases e₁.symm.trans e₂
    exact ih hnext (.next hw hit e hit₁ e₁) hout (hkept'.leave e₁)

/-! ## The walk and its callbacks -/

/-- Item `a` waits in `u` while the callback of `c` runs, and its id is no
other item's: either ids told the items of `s` apart, or the counter has not
wrapped. -/
structure Named (s u : TimerBase F D) (c a : Addr) (it : TimerItem F D) : Prop where
  live : u.mem a = some it
  waits : a ≠ c
  distinct : (Distinct s ∧ a < s.brk) ∨ u.brk < 2 ^ 32

/-- What the iteration that starts in `s` does to the list `d`, cut into `s₁`:
`ev` is the trace of the walk. -/
structure Drained (interval : Int) (env : Env F D) (s s₁ : TimerBase F D) (d : List Addr) (ev : List Event) :
    Prop where
  fired : ∀ a ∈ d, Untouched a ev → fires a ev = [s.lastTimeval.toNat]
  touched : ∀ a, ¬Untouched a ev → fires a ev = []
  others : ∀ a, a ∉ d → fires a ev = []
  refiled : ∀ a t L, .linked a t L ∈ ev → fires a ev = []
  freed : ∀ a, .cleared a ∈ ev ∨ fires a ev ≠ [] → ev.count (.freed a) = 1
  /-- Cleared is what a callback cleared. -/
  cleared : ∀ a, .cleared a ∈ ev ↔ ∃ c u id,
    Made interval env s.lastTimeval c u (.clear id) s₁ d.head? ∧ u.timerDataMap id = some a
  /-- Updated is what a callback updated. -/
  updated : ∀ a, .updated a ∈ ev ↔ ∃ c u id timeout tv,
    Made interval env s.lastTimeval c u (.update id timeout tv) s₁ d.head? ∧ u.timerDataMap id = some a
  added : ∀ c u callback timeout data tv,
    Made interval env s.lastTimeval c u (.setTimeout callback timeout data tv) s₁ d.head? →
    .linked u.brk (expiry interval timeout tv) u.lastTimeval ∈ ev ∧ fires u.brk ev = []
  /-- An item whose id a callback clears is not invoked and freed once. -/
  clearedById : ∀ c u a it, Made interval env s.lastTimeval c u (.clear it.timerId) s₁ d.head? →
    Named s u c a it → .cleared a ∈ ev ∧ fires a ev = [] ∧ ev.count (.freed a) = 1
  /-- An item whose id a callback updates is not invoked in this walk. -/
  updatedById : ∀ c u a it timeout tv,
    Made interval env s.lastTimeval c u (.update it.timerId timeout tv) s₁ d.head? →
    Named s u c a it → .updated a ∈ ev ∧ fires a ev = []

/-- The iteration that starts in `s` cuts the list `d` and walks it to its
end, with every access valid. -/
def DrainSafe (interval : Int) (env : Env F D) (s : TimerBase F D) : Prop :=
  ∃ s₁ d s' ev ch, detach s = some (s₁, d.head?) ∧ (∃ p, Seg (links s₁) p d none) ∧ d.Nodup ∧
    drain interval env s.lastTimeval s₁.brk s₁ d.head? = some s' ∧ s'.log = ev ++ s₁.log ∧
    Drained interval env s s₁ d ev ∧ Lists s' ch

/-- While the walk lasts, the id of a waiting item leads to it. -/
theorem Named.found {s₁ : TimerBase F D} {d : List Addr} {it : TimerItem F D} (hn : Named s u c a it)
    (hw : Walking interval env k d.head? s₁) (hcut : detach s = some (s₁, d.head?))
    (hi : Inv s₁ ch none d (fun _ d => d = k.toNat) due) (h : Made interval env k c u o s₁ d.head?) :
    u.timerDataMap it.timerId = some a := by
  have hview : view u a = some (it.timerId, it.timeval) := by simp [view, hn.live]
  have hca : some c ≠ some a := fun e => hn.waits (Option.some.inj e).symm
  rcases hn.distinct with ⟨hdist, hlt⟩ | hlt
  · -- it was found when the list was cut
    have hsame := detach_same hcut
    have hcutKept : Kept s.brk none d s₁ := by
      refine ⟨Nat.le_of_eq hsame.brk.symm, fun x hx => hsame.brk ▸ hi.linked.known_lt (.inr hx), ?_⟩
      intro x id t _ _ hv
      obtain ⟨it₁, hit₁, hid₁⟩ := Option.map_eq_some_iff.mp hv
      cases hid₁
      have hx : content s x = some (it₁.timerId, it₁.callback, it₁.data) := by
        rw [← hsame.content, content, hit₁, Option.map_some]
      obtain ⟨it₀, hit₀, hid₀⟩ := Option.map_eq_some_iff.mp hx
      have hid : it₀.timerId = it₁.timerId := congrArg Prod.fst hid₀
      rw [hsame.map, ← hid]
      exact hdist x it₀ hit₀
    obtain ⟨rest, hkept⟩ := h.kept rfl hw hi hcutKept
    exact hkept.found a _ _ hlt hca hview
  · obtain ⟨ch', rest, R, due', hu, -⟩ := (h.callState hw).inv
    rw [hu.timerId hn.live]
    exact hu.ids.all hlt a (hu.waits.mp ⟨by rw [hn.live]; rfl, hca⟩)

/-- The iteration is safe whatever timer calls its callbacks make, and every
call does to the walk what it says. -/
theorem drain_safe (h : LoopHead interval env s) (hlt : s.lastTimeval.toNat < 2 ^ 63) :
    DrainSafe interval env s := by
  obtain ⟨ch, due, hs⟩ := h.inv fun _ _ => True
  obtain ⟨s₁, ch₁, d, s', ch', due', ev, e₁, h₁, e', -, hlog, h', w⟩ := tick_spec interval env hs hlt
  have hdrain : drain interval env s.lastTimeval s₁.brk s₁ d.head? = some s' := by
    simpa only [tick, e₁, Option.bind_eq_bind, Option.bind_some] using e'
  have hw : Walking interval env s.lastTimeval d.head? s₁ := .cut h hlt e₁
  obtain ⟨new, hnew, traced⟩ := drain_log _ _ _ hw hdrain
  cases List.append_cancel_right (hlog.symm.trans hnew)
  have touched : ∀ a, ¬Untouched a ev → fires a ev = [] := fun a hu => by
    by_cases hd : a ∈ d
    · exact ((w.behind a hd List.not_mem_nil).resolve_left fun hb => hu hb.1).2
    · exact w.others a hd
  have refiled : ∀ a t L, .linked a t L ∈ ev → fires a ev = [] := fun a t L hm => by
    by_cases hd : a ∈ d
    · exact touched a (w.refiled a t L hm hd)
    · exact w.others a hd
  have freed : ∀ a, .cleared a ∈ ev ∨ fires a ev ≠ [] → ev.count (.freed a) = 1 := fun a ha => by
    -- freed in the walk, and at most once in the whole trace
    have hpos := List.count_pos_iff.mpr ((w.freed a ha).resolve_left (by simp))
    have hle : ev.count (.freed a) ≤ s'.log.count (.freed a) := by
      rw [hlog, List.count_append]; exact Nat.le_add_right _ _
    have hone : s'.log.count (.freed a) ≤ 1 := by rw [h'.frees a]; split <;> decide
    exact Nat.le_antisymm (Nat.le_trans hle hone) hpos
  have cleared : ∀ a, .cleared a ∈ ev ↔ ∃ c u id,
      Made interval env s.lastTimeval c u (.clear id) s₁ d.head? ∧ u.timerDataMap id = some a := fun a => by
    rw [traced (.cleared a) (fun _ _ => Event.noConfusion) fun _ => Event.noConfusion]
    constructor
    · rintro ⟨c, u, o, hmade, hm⟩
      obtain ⟨id, rfl, hid⟩ := mem_cleared.mp hm
      exact ⟨c, u, id, hmade, hid⟩
    · rintro ⟨c, u, id, hmade, hid⟩
      exact ⟨c, u, _, hmade, mem_cleared.mpr ⟨id, rfl, hid⟩⟩
  have updated : ∀ a, .updated a ∈ ev ↔ ∃ c u id timeout tv,
      Made interval env s.lastTimeval c u (.update id timeout tv) s₁ d.head? ∧
        u.timerDataMap id = some a := fun a => by
    rw [traced (.updated a) (fun _ _ => Event.noConfusion) fun _ => Event.noConfusion]
    constructor
    · rintro ⟨c, u, o, hmade, hm⟩
      obtain ⟨id, timeout, tv, rfl, hid⟩ := mem_updated.mp hm
      exact ⟨c, u, id, timeout, tv, hmade, hid⟩
    · rintro ⟨c, u, id, timeout, tv, hmade, hid⟩
      exact ⟨c, u, _, hmade, mem_updated.mpr ⟨id, timeout, tv, rfl, hid⟩⟩
  refine ⟨s₁, d, s', ev, ch', e₁, h₁.linked.detSeg, h₁.linked.detNodup, hdrain, hlog,
    { fired := fun a hd hu => ((w.behind a hd List.not_mem_nil).resolve_right fun hb => hb.1 hu).2.1
      touched, others := w.others, refiled, freed, cleared, updated, added := ?_, clearedById := ?_,
      updatedById := ?_ }, Linked.lists h'.linked⟩
  · intro c u callback timeout data tv hmade
    have hm : .linked u.brk (expiry interval timeout tv) u.lastTimeval ∈ ev :=
      (traced _ (fun _ _ => Event.noConfusion) fun _ => Event.noConfusion).mpr
        ⟨c, u, _, hmade, List.mem_singleton_self _⟩
    exact ⟨hm, refiled _ _ _ hm⟩
  · intro c u a it hmade hn
    have hm : .cleared a ∈ ev := (cleared a).mpr ⟨c, u, _, hmade, hn.found hw e₁ h₁ hmade⟩
    exact ⟨hm, touched a fun hu => hu.2 hm, freed a (.inl hm)⟩
  · intro c u a it timeout tv hmade hn
    have hm : .updated a ∈ ev := (updated a).mpr ⟨c, u, _, timeout, tv, hmade, hn.found hw e₁ h₁ hmade⟩
    exact ⟨hm, touched a fun hu => hu.1 hm⟩

/-- The callback of an item that holds `true` clears the first timer, moves the
second one and sets another for the tick that is walked. -/
def meddle : Env Bool Unit := fun f _ _ =>
  if f then [.clear 1, .update 2 5 ⟨0, 3000⟩, .setTimeout false 0 () ⟨0, 3000⟩] else []

/-- Three items for one tick; the callback of the third, at the head of the
list, meddles with the two behind it. -/
theorem drain_safe_run : ∃ s s₁ s' ev u₁ u₂ u₃, runFrom meddle [.op (.setTimeout false 0 () ⟨0, 3000⟩),
      .op (.setTimeout false 0 () ⟨0, 3000⟩), .op (.setTimeout true 0 () ⟨0, 3000⟩)] = some s ∧
    DrainSafe 1 meddle s ∧ detach s = some (s₁, some 2) ∧
    drain 1 meddle 3 s₁.brk s₁ (some 2) = some s' ∧ s'.log = ev ++ s₁.log ∧
    (Made 1 meddle 3 2 u₁ (.clear 1) s₁ (some 2) ∧ .cleared 0 ∈ ev ∧ fires 0 ev = [] ∧ ev.count (.freed 0) = 1) ∧
    (Made 1 meddle 3 2 u₂ (.update 2 5 ⟨0, 3000⟩) s₁ (some 2) ∧ .updated 1 ∈ ev ∧ fires 1 ev = []) ∧
    Made 1 meddle 3 2 u₃ (.setTimeout false 0 () ⟨0, 3000⟩) s₁ (some 2) ∧ u₃.brk = 3 ∧ fires 3 ev = [] := by
  obtain ⟨s, e⟩ := Option.isSome_iff_exists.mp (show (runFrom meddle [.op (.setTimeout false 0 () ⟨0, 3000⟩),
    .op (.setTimeout false 0 () ⟨0, 3000⟩), .op (.setTimeout true 0 () ⟨0, 3000⟩)]).isSome by rfl)
  have hbase : s.lastTimeval = 3 := value_of TimerBase.lastTimeval e rfl
  have hbrk : s.brk = 3 := value_of TimerBase.brk e rfl
  have hhead : LoopHead 1 meddle s := .enter (runFrom_reachable (by decide) e)
  have hsafe : DrainSafe 1 meddle s := drain_safe hhead (by rw [hbase]; decide)
  have ⟨s₁, d, s', ev, ch, hcut, _, _, hdrain, hlog, walk, _⟩ := hsafe
  -- the states in which the three calls are made
  have hprobe := value_of (fun s => (detach s).bind fun cut => (cut.1.mem 2).bind fun it =>
      (runCalls 1 ((cut.1.eraseId it.timerId).emit (.invoked 2 3)) [.clear 1]).bind fun u₂ =>
      (runCalls 1 ((cut.1.eraseId it.timerId).emit (.invoked 2 3)) [.clear 1, .update 2 5 ⟨0, 3000⟩]).map fun u₃ =>
        (cut.2, it.callback, (cut.1.mem 0).map (·.timerId), (u₂.mem 1).map (·.timerId), u₂.brk, u₃.brk))
    (v := some (some 2, true, some 1, some 2, 3, 3)) e rfl
  simp only [hcut, Option.bind_some, Option.bind_eq_some_iff, Option.map_eq_some_iff, Prod.mk.injEq] at hprobe
  obtain ⟨it, hit, u₂, e₂, u₃, e₃, hfirst, hcallback, ⟨it₀, hit₀, hid₀⟩, ⟨it₁, hit₁, hid₁⟩, hbrk₂, hbrk₃⟩ := hprobe
  have hcalls : ∀ u, meddle it.callback it.data u =
      [.clear 1, .update 2 5 ⟨0, 3000⟩, .setTimeout false 0 () ⟨0, 3000⟩] := fun u => by rw [hcallback]; rfl
  have e₁ : runCalls 1 ((s₁.eraseId it.timerId).emit (.invoked 2 3)) [] = some _ := rfl
  have clears : Made 1 meddle 3 2 ((s₁.eraseId it.timerId).emit (.invoked 2 3)) (.clear 1) s₁ (some 2) :=
    .here hit (by rw [hcalls]; exact ⟨_, rfl⟩) e₁
  have updates : Made 1 meddle 3 2 u₂ (.update 2 5 ⟨0, 3000⟩) s₁ (some 2) :=
    .here hit (by rw [hcalls]; exact ⟨_, rfl⟩) e₂
  have sets : Made 1 meddle 3 2 u₃ (.setTimeout false 0 () ⟨0, 3000⟩) s₁ (some 2) :=
    .here hit (by rw [hcalls]; exact ⟨_, rfl⟩) e₃
  obtain ⟨-, -, -, -, -, -, -, added, clearedById, updatedById⟩ := walk
  simp only [hfirst, hbase] at hcut hdrain added clearedById updatedById
  refine ⟨s, s₁, s', ev, _, u₂, u₃, e, hsafe, hcut, hdrain, hlog, ⟨clears, ?_⟩, ⟨updates, ?_⟩, sets, hbrk₃, ?_⟩
  · have hdist : Distinct s := hhead.distinct (by rw [hbrk]; decide)
    rw [← hid₀] at clears
    exact clearedById _ _ _ it₀ clears ⟨hit₀, by decide, .inl ⟨hdist, by rw [hbrk]; decide⟩⟩
  · rw [← hid₁] at updates
    exact updatedById _ _ _ it₁ _ _ updates ⟨hit₁, by decide, .inr (by rw [hbrk₂]; decide)⟩
  · rw [← hbrk₃]
    exact (added _ _ _ _ _ _ sets).2

end SimpleSvr.L2.Timer
