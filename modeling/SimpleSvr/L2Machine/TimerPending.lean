import SimpleSvr.L2Machine.TimerIds
import SimpleSvr.L2Machine.TimerSteps
import SimpleSvr.L2Machine.Pending

/-!
# The timer as its users see it

What uses a timer is modelled over `Pending`: the ids that are pending, each with
what its callback gets. Here the operations on it are a system of their own
(`Pending.system`); its guards are those that the models of the users put on their
labels. `MachineStep.simulated` and `wheel_simulated` show that the timer
implements it: stopped anywhere, between two calls or in a callback, the items
that wait are the pending ids, `SetTimeout` adds one that was never in use,
`Clear` drops one, and `CheckTimer` drops an id before it runs its callback. This
is so until the 2^32th `SetTimeout` (`timer_ids_wrap` shows what happens then).
-/
namespace SimpleSvr.L2

/-! ## Pending timers -/

namespace Pending

/-- What is done with timers that anyone sees. -/
inductive Label (D : Type) where
  | quiet
  | set (id : UInt32) (d : D)
  | clear (id : UInt32)
  | expire (id : UInt32) (d : D)

/-- `used` are the ids that were ever in use. -/
structure Timers (D : Type) where
  pending : Pending D := []
  used : List UInt32 := []

variable {D : Type}

def Timers.enabled (t : Timers D) : Label D → Prop
  | .quiet | .clear _ => True
  | .set id _ => id ∉ t.used ∧ id ≠ 0
  | .expire id d => (id, d) ∈ t.pending

def Timers.step (t : Timers D) : Label D → Timers D
  | .quiet => t
  | .set id d => { pending := (id, d) :: t.pending, used := id :: t.used }
  | .clear id | .expire id _ => { t with pending := t.pending.clear id }

def system (D : Type) : LTS (Timers D) (Label D) where
  init t := t = {}
  step t l t' := t.enabled l ∧ t' = t.step l

end Pending

namespace Timer
open Pending (Timers)

variable {F D : Type} {interval : Int} {env : Env F D} {s s' s₁ : TimerBase F D} {ch : Chains} {cur : Option Addr}
  {rest : List Addr} {a x : Addr} {R : Nat → Nat → Prop} {due : Addr → Nat} {pc pc' : CheckPc} {id : UInt32}
  {callback : F} {data : D} {t : Timers (F × D)} {timeout : Int} {tv : Timeval}

/-! ## What an item holds -/

/-- The id of an item and what its callback gets. -/
def content (s : TimerBase F D) (a : Addr) : Option (UInt32 × F × D) :=
  (s.mem a).map fun it => (it.timerId, it.callback, it.data)

/-- No item was added, deleted or named anew. -/
structure Same (s s' : TimerBase F D) : Prop where
  map : s'.timerDataMap = s.timerDataMap
  brk : s'.brk = s.brk
  content : ∀ x, content s' x = content s x

theorem Same.refl (s : TimerBase F D) : Same s s := ⟨rfl, rfl, fun _ => rfl⟩

theorem Same.trans (h : Same s s₁) (h' : Same s₁ s') : Same s s' :=
  ⟨h'.map.trans h.map, h'.brk.trans h.brk, fun x => (h'.content x).trans (h.content x)⟩

theorem modify_same {f : TimerItem F D → TimerItem F D} (e : s.modify a f = some s')
    (hf : ∀ it, ((f it).timerId, (f it).callback, (f it).data) = (it.timerId, it.callback, it.data)) :
    Same s s' := by
  obtain ⟨it, hit, rfl⟩ := Option.map_eq_some_iff.mp e
  refine ⟨rfl, rfl, fun x => ?_⟩
  simp only [content, TimerBase.poke]
  split
  · next hx => rw [hx, hit, Option.map_some, Option.map_some, hf]
  · rfl

theorem internalAddTimerItem_same (e : internalAddTimerItem s a = some s') : Same s s' := by
  obtain ⟨it, -, e⟩ := Option.bind_eq_some_iff.mp e
  obtain ⟨s₁, e₁, e⟩ := Option.bind_eq_some_iff.mp e
  have h₁ : Same s s₁ := modify_same e₁ fun _ => rfl
  dsimp only at e
  split at e
  · cases e
    exact ⟨h₁.map, h₁.brk, h₁.content⟩
  · obtain ⟨s₂, e₂, e⟩ := Option.bind_eq_some_iff.mp e
    obtain ⟨s₃, e₃, e⟩ := Option.bind_eq_some_iff.mp e
    cases e
    have h₂ : Same (s₁.emit _) s₂ := modify_same e₂ fun _ => rfl
    have h₃ : Same s₂ s₃ := modify_same e₃ fun _ => rfl
    have h : Same s s₃ := (h₁.trans ⟨h₂.map, h₂.brk, h₂.content⟩).trans h₃
    exact ⟨h.map, h.brk, h.content⟩

theorem unlinkNext_same {it : TimerItem F D} (e : unlinkNext s it = some s') : Same s s' := by
  unfold unlinkNext at e
  split at e
  · exact modify_same e fun _ => rfl
  · cases e
    exact .refl s

theorem unlinkPrev_same {it : TimerItem F D} (e : unlinkPrev s it = some s') : Same s s' := by
  unfold unlinkPrev at e
  split at e
  · exact modify_same e fun _ => rfl
  · obtain ⟨b, -, rfl⟩ := Option.map_eq_some_iff.mp e
    exact ⟨rfl, rfl, fun _ => rfl⟩

theorem unlink_same (e : unlink s a = some s') : Same s s' := by
  obtain ⟨it, -, e⟩ := Option.bind_eq_some_iff.mp e
  obtain ⟨s₁, e₁, e⟩ := Option.bind_eq_some_iff.mp e
  obtain ⟨it₁, -, e⟩ := Option.bind_eq_some_iff.mp e
  exact (unlinkNext_same e₁).trans (unlinkPrev_same e)

theorem update_same (e : update interval s id timeout tv = some s') : Same s s' := by
  unfold update at e
  split at e
  · cases e
    exact .refl s
  · obtain ⟨s₁, e₁, e⟩ := Option.bind_eq_some_iff.mp e
    obtain ⟨s₂, e₂, e⟩ := Option.bind_eq_some_iff.mp e
    have h₂ : Same s s₂ := (unlink_same e₁).trans (modify_same e₂ fun _ => rfl)
    have h₃ : Same (s₂.emit _) s' := internalAddTimerItem_same e
    exact h₂.trans ⟨h₃.map, h₃.brk, h₃.content⟩

theorem cascadeList_same : ∀ (n : Nat) (s : TimerBase F D) (head : Option Addr),
    cascadeList n s head = some s' → Same s s'
  | 0, s, none, e | n + 1, s, none, e => by
    cases e
    exact .refl _
  | n + 1, s, some a, e => by
    obtain ⟨it, -, e⟩ := Option.bind_eq_some_iff.mp e
    obtain ⟨s₁, e₁, e⟩ := Option.bind_eq_some_iff.mp e
    obtain ⟨s₂, e₂, e⟩ := Option.bind_eq_some_iff.mp e
    have h₂ : Same s s₂ := (modify_same e₁ fun _ => rfl).trans (internalAddTimerItem_same e₂)
    exact h₂.trans (cascadeList_same n s₂ _ e)

theorem cascades_same : ∀ (ns : List (Fin 4)) (s : TimerBase F D), cascades s ns = some s' → Same s s'
  | [], s, e => by
    cases e
    exact .refl _
  | n :: ns, s, e => by
    obtain ⟨r, hr, e⟩ := Option.bind_eq_some_iff.mp e
    obtain ⟨s₁, e₁, hs₁⟩ := Option.bind_eq_some_iff.mp hr
    cases hs₁
    have hlist : Same (s.setVector _ none) s₁ := cascadeList_same _ _ _ e₁
    have h₁ : Same s s₁ := ⟨hlist.map, hlist.brk, hlist.content⟩
    dsimp only at e
    split at e
    · cases e
      exact h₁
    · exact h₁.trans (cascades_same ns s₁ e)

theorem detach_same {head : Option Addr} (e : detach s = some (s', head)) : Same s s' := by
  simp only [detach, Option.bind_eq_bind] at e
  split at e
  · obtain ⟨s₁, e₁, e⟩ := Option.bind_eq_some_iff.mp e
    cases e
    have h₁ : Same s s₁ := cascades_same _ s e₁
    exact ⟨h₁.map, h₁.brk, h₁.content⟩
  · cases e
    exact ⟨rfl, rfl, fun _ => rfl⟩

theorem delete_content (e : s.delete a = some s') :
    s'.brk = s.brk ∧ ∀ x, content s' x = if x = a then none else content s x := by
  obtain ⟨it, -, rfl⟩ := Option.map_eq_some_iff.mp e
  refine ⟨rfl, fun x => ?_⟩
  simp only [content, TimerBase.emit, TimerBase.poke]
  split <;> rfl

theorem clear_content (hm : s.timerDataMap id = some a) (e : clear s id = some s') :
    s'.brk = s.brk ∧ ∀ x, content s' x = if x = a then none else content s x := by
  simp only [clear, hm] at e
  obtain ⟨s₁, e₁, e⟩ := Option.bind_eq_some_iff.mp e
  obtain ⟨s₂, e₂, e⟩ := Option.bind_eq_some_iff.mp e
  cases e
  have h₁ : Same s s₁ := unlink_same e₁
  obtain ⟨hbrk, hcontent⟩ := delete_content e₂
  refine ⟨hbrk.trans h₁.brk, fun x => (hcontent x).trans ?_⟩
  rw [← h₁.content x]
  rfl

theorem setTimeout_content (e : setTimeout interval s callback timeout data tv = some (s', id)) :
    id = s.lastTimerId + 1 ∧ s'.brk = s.brk + 1 ∧
      ∀ x, content s' x = if x = s.brk then some (id, callback, data) else content s x := by
  obtain ⟨s₁, e₁, e⟩ := Option.bind_eq_some_iff.mp e
  cases e
  have h₁ := internalAddTimerItem_same e₁
  refine ⟨rfl, ?_, fun x => ?_⟩
  · rw [insertId_rest]
    exact h₁.brk
  · rw [insertId_rest]
    refine (h₁.content x).trans ?_
    simp only [content, TimerBase.poke]
    split <;> rfl

/-! ## The pending ids of a timer -/

/-- The items that wait are the pending ids, and the ids in use are those of all items so far. -/
structure Shows (cur : Option Addr) (s : TimerBase F D) (t : Timers (F × D)) : Prop where
  pending : ∀ e, e ∈ t.pending ↔ ∃ a, cur ≠ some a ∧ content s a = some e
  used : ∀ id, id ∈ t.used ↔ ∃ a < s.brk, id = UInt32.ofNat (a + 1)

theorem Shows.same (h : Shows cur s t) (hs : Same s s') : Shows cur s' t := by
  refine ⟨fun e => ?_, by rw [hs.brk]; exact h.used⟩
  simp only [hs.content]
  exact h.pending e

/-- While the counter has not wrapped, an item that waits is found under its id. -/
theorem Inv.found (h : Inv s ch cur rest R due) (hb : s.brk < 2 ^ 32) (hc : cur ≠ some x) {e : UInt32 × F × D}
    (he : content s x = some e) : s.timerDataMap e.1 = some x := by
  obtain ⟨it, hit, rfl⟩ := Option.map_eq_some_iff.mp he
  rw [h.timerId hit]
  exact h.ids.all hb x (h.waits.mp ⟨by rw [hit]; rfl, hc⟩)

theorem Shows.set (hs : Shows cur s t) (h : Inv s ch cur rest R due) (hb : s.brk + 1 < 2 ^ 32)
    (e : setTimeout interval s callback timeout data tv = some (s', id)) :
    t.enabled (.set id (callback, data)) ∧ Shows cur s' (t.step (.set id (callback, data))) := by
  obtain ⟨hid, hbrk, hcontent⟩ := setTimeout_content e
  have hid : id = UInt32.ofNat (s.brk + 1) := hid.trans h.nextId
  refine ⟨⟨fun hu => ?_, fun h0 => ?_⟩, fun e' => ?_, fun i => ?_⟩
  · obtain ⟨a, ha, heq⟩ := (hs.used id).mp hu
    have hmod := (ofNat_eq_succ (Nat.le_of_lt ha)).mp (heq.symm.trans hid)
    rw [Nat.mod_eq_of_lt (Nat.lt_of_le_of_lt (Nat.sub_le _ _) (Nat.lt_of_succ_lt hb))] at hmod
    exact Nat.ne_of_gt (Nat.sub_pos_of_lt ha) hmod
  · have hmod := ofNat_eq_zero.mp (hid.symm.trans h0)
    rw [Nat.mod_eq_of_lt hb] at hmod
    exact Nat.succ_ne_zero _ hmod
  · have hcur : cur ≠ some s.brk := fun hc => by
      have hlive : (s.mem s.brk).isSome := (h.linked.live _).mpr (.inr (.inl (by simp [hc])))
      exact Nat.lt_irrefl _ (h.linked.lt_brk hlive)
    have hnone : content s s.brk = none := by rw [content, h.linked.fresh _ (Nat.le_refl _)]; rfl
    show e' ∈ (id, callback, data) :: t.pending ↔ _
    rw [List.mem_cons, hs.pending]
    constructor
    · rintro (rfl | ⟨a, hc, ha⟩)
      · exact ⟨s.brk, hcur, by rw [hcontent, if_pos rfl]⟩
      · have hne : a ≠ s.brk := fun hab => by rw [hab, hnone] at ha; cases ha
        exact ⟨a, hc, by rw [hcontent, if_neg hne, ha]⟩
    · rintro ⟨a, hc, ha⟩
      rw [hcontent] at ha
      split at ha
      · cases ha
        exact .inl rfl
      · exact .inr ⟨a, hc, ha⟩
  · show i ∈ id :: t.used ↔ _
    rw [List.mem_cons, hs.used, hbrk]
    constructor
    · rintro (rfl | ⟨a, ha, hi⟩)
      · exact ⟨s.brk, Nat.lt_succ_self _, hid⟩
      · exact ⟨a, Nat.lt_succ_of_lt ha, hi⟩
    · rintro ⟨a, ha, hi⟩
      rcases Nat.lt_succ_iff_lt_or_eq.mp ha with ha | rfl
      · exact .inr ⟨a, ha, hi⟩
      · exact .inl (hi.trans hid.symm)

/-- The item that is found under `id` stops to wait. -/
theorem Shows.drop (hs : Shows cur s t) (h : Inv s ch cur rest R due) (hb : s.brk < 2 ^ 32) {cur' : Option Addr}
    (hbrk : s'.brk = s.brk)
    (hleft : ∀ x e, (cur' ≠ some x ∧ content s' x = some e) ↔
      (cur ≠ some x ∧ content s x = some e) ∧ s.timerDataMap id ≠ some x)
    (hown : ∀ x e, s.timerDataMap id = some x → content s x = some e → e.1 = id) :
    Shows cur' s' (t.step (.clear id)) := by
  refine ⟨fun e => ?_, by rw [hbrk]; exact hs.used⟩
  show e ∈ t.pending.clear id ↔ _
  rw [Pending.mem_clear, hs.pending]
  simp only [hleft]
  constructor
  · rintro ⟨⟨x, hc, hx⟩, hne⟩
    exact ⟨x, ⟨hc, hx⟩, fun hm => hne (hown x e hm hx)⟩
  · rintro ⟨x, ⟨hc, hx⟩, hne⟩
    exact ⟨⟨x, hc, hx⟩, fun he => hne (he ▸ h.found hb hc hx)⟩

/-- What the map holds under an id has that id. -/
theorem Inv.content_id (h : Inv s ch cur rest R due) {e : UInt32 × F × D} (hm : s.timerDataMap id = some x)
    (he : content s x = some e) : e.1 = id := by
  obtain ⟨it, hit, rfl⟩ := Option.map_eq_some_iff.mp he
  obtain ⟨-, t, hv⟩ := h.ids.known id x hm
  simp only [view, hit, Option.map_some, Option.some.injEq, Prod.mk.injEq] at hv
  exact hv.1

theorem Shows.clear (hs : Shows cur s t) (h : Inv s ch cur rest R due) (hb : s.brk < 2 ^ 32)
    (e : clear s id = some s') : Shows cur s' (t.step (.clear id)) := by
  cases hm : s.timerDataMap id with
  | none =>
    have heq : s' = s := by simpa [Timer.clear, hm, eq_comm] using e
    rw [heq]
    exact hs.drop h hb rfl (fun x e => by rw [hm]; simp) fun x e hx => by rw [hm] at hx; cases hx
  | some a =>
    obtain ⟨hbrk, hcontent⟩ := clear_content hm e
    refine hs.drop h hb hbrk (fun x e => ?_) fun x e => h.content_id
    rw [hcontent, hm]
    by_cases hx : x = a
    · simp [hx]
    · simp [hx, Ne.symm hx]

/-- The walk takes the next item. -/
theorem Shows.expire (hs : Shows none s t) (h : Inv s ch none (a :: rest) R due) (hb : s.brk < 2 ^ 32)
    {it : TimerItem F D} (hit : s.mem a = some it) (k : UInt64) :
    t.enabled (.expire it.timerId (it.callback, it.data)) ∧
      Shows (some a) ((s.eraseId it.timerId).emit (.invoked a k))
        (t.step (.expire it.timerId (it.callback, it.data))) := by
  have hcontent : content s a = some (it.timerId, it.callback, it.data) := by rw [content, hit]; rfl
  have hm : s.timerDataMap it.timerId = some a := h.found hb nofun hcontent
  refine ⟨(hs.pending _).mpr ⟨a, nofun, hcontent⟩, ?_⟩
  refine hs.drop h hb rfl (fun x e => ?_) fun x e => h.content_id
  show some a ≠ some x ∧ content s x = some e ↔ _
  rw [hm]
  simp [and_comm]

/-- The callback is back. -/
theorem Shows.leave (hs : Shows (some a) s t) (e : s.delete a = some s') : Shows none s' t := by
  obtain ⟨hbrk, hcontent⟩ := delete_content e
  refine ⟨fun e => ?_, by rw [hbrk]; exact hs.used⟩
  rw [hs.pending]
  refine exists_congr fun x => ?_
  rw [hcontent]
  by_cases hx : x = a
  · simp [hx]
  · simp [hx, Ne.symm hx]

/-! ## The simulation -/

/-- The item whose callback runs. -/
def CheckPc.running : CheckPc → Option Addr
  | .callback _ _ a => some a
  | _ => none

/-- What is seen of a step of `CheckTimer`. -/
def advanceLabel (s : TimerBase F D) : CheckPc → Pending.Label (F × D)
  | .walk _ _ (some a) => (s.mem a).elim .quiet fun it => .expire it.timerId (it.callback, it.data)
  | _ => .quiet

/-- A step of the timer, stopped wherever other code can look. A `CheckTimer` whose reading is behind the
base does nothing. -/
inductive MachineStep (interval : Int) :
    TimerBase F D × CheckPc → Pending.Label (F × D) → TimerBase F D × CheckPc → Prop
  | setTimeout {s s' : TimerBase F D} {pc : CheckPc} {callback : F} {timeout : Int} {data : D} {tv : Timeval}
      {id : UInt32} (hpc : pc.Callable) (e : setTimeout interval s callback timeout data tv = some (s', id)) :
      MachineStep interval (s, pc) (.set id (callback, data)) (s', pc)
  | update {s s' : TimerBase F D} {pc : CheckPc} {id : UInt32} {timeout : Int} {tv : Timeval} (hpc : pc.Callable)
      (e : update interval s id timeout tv = some s') : MachineStep interval (s, pc) .quiet (s', pc)
  | clear {s s' : TimerBase F D} {pc : CheckPc} {id : UInt32} (hpc : pc.Callable) (e : clear s id = some s') :
      MachineStep interval (s, pc) (.clear id) (s', pc)
  | checkTimer {s : TimerBase F D} {tv : Timeval} (hr : InRange interval tv)
      (hle : s.lastTimeval ≤ getTimeval interval tv) :
      MachineStep interval (s, .returned) .quiet (s, .loop (getTimeval interval tv))
  | advance {s s' : TimerBase F D} {pc pc' : CheckPc} (e : advance s pc = some (s', pc')) :
      MachineStep interval (s, pc) (advanceLabel s pc) (s', pc')

def machine (interval : Int) : LTS (TimerBase F D × CheckPc) (Pending.Label (F × D)) where
  init c := ∃ tv, InRange interval tv ∧ c = (construct interval tv, .returned)
  step := MachineStep interval

theorem Stands.inv (h : Stands s pc) : ∃ ch rest R due, Inv s ch pc.running rest R due := by
  cases pc with
  | returned =>
    obtain ⟨ch, due, h⟩ := h
    exact ⟨ch, [], _, due, h⟩
  | loop now =>
    obtain ⟨-, ch, due, h⟩ := h
    exact ⟨ch, [], _, due, h⟩
  | walk now k head =>
    obtain ⟨-, ch, rest, due, -, h⟩ := h
    exact ⟨ch, rest, _, due, h⟩
  | callback now k a =>
    obtain ⟨-, ch, rest, due, h⟩ := h
    exact ⟨ch, rest, _, due, h⟩

theorem advance_brk (e : advance s pc = some (s', pc')) : s'.brk = s.brk := by
  cases pc with
  | returned => cases e
  | loop now =>
    simp only [advance] at e
    split at e
    · obtain ⟨c, hc, e⟩ := Option.map_eq_some_iff.mp e
      cases e
      exact (detach_same hc).brk
    · cases e
      rfl
  | walk now k head =>
    cases head with
    | none =>
      cases e
      rfl
    | some a =>
      obtain ⟨it, -, e⟩ := Option.map_eq_some_iff.mp e
      cases e
      rfl
  | callback now k a =>
    obtain ⟨it, -, e⟩ := Option.bind_eq_some_iff.mp e
    obtain ⟨s₁, e₁, e⟩ := Option.bind_eq_some_iff.mp e
    cases e
    exact (delete_content e₁).1

theorem clear_brk (e : clear s id = some s') : s'.brk = s.brk := by
  cases hm : s.timerDataMap id with
  | none =>
    simp only [clear, hm, Option.some.injEq] at e
    rw [e]
  | some a => exact (clear_content hm e).1

theorem Stands.applied (h : Stands s pc) (hpc : pc.Callable) {o : Op F D} (e : applyOp interval s o = some s') :
    Stands s' pc := by
  obtain ⟨s₁, e₁, h₁, -⟩ := h.op hpc interval o
  cases e.symm.trans e₁
  exact h₁

/-- The timer stands wherever it is stopped, and counts its items up. -/
theorem MachineStep.stands {l : Pending.Label (F × D)} (h : Stands s pc)
    (hstep : MachineStep interval (s, pc) l (s', pc')) : Stands s' pc' ∧ s.brk ≤ s'.brk := by
  cases hstep with
  | @setTimeout _ _ _ callback timeout data tv id hpc e =>
    have happ : applyOp interval s (.setTimeout callback timeout data tv) = some s' := by
      simp only [applyOp, e, Option.map_some]
    exact ⟨h.applied hpc happ, (setTimeout_content e).2.1 ▸ Nat.le_succ _⟩
  | @update _ _ _ id timeout tv hpc e =>
    have happ : applyOp interval s (.update id timeout tv) = some s' := e
    exact ⟨h.applied hpc happ, Nat.le_of_eq (update_same e).brk.symm⟩
  | @clear _ _ _ id hpc e =>
    have happ : applyOp interval s (.clear id) = some s' := e
    exact ⟨h.applied hpc happ, Nat.le_of_eq (clear_brk e).symm⟩
  | checkTimer hr hle => exact ⟨⟨⟨UInt64.le_iff_toNat_le.mp hle, hr⟩, h⟩, Nat.le_refl _⟩
  | advance e =>
    obtain ⟨s₁, pc₁, e₁, h₁, -⟩ := advance_spec h fun hpc => by rw [hpc] at e; cases e
    cases e.symm.trans e₁
    exact ⟨h₁, Nat.le_of_eq (advance_brk e).symm⟩

/-- What a step of `CheckTimer` does to the pending ids. -/
theorem advance_simulated (h : Stands s pc) (hs : Shows pc.running s t) (hb : s.brk < 2 ^ 32)
    (e : advance s pc = some (s', pc')) :
    t.enabled (advanceLabel s pc) ∧ Shows pc'.running s' (t.step (advanceLabel s pc)) := by
  cases pc with
  | returned => cases e
  | loop now =>
    simp only [advance] at e
    split at e
    · obtain ⟨c, hc, e⟩ := Option.map_eq_some_iff.mp e
      cases e
      exact ⟨trivial, hs.same (detach_same hc)⟩
    · cases e
      exact ⟨trivial, hs⟩
  | walk now k head =>
    obtain ⟨-, ch, rest, due, hhead, hi⟩ := h
    cases head with
    | none =>
      cases e
      exact ⟨trivial, hs⟩
    | some a =>
      obtain ⟨it, hit, e⟩ := Option.map_eq_some_iff.mp e
      cases e
      cases rest with
      | nil => cases hhead
      | cons b rest =>
        cases hhead
        rw [advanceLabel, hit]
        exact hs.expire hi hb hit k
  | callback now k a =>
    obtain ⟨it, -, e⟩ := Option.bind_eq_some_iff.mp e
    obtain ⟨s₁, e₁, e⟩ := Option.bind_eq_some_iff.mp e
    cases e
    exact ⟨trivial, hs.leave e₁⟩

/-- Until the counter wraps, each step of the timer is one of its pending ids. -/
theorem MachineStep.simulated {l : Pending.Label (F × D)} (h : Stands s pc) (hs : Shows pc.running s t)
    (hstep : MachineStep interval (s, pc) l (s', pc')) (hb : s'.brk < 2 ^ 32) :
    t.enabled l ∧ Shows pc'.running s' (t.step l) := by
  have hle := (hstep.stands h).2
  obtain ⟨ch, rest, R, due, hi⟩ := h.inv
  cases hstep with
  | setTimeout hpc e => exact hs.set hi ((setTimeout_content e).2.1 ▸ hb) e
  | update hpc e => exact ⟨trivial, hs.same (update_same e)⟩
  | clear hpc e => exact ⟨trivial, hs.clear hi (Nat.lt_of_le_of_lt hle hb) e⟩
  | checkTimer hr hle => exact ⟨trivial, hs⟩
  | advance e => exact advance_simulated h hs (Nat.lt_of_le_of_lt hle hb) e

theorem machine_stands {c : TimerBase F D × CheckPc} (hr : (machine interval).Reachable c) : Stands c.1 c.2 := by
  induction hr with
  | init h =>
    obtain ⟨tv, htv, rfl⟩ := h
    exact ⟨_, _, inv_construct htv⟩
  | step _ hstep ih => exact (MachineStep.stands ih hstep).1

/-- The timer, stopped anywhere before the 2^32th `SetTimeout`, implements its pending ids. -/
theorem machine_simulated {c : TimerBase F D × CheckPc} (hr : (machine interval).Reachable c)
    (hb : c.1.brk < 2 ^ 32) : ∃ t, (Pending.system (F × D)).Reachable t ∧ Shows c.2.running c.1 t := by
  induction hr with
  | init h =>
    obtain ⟨tv, htv, rfl⟩ := h
    refine ⟨{}, .init rfl, fun e => ?_, fun id => ?_⟩
    · simp [content, construct]
    · simp [construct]
  | step hr hstep ih =>
    have h := machine_stands hr
    obtain ⟨t, ht, hs⟩ := ih (Nat.lt_of_le_of_lt (hstep.stands h).2 hb)
    obtain ⟨hl, hs'⟩ := hstep.simulated h hs hb
    exact ⟨_, .step ht ⟨hl, rfl⟩, hs'⟩

/-! ## Whole calls -/

theorem Steps.reachable {c c' : TimerBase F D × CheckPc} (h : Steps interval c c')
    (hr : (machine interval).Reachable c) : (machine interval).Reachable c' := by
  induction h with
  | refl => exact hr
  | @advance _ c' s pc e _ ih =>
    exact ih (.step hr (.advance e))
  | @op _ s s' pc o hpc e _ ih =>
    refine ih ?_
    cases o with
    | setTimeout callback timeout data tv =>
      obtain ⟨⟨s₁, id⟩, e₁, rfl⟩ := Option.map_eq_some_iff.mp e
      exact .step hr (.setTimeout hpc e₁)
    | update id timeout tv => exact .step hr (.update hpc e)
    | clear id => exact .step hr (.clear hpc e)

/-- A run of calls is a run of the machine. -/
theorem machine_reachable (hr : (lts interval env).Reachable s) : (machine interval).Reachable (s, .returned) := by
  induction hr with
  | init h =>
    obtain ⟨tv, htv, rfl⟩ := h
    exact .init ⟨tv, htv, rfl⟩
  | @step s c s' hr hs ih =>
    obtain ⟨hc, e⟩ := hs
    cases c with
    | op o => exact Steps.reachable (.op (show CheckPc.Callable .returned from trivial) e .refl) ih
    | checkTimer tv =>
      by_cases hle : s.lastTimeval ≤ getTimeval interval tv
      · exact (checkTimer_steps e).reachable (.step ih (.checkTimer hc hle))
      · have hlt : ¬s.lastTimeval < getTimeval interval tv := fun h => hle (UInt64.le_of_lt h)
        have hsub : (getTimeval interval tv).toNat - s.lastTimeval.toNat = 0 := by
          rw [UInt64.le_iff_toNat_le] at hle
          omega
        have heq : s' = s := by simpa [call, checkTimer, hsub, checkLoop, hlt, eq_comm] using e
        rw [heq]
        exact ih

/-- After any run of calls with fewer than 2^32 `SetTimeout`s, whatever the callbacks did, the items of the
timer are pending ids that the operations on `Pending` lead to. -/
theorem wheel_simulated (hr : (lts interval env).Reachable s) (hb : s.brk < 2 ^ 32) :
    ∃ t, (Pending.system (F × D)).Reachable t ∧ Shows none s t :=
  machine_simulated (machine_reachable hr) hb

end Timer
end SimpleSvr.L2
