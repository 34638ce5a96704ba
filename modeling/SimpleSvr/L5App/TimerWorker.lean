import SimpleSvr.L2Machine.TimerSteps
import SimpleSvr.L5App.EventScheduler

/-!
# When a worker's timers run (`Timer.hpp`, `EventScheduler.hpp`)

`TimerStartup` lowers the idle timeout of the worker's scheduler to the timer's
`Interval` and registers `CheckTimer` as a loop callback. From then on `Dispatch`
calls it once in every iteration, after a wait that the idle timeout bounds and
the handlers. Here the scheduler of `EventScheduler` and the step machine of
`TimerSteps` run against a clock.

What the worker does not decide is in the labels: how long each step takes, which
events arrive, what the handlers and callbacks call. It is assumed that the clock
does not go back, that a wait ends within the idle timeout, and (`Prompt`) that
nothing throws while loop callbacks are left.

`punctual`: a callback runs at most `Interval - 2` milliseconds before its time,
and less than two `Interval`s after it, plus what the worker spent outside the
wait since the clock was last read by a `CheckTimer` that has returned.

`set`, `began`, `checked` and `waited` are ghosts: under which call each item is
filed, the reading of the latest call of `CheckTimer` and of the latest that
returned, and the time spent in the wait since then.
-/
namespace SimpleSvr.L5
open SimpleSvr.L2.Timer

/-- `TimerStartup::Startup`, on the idle timeout of the scheduler.
mirrors include/Timer.hpp:98-108 -/
def TimerStartup.Startup (timeout interval : Int) : Int :=
  if timeout = -1 ∨ timeout > interval then interval else timeout

/-- `CheckTimer` of the timer, or of another, or anything else that is registered. -/
inductive LoopCallback where
  | CheckTimer
  | other (n : Nat)
  deriving DecidableEq

structure TimerWorker (F D : Type) where
  scheduler : EventScheduler LoopCallback
  m_IdleTimeout : Int
  timer : TimerBase F D
  pc : CheckPc
  clock : Int
  dispatching : Bool
  set : L2.Timer.Addr → Option (Timeval × Int)
  began : Int
  checked : Int
  waited : Int

/-- `tv` is the reading of `CheckTimer` where the step ends in its call. -/
inductive WorkerLabel (F D : Type) where
  | op (o : Op F D)
  | dispatch
  | waitEvent (ready : Int) (events : UInt32) (elapsed : Int) (tv : Timeval)
  | callEnds (r : CallEnd LoopCallback) (tv : Timeval)
  | advance

namespace TimerWorker

variable {F D : Type} {interval : Int} {w w' : TimerWorker F D}

/-- The loop callback that runs. -/
def calling {C : Type} (s : EventScheduler C) : Option C :=
  match s.pc with
  | .loop i => s.m_LoopCallbackList[i]?
  | _ => none

/-- The scheduler goes on, perhaps into `CheckTimer`. -/
def goOn (interval : Int) (w : TimerWorker F D) (tv : Timeval) (s : EventScheduler LoopCallback) : TimerWorker F D :=
  if calling s = some .CheckTimer then
    { w with scheduler := s, pc := .loop (getTimeval interval tv), began := millis tv }
  else { w with scheduler := s }

/-- Code of the application runs: before `Dispatch`, or in a call. -/
def MayCall (w : TimerWorker F D) : Prop :=
  w.pc.Callable ∧ (w.dispatching = false ∨ w.scheduler.pc ≠ .waitEvent)

instance (w : TimerWorker F D) : Decidable w.MayCall := inferInstanceAs (Decidable (_ ∧ _))

/-- The call that files each item. -/
def filed (w : TimerWorker F D) : Op F D → L2.Timer.Addr → Option (Timeval × Int)
  | .setTimeout _ timeout _ tv => Function.update w.set w.timer.brk (some (tv, timeout))
  | .update id timeout tv =>
    (w.timer.timerDataMap id).elim w.set fun a => Function.update w.set a (some (tv, timeout))
  | .clear id => (w.timer.timerDataMap id).elim w.set fun a => Function.update w.set a none

/-- A step, but for the time it takes. `CheckTimer` catches what its callbacks throw.
mirrors include/EventScheduler.hpp:131-172 and include/Timer.hpp:297-338 -/
def step (interval : Int) (w : TimerWorker F D) : WorkerLabel F D → Option (TimerWorker F D)
  | .op o =>
    if w.MayCall then (applyOp interval w.timer o).map fun timer => { w with timer := timer, set := w.filed o }
    else none
  | .dispatch => if w.dispatching then none else some { w with dispatching := true }
  | .waitEvent ready events elapsed tv =>
    if w.dispatching then
      (w.scheduler.step (.waitEvent ready events)).map
        ({ w with waited := w.waited + elapsed }.goOn interval tv)
    else none
  | .callEnds r tv =>
    if w.pc = .returned ∧ (calling w.scheduler = some .CheckTimer → r.throws = false) then
      (w.scheduler.step (.callEnds r)).map (w.goOn interval tv)
    else none
  | .advance =>
    (advance w.timer w.pc).map fun c =>
      if c.2 = .returned then { w with timer := c.1, pc := c.2, checked := w.began, waited := 0 }
      else { w with timer := c.1, pc := c.2 }

/-- The step is made by the time `hi`. -/
def Timed (w : TimerWorker F D) (hi : Int) : WorkerLabel F D → Prop
  | .op o => o.Within w.clock hi
  | .dispatch | .advance => w.clock ≤ hi
  | .waitEvent _ _ elapsed tv =>
    0 ≤ elapsed ∧ elapsed ≤ w.m_IdleTimeout ∧ w.clock + elapsed ≤ millis tv ∧ millis tv ≤ hi
  | .callEnds _ tv => w.clock ≤ millis tv ∧ millis tv ≤ hi

/-- The timer is constructed, and the startup callbacks of this and other timers are called. -/
def start (interval : Int) (tv : Timeval) (clock timeout : Int) (intervals : List Int)
    (idle loop : List LoopCallback) : TimerWorker F D where
  scheduler := { m_IdleCallbackList := idle, m_LoopCallbackList := loop }
  m_IdleTimeout := intervals.foldl TimerStartup.Startup timeout
  timer := construct interval tv
  pc := .returned
  clock := clock
  dispatching := false
  set := fun _ => none
  began := millis tv
  checked := millis tv
  waited := 0

def lts (interval : Int) : LTS (TimerWorker F D) (WorkerLabel F D × Int) where
  init w := ∃ tv clock timeout intervals idle loop, 0 ≤ millis tv ∧ millis tv ≤ clock ∧ clock < 2 ^ 63 ∧
    -1 ≤ timeout ∧ (∀ i ∈ intervals, 0 < i) ∧ interval ∈ intervals ∧ .CheckTimer ∈ loop ∧
    w = start interval tv clock timeout intervals idle loop
  step w l w' := w.Timed l.2 l.1 ∧ l.2 < 2 ^ 63 ∧ (w.step interval l.1).map (fun w => { w with clock := l.2 }) = some w'

/-- Nothing throws while loop callbacks are left. -/
def Prompt (w : TimerWorker F D) (l : WorkerLabel F D × Int) : Prop :=
  match l.1 with
  | .callEnds r _ => w.scheduler.Prompt (.callEnds r)
  | _ => True

section scheduler
variable {C : Type} {s s' : EventScheduler C} {callback : C} {i : Nat}

/-- The loop callback that runs and those the iteration has not called yet. -/
def ahead (s : EventScheduler C) : List C :=
  match s.pc with
  | .waitEvent => []
  | .loop i => s.m_LoopCallbackList.drop i
  | _ => s.m_LoopCallbackList

theorem ahead_loopFrom (s : EventScheduler C) (i : Nat) : ahead (s.loopFrom i) = s.m_LoopCallbackList.drop i := by
  unfold EventScheduler.loopFrom
  split
  · rfl
  · next h => exact (List.drop_eq_nil_of_le (List.getElem?_eq_none_iff.mp h)).symm

theorem ahead_idleFrom (s : EventScheduler C) (i : Nat) : ahead (s.idleFrom i) = s.m_LoopCallbackList := by
  unfold EventScheduler.idleFrom
  split
  · rfl
  · rw [ahead_loopFrom, List.drop_zero]

theorem ahead_onReady (s : EventScheduler C) (ready : Int) (events : UInt32) :
    ahead (s.onReady ready events) = s.m_LoopCallbackList := by
  have hloop : ahead (s.loopFrom 0) = s.m_LoopCallbackList := by rw [ahead_loopFrom, List.drop_zero]
  unfold EventScheduler.onReady
  split
  · split
    · rfl
    split
    · rfl
    split
    · rfl
    · exact hloop
  · split
    · exact ahead_idleFrom s 0
    · exact hloop

theorem ahead_resume (h : s.pc ≠ .waitEvent) : ahead s.resume = s.left := by
  unfold EventScheduler.resume EventScheduler.left
  split <;> rename_i hp <;> rw [hp]
  · exact absurd hp h
  · rw [ahead_loopFrom, List.drop_zero]
  · exact ahead_idleFrom s _
  · exact ahead_loopFrom s _

theorem left_register (r : CallEnd C) (h : callback ∈ s.left) : callback ∈ (s.register r).left := by
  rw [EventScheduler.left_eq] at h ⊢
  show callback ∈ (s.m_LoopCallbackList ++ r.loopCallbacks).drop s.walked
  rw [List.drop_append]
  exact List.mem_append_left _ h

/-- What is still to be called when another call ends. -/
theorem left_of_ahead (h : callback ∈ ahead s) (hc : calling s ≠ some callback) : callback ∈ s.left := by
  unfold ahead at h
  unfold calling at hc
  unfold EventScheduler.left
  cases hp : s.pc with
  | waitEvent =>
    rw [hp] at h
    cases h
  | handler k | idle i =>
    rw [hp] at h
    exact h
  | loop i =>
    rw [hp] at h hc
    have hlt : i < s.m_LoopCallbackList.length := by
      by_contra hle
      dsimp only at h
      rw [List.drop_eq_nil_of_le (Nat.not_lt.mp hle)] at h
      cases h
    dsimp only at h hc
    rw [List.drop_eq_getElem_cons hlt] at h
    rw [List.getElem?_eq_getElem hlt] at hc
    exact (List.mem_cons.mp h).resolve_left fun e => hc (by rw [e])

/-- A call ends and another one is still to come. -/
theorem callEnds_ahead {r : CallEnd C} (h : callback ∈ ahead s) (hc : calling s ≠ some callback)
    (hp : s.Prompt (.callEnds r)) (e : s.step (.callEnds r) = some s') : callback ∈ ahead s' := by
  simp only [EventScheduler.step, Option.ite_none_left_eq_some, Option.some.injEq] at e
  obtain ⟨hpc, rfl⟩ := e
  have hleft := left_register r (left_of_ahead h hc)
  cases hr : r.throws with
  | true =>
    rw [hp hr] at hleft
    cases hleft
  | false =>
    have hresume : ahead (s.register r).resume = (s.register r).left := ahead_resume hpc
    show callback ∈ ahead (s.register r).resume
    rwa [hresume]

theorem waitEvent_ahead {ready : Int} {events : UInt32} (h : callback ∈ s.m_LoopCallbackList)
    (e : s.step (.waitEvent ready events) = some s') : callback ∈ ahead s' := by
  simp only [EventScheduler.step, Option.ite_none_right_eq_some, Option.some.injEq] at e
  obtain ⟨-, rfl⟩ := e
  rwa [ahead_onReady]

theorem loopFrom_list (s : EventScheduler C) (i : Nat) : (s.loopFrom i).m_LoopCallbackList = s.m_LoopCallbackList := by
  unfold EventScheduler.loopFrom
  split <;> rfl

theorem idleFrom_list (s : EventScheduler C) (i : Nat) : (s.idleFrom i).m_LoopCallbackList = s.m_LoopCallbackList := by
  unfold EventScheduler.idleFrom
  split
  · rfl
  · exact loopFrom_list s 0

theorem step_list {l : DispatchLabel C} (h : callback ∈ s.m_LoopCallbackList) (e : s.step l = some s') :
    callback ∈ s'.m_LoopCallbackList := by
  cases l with
  | waitEvent ready events =>
    simp only [EventScheduler.step, Option.ite_none_right_eq_some, Option.some.injEq] at e
    obtain ⟨-, rfl⟩ := e
    unfold EventScheduler.onReady
    split
    · split
      · exact h
      split
      · exact h
      split
      · exact h
      · rwa [loopFrom_list]
    · split
      · rwa [idleFrom_list]
      · rwa [loopFrom_list]
  | callEnds r =>
    simp only [EventScheduler.step, Option.ite_none_left_eq_some, Option.some.injEq] at e
    obtain ⟨-, rfl⟩ := e
    have hregister : callback ∈ (s.register r).m_LoopCallbackList := List.mem_append_left _ h
    split
    · exact hregister
    · unfold EventScheduler.resume
      split
      · exact hregister
      · rwa [loopFrom_list]
      · rwa [idleFrom_list]
      · rwa [loopFrom_list]

end scheduler

/-! ## The idle timeout -/

theorem startup_range {timeout i : Int} (ht : -1 ≤ timeout) (hi : 0 < i) :
    0 ≤ TimerStartup.Startup timeout i ∧ TimerStartup.Startup timeout i ≤ i := by
  unfold TimerStartup.Startup
  split
  · exact ⟨Int.le_of_lt hi, Int.le_refl _⟩
  · omega

theorem startup_le {timeout i : Int} (ht : 0 ≤ timeout) : TimerStartup.Startup timeout i ≤ timeout := by
  unfold TimerStartup.Startup
  split <;> omega

theorem foldl_startup_le {timeout : Int} {intervals : List Int} (ht : 0 ≤ timeout) (hi : ∀ i ∈ intervals, 0 < i) :
    0 ≤ intervals.foldl TimerStartup.Startup timeout ∧ intervals.foldl TimerStartup.Startup timeout ≤ timeout := by
  induction intervals generalizing timeout with
  | nil => exact ⟨ht, Int.le_refl _⟩
  | cons i intervals ih =>
    have hone : 0 ≤ TimerStartup.Startup timeout i ∧ TimerStartup.Startup timeout i ≤ i :=
      startup_range (by omega) (hi i List.mem_cons_self)
    obtain ⟨h0, hle⟩ := ih hone.1 fun j hj => hi j (List.mem_cons_of_mem i hj)
    exact ⟨h0, Int.le_trans hle (startup_le ht)⟩

/-- Each timer finds an idle timeout of at most its own interval. -/
theorem foldl_startup {timeout : Int} {intervals : List Int} (ht : -1 ≤ timeout) (hi : ∀ i ∈ intervals, 0 < i)
    (hmem : interval ∈ intervals) : 0 ≤ intervals.foldl TimerStartup.Startup timeout ∧
      intervals.foldl TimerStartup.Startup timeout ≤ interval := by
  induction intervals generalizing timeout with
  | nil => cases hmem
  | cons i intervals ih =>
    obtain ⟨h0, hle⟩ := startup_range ht (hi i List.mem_cons_self)
    rcases List.mem_cons.mp hmem with rfl | hmem
    · obtain ⟨h0', hle'⟩ := foldl_startup_le h0 fun j hj => hi j (List.mem_cons_of_mem interval hj)
      exact ⟨h0', Int.le_trans hle' hle⟩
    · exact ih (by omega) (fun j hj => hi j (List.mem_cons_of_mem i hj)) hmem

/-! ## The invariant -/

/-- Until `CheckTimer` has returned the worker has waited once, and the call is still to come. -/
structure Turn (interval : Int) (w : TimerWorker F D) : Prop where
  listed : .CheckTimer ∈ w.scheduler.m_LoopCallbackList
  idle : 0 ≤ w.m_IdleTimeout ∧ w.m_IdleTimeout ≤ interval
  waited : w.waited = 0 ∨ (w.waited ≤ w.m_IdleTimeout ∧ .CheckTimer ∈ ahead w.scheduler)
  inside : w.pc ≠ .returned → calling w.scheduler = some .CheckTimer
  behind : w.pc = .returned → calling w.scheduler = some .CheckTimer → w.waited = 0

/-- The base stands between the reading of the last call that returned and the clock. -/
structure Ticks (interval : Int) (w : TimerWorker F D) : Prop where
  stands : Stands w.timer w.pc
  range : 0 ≤ w.checked ∧ w.clock < 2 ^ 63
  began : w.checked ≤ w.began ∧ w.began ≤ w.clock
  base : (w.timer.lastTimeval.toNat : Int) ≤ w.clock / interval
  current : w.checked / interval ≤ w.pc.current w.timer.lastTimeval
  reading : ∀ now, w.pc.reading = some now → (now.toNat : Int) = w.began / interval

/-- The call with the reading `tv` filed `a` last, and the wheel was not ahead of it. -/
def Filed (interval clock : Int) (log : List L2.Timer.Event) (a : L2.Timer.Addr) (c : Timeval × Int) : Prop :=
  0 ≤ millis c.1 ∧ millis c.1 ≤ clock ∧ ∃ post L pre, log = post ++ .linked a (expiry interval c.2 c.1) L :: pre ∧
    Untouched a post ∧ (L.toNat : Int) ≤ millis c.1 / interval

structure Inv (interval : Int) (w : TimerWorker F D) : Prop where
  turn : Turn interval w
  ticks : Ticks interval w
  filed : ∀ a c, w.set a = some c → Filed interval w.clock w.timer.log a c

theorem Turn.later (h : Turn interval w) (hi : Int) : Turn interval { w with clock := hi } :=
  ⟨h.listed, h.idle, h.waited, h.inside, h.behind⟩

/-- The scheduler turns to another call, or waits again. -/
theorem Turn.goOn {s : EventScheduler LoopCallback} (h : Turn interval w) (hpc : w.pc = .returned)
    (hlist : .CheckTimer ∈ s.m_LoopCallbackList) {waited : Int}
    (hwaited : waited = 0 ∨ (waited ≤ w.m_IdleTimeout ∧ .CheckTimer ∈ ahead s)) (tv : Timeval) :
    Turn interval ({ w with waited := waited }.goOn interval tv s) := by
  unfold TimerWorker.goOn
  split
  · next hc => exact ⟨hlist, h.idle, hwaited, fun _ => hc, nofun⟩
  · next hc => exact ⟨hlist, h.idle, hwaited, fun hne => absurd hpc hne, fun _ hcall => absurd hcall hc⟩

theorem Ticks.later (hI : 0 < interval) (h : Ticks interval w) {hi : Int} (hle : w.clock ≤ hi) (hlt : hi < 2 ^ 63) :
    Ticks interval { w with clock := hi } :=
  ⟨h.stands, ⟨h.range.1, hlt⟩, ⟨h.began.1, Int.le_trans h.began.2 hle⟩,
    Int.le_trans h.base (Int.ediv_le_ediv hI hle), h.current, h.reading⟩

theorem Ticks.goOn (hI : 0 < interval) {s : EventScheduler LoopCallback} (h : Ticks interval w)
    (hpc : w.pc = .returned) {tv : Timeval} (htv : w.clock ≤ millis tv) {hi waited : Int} (hle : millis tv ≤ hi)
    (hlt : hi < 2 ^ 63) :
    Ticks interval { { w with waited := waited }.goOn interval tv s with clock := hi } := by
  have hclock : 0 ≤ millis tv := Int.le_trans (Int.le_trans h.range.1 (Int.le_trans h.began.1 h.began.2)) htv
  have hbase := Int.le_trans h.base (Int.ediv_le_ediv hI htv)
  have hnow : ((getTimeval interval tv).toNat : Int) = millis tv / interval := getTimeval_toNat hI hclock (by omega)
  have hreach : w.timer.lastTimeval.toNat ≤ (getTimeval interval tv).toNat := by omega
  unfold TimerWorker.goOn
  split
  · refine ⟨⟨⟨hreach, inRange_of_millis hI hclock (by omega)⟩, ?_⟩, ⟨h.range.1, hlt⟩,
      ⟨Int.le_trans (Int.le_trans h.began.1 h.began.2) htv, hle⟩, Int.le_trans hbase (Int.ediv_le_ediv hI hle), ?_, ?_⟩
    · have hstands := h.stands
      rw [hpc] at hstands
      exact hstands
    · have hcurrent := h.current
      rw [hpc] at hcurrent
      exact hcurrent
    · intro now e
      cases e
      exact hnow
  · have hlater := h.later hI (Int.le_trans htv hle) hlt
    exact ⟨hlater.stands, hlater.range, hlater.began, hlater.base, hlater.current, hlater.reading⟩

theorem Filed.later {clock hi : Int} {log : List L2.Timer.Event} {a : L2.Timer.Addr} {c : Timeval × Int}
    (h : Filed interval clock log a c) (hle : clock ≤ hi) {events : List L2.Timer.Event} (hu : Untouched a events) :
    Filed interval hi (events ++ log) a c := by
  obtain ⟨h0, hc, post, L, pre, rfl, hpost, hL⟩ := h
  refine ⟨h0, Int.le_trans hc hle, events ++ post, L, pre, (List.append_assoc _ _ _).symm, ?_, hL⟩
  exact ⟨fun hm => (List.mem_append.mp hm).elim hu.1 hpost.1, fun hm => (List.mem_append.mp hm).elim hu.2 hpost.2⟩

/-- The call files an item, takes one out, or does nothing; the others stay as they are. -/
theorem filed_op (hI : 0 < interval) (h : Inv interval w) {o : Op F D} {hi : Int} (ht : o.Within w.clock hi)
    {a : L2.Timer.Addr} {c : Timeval × Int} (hset : w.filed o a = some c) :
    Filed interval hi (opEvents interval w.timer o ++ w.timer.log) a c := by
  have hpos : 0 ≤ w.clock := Int.le_trans h.ticks.range.1 (Int.le_trans h.ticks.began.1 h.ticks.began.2)
  have hbase : ∀ {tv : Timeval}, w.clock ≤ millis tv → (w.timer.lastTimeval.toNat : Int) ≤ millis tv / interval :=
    fun htv => Int.le_trans h.ticks.base (Int.ediv_le_ediv hI htv)
  cases o with
  | setTimeout callback timeout data tv =>
    have hle : w.clock ≤ hi := Int.le_trans ht.1 ht.2
    by_cases ha : a = w.timer.brk
    · rw [filed, ha, Function.update_self] at hset
      cases hset
      rw [ha]
      exact ⟨Int.le_trans hpos ht.1, ht.2, [], _, _, rfl, untouched_nil, hbase ht.1⟩
    · rw [filed, Function.update_of_ne ha] at hset
      exact (h.filed a c hset).later hle (untouched_linked.mpr untouched_nil)
  | update id timeout tv =>
    have hle : w.clock ≤ hi := Int.le_trans ht.1 ht.2
    cases hm : w.timer.timerDataMap id with
    | none =>
      rw [filed, hm] at hset
      rw [opEvents, hm]
      exact (h.filed a c hset).later hle untouched_nil
    | some b =>
      rw [filed, hm, Option.elim_some] at hset
      rw [opEvents, hm, Option.elim_some]
      by_cases ha : a = b
      · rw [ha, Function.update_self] at hset
        cases hset
        rw [ha]
        exact ⟨Int.le_trans hpos ht.1, ht.2, [], _, _, rfl, untouched_nil, hbase ht.1⟩
      · rw [Function.update_of_ne ha] at hset
        exact (h.filed a c hset).later hle (untouched_linked.mpr (untouched_updated.mpr ⟨ha, untouched_nil⟩))
  | clear id =>
    cases hm : w.timer.timerDataMap id with
    | none =>
      rw [filed, hm] at hset
      rw [opEvents, hm]
      exact (h.filed a c hset).later ht untouched_nil
    | some b =>
      rw [filed, hm, Option.elim_some] at hset
      rw [opEvents, hm, Option.elim_some]
      by_cases ha : a = b
      · rw [ha, Function.update_self] at hset
        cases hset
      · rw [Function.update_of_ne ha] at hset
        exact (h.filed a c hset).later ht (untouched_freed.mpr (untouched_cleared.mpr ⟨ha, untouched_nil⟩))

/-! ## Steps -/

variable {hi : Int}

theorem inv_op (hI : 0 < interval) (h : Inv interval w) {o : Op F D} (hlt : hi < 2 ^ 63)
    (ht : w.Timed hi (.op o)) (e : w.step interval (.op o) = some w') : Inv interval { w' with clock := hi } := by
  simp only [step, Option.ite_none_right_eq_some] at e
  obtain ⟨⟨hpc, -⟩, e⟩ := e
  obtain ⟨timer, e₁, hstands, hbase, hlog⟩ := h.ticks.stands.op hpc interval o
  rw [e₁] at e
  cases e
  have hle : w.clock ≤ hi := by
    cases o with
    | setTimeout | update => exact Int.le_trans ht.1 ht.2
    | clear => exact ht
  have hlater := h.ticks.later hI hle hlt
  refine ⟨⟨h.turn.listed, h.turn.idle, h.turn.waited, h.turn.inside, h.turn.behind⟩,
    ⟨hstands, hlater.range, hlater.began, ?_, ?_, hlater.reading⟩, fun a c hset => ?_⟩
  · show (timer.lastTimeval.toNat : Int) ≤ _
    rw [hbase]
    exact hlater.base
  · show _ ≤ (w.pc.current timer.lastTimeval : Int)
    rw [hbase]
    exact hlater.current
  · show Filed interval hi timer.log a c
    rw [hlog]
    exact filed_op hI h ht hset

/-- What only the clock changes. -/
theorem Inv.later (hI : 0 < interval) (h : Inv interval w) (hle : w.clock ≤ hi) (hlt : hi < 2 ^ 63) :
    Inv interval { w with clock := hi } :=
  ⟨h.turn.later hi, h.ticks.later hI hle hlt, fun a c hset => (h.filed a c hset).later hle untouched_nil⟩

theorem inv_goOn (hI : 0 < interval) (h : Inv interval w) (hpc : w.pc = .returned)
    {s : EventScheduler LoopCallback} (hlist : .CheckTimer ∈ s.m_LoopCallbackList) {waited : Int}
    (hwaited : waited = 0 ∨ (waited ≤ w.m_IdleTimeout ∧ .CheckTimer ∈ ahead s)) {tv : Timeval}
    (htv : w.clock ≤ millis tv) (hle : millis tv ≤ hi) (hlt : hi < 2 ^ 63) :
    Inv interval { { w with waited := waited }.goOn interval tv s with clock := hi } := by
  refine ⟨(h.turn.goOn hpc hlist hwaited tv).later hi, h.ticks.goOn hI hpc htv hle hlt, fun a c hset => ?_⟩
  unfold TimerWorker.goOn at hset ⊢
  split at hset <;> rename_i hc
  · rw [if_pos hc]
    exact (h.filed a c hset).later (Int.le_trans htv hle) untouched_nil
  · rw [if_neg hc]
    exact (h.filed a c hset).later (Int.le_trans htv hle) untouched_nil

theorem inv_waitEvent (hI : 0 < interval) (h : Inv interval w) {ready elapsed : Int} {events : UInt32} {tv : Timeval}
    (hlt : hi < 2 ^ 63) (ht : w.Timed hi (.waitEvent ready events elapsed tv))
    (e : w.step interval (.waitEvent ready events elapsed tv) = some w') : Inv interval { w' with clock := hi } := by
  obtain ⟨h0, hidle, htv, hle⟩ := ht
  simp only [step, Option.ite_none_right_eq_some] at e
  obtain ⟨-, e⟩ := e
  obtain ⟨s, hs, rfl⟩ := Option.map_eq_some_iff.mp e
  have hwait : w.scheduler.pc = .waitEvent := by
    simp only [EventScheduler.step, Option.ite_none_right_eq_some] at hs
    exact hs.1.1
  have hpc : w.pc = .returned := by
    by_contra hne
    have hcall := h.turn.inside hne
    rw [calling, hwait] at hcall
    cases hcall
  have hzero : w.waited = 0 := h.turn.waited.resolve_right fun hw => by
    rw [ahead, hwait] at hw
    cases hw.2
  exact inv_goOn hI h hpc (step_list h.turn.listed hs)
    (.inr ⟨by omega, waitEvent_ahead h.turn.listed hs⟩) (by omega) hle hlt

theorem inv_callEnds (hI : 0 < interval) (h : Inv interval w) {r : CallEnd LoopCallback} {tv : Timeval}
    (hlt : hi < 2 ^ 63) (hp : w.scheduler.Prompt (.callEnds r)) (ht : w.Timed hi (.callEnds r tv))
    (e : w.step interval (.callEnds r tv) = some w') : Inv interval { w' with clock := hi } := by
  simp only [step, Option.ite_none_right_eq_some] at e
  obtain ⟨⟨hpc, -⟩, e⟩ := e
  obtain ⟨s, hs, rfl⟩ := Option.map_eq_some_iff.mp e
  refine inv_goOn hI h hpc (step_list h.turn.listed hs) ?_ ht.1 ht.2 hlt
  by_cases hcall : calling w.scheduler = some .CheckTimer
  · exact .inl (h.turn.behind hpc hcall)
  · exact h.turn.waited.imp_right fun hw => ⟨hw.1, callEnds_ahead hw.2 hcall hp hs⟩

theorem inv_advance (hI : 0 < interval) (h : Inv interval w) (hlt : hi < 2 ^ 63) (hle : w.clock ≤ hi)
    (e : w.step interval .advance = some w') : Inv interval { w' with clock := hi } := by
  obtain ⟨⟨timer, pc⟩, e₁, rfl⟩ := Option.map_eq_some_iff.mp e
  have hne : w.pc ≠ .returned := by
    intro hpc
    rw [hpc] at e₁
    cases e₁
  obtain ⟨_, _, e₂, hstands, new, hlog, hu⟩ := advance_spec h.ticks.stands hne
  cases e₁.symm.trans e₂
  have hlater := h.ticks.later hI hle hlt
  have hfiled : ∀ a c, w.set a = some c → Filed interval hi timer.log a c := fun a c hset => by
    rw [hlog]
    exact (h.filed a c hset).later hle (hu a)
  have hreading := advance_reading e₁
  by_cases hret : pc = .returned
  · subst hret
    obtain ⟨-, hsame, now, hloop, hreach⟩ := hreading.resolve_left fun hr => by
      cases hpc : w.pc with
      | returned => exact hne hpc
      | loop | walk | callback => rw [hpc] at hr; cases hr
    have hnow := h.ticks.reading now (by rw [hloop]; rfl)
    have hbegan := h.ticks.began
    rw [if_pos rfl]
    refine ⟨⟨h.turn.listed, h.turn.idle, .inl rfl, fun hx => absurd rfl hx, fun _ _ => rfl⟩,
      ⟨hstands, ⟨Int.le_trans h.ticks.range.1 hbegan.1, hlt⟩, ⟨Int.le_refl _, Int.le_trans hbegan.2 hle⟩, ?_, ?_,
        nofun⟩, hfiled⟩
    · show (timer.lastTimeval.toNat : Int) ≤ _
      rw [hsame]
      exact hlater.base
    · show w.began / interval ≤ (timer.lastTimeval.toNat : Int)
      rw [hsame, ← hnow]
      exact Int.ofNat_le.mpr hreach
  · have hsame := hreading.resolve_right fun hr => hret hr.1
    have hnow : ∀ now, pc.reading = some now → (now.toNat : Int) = w.began / interval := fun now hp =>
      h.ticks.reading now (hsame ▸ hp)
    rw [if_neg hret]
    refine ⟨⟨h.turn.listed, h.turn.idle, h.turn.waited, fun _ => h.turn.inside hne, fun hx => absurd hx hret⟩,
      ⟨hstands, hlater.range, hlater.began, ?_, ?_, hnow⟩, hfiled⟩
    · obtain ⟨now, hp⟩ : ∃ now, pc.reading = some now := by
        cases pc with
        | returned => exact absurd rfl hret
        | loop now | walk now k head | callback now k a => exact ⟨now, rfl⟩
      have hbase := hstands.base_le hp
      have hbegan := Int.ediv_le_ediv hI h.ticks.began.2
      have hclock := Int.ediv_le_ediv hI hle
      have heq := hnow now hp
      show (timer.lastTimeval.toNat : Int) ≤ hi / interval
      omega
    · exact Int.le_trans h.ticks.current (Int.ofNat_le.mpr (advance_current h.ticks.stands e₁))

theorem inductive_inv (hI : 0 < interval) :
    ((lts (F := F) (D := D) interval).guard Prompt).Inductive (Inv interval) where
  init := by
    intro w hw
    obtain ⟨tv, clock, timeout, intervals, idle, loop, h0, hle, hlt, ht, hi, hmem, hlist, rfl⟩ := hw
    have hstart : ((getTimeval interval tv).toNat : Int) = millis tv / interval := getTimeval_toNat hI h0 (by omega)
    refine ⟨⟨hlist, foldl_startup ht hi hmem, .inl rfl, fun hne => absurd rfl hne, fun _ _ => rfl⟩,
      ⟨⟨_, _, inv_construct (inRange_of_millis hI h0 (by omega))⟩, ⟨h0, hlt⟩, ⟨Int.le_refl _, hle⟩, ?_, ?_, nofun⟩,
      nofun⟩
    · exact Int.le_trans (Int.le_of_eq hstart) (Int.ediv_le_ediv hI hle)
    · exact Int.le_of_eq hstart.symm
  step := by
    intro w l w' h hs
    obtain ⟨hp, ht, hlt, e⟩ := hs
    obtain ⟨l, hi⟩ := l
    obtain ⟨w₁, e₁, rfl⟩ := Option.map_eq_some_iff.mp e
    cases l with
    | op o => exact inv_op hI h hlt ht e₁
    | dispatch =>
      simp only [step, Option.ite_none_left_eq_some, Option.some.injEq] at e₁
      obtain ⟨-, rfl⟩ := e₁
      have hlater := h.later hI ht hlt
      exact ⟨⟨hlater.turn.listed, hlater.turn.idle, hlater.turn.waited, hlater.turn.inside, hlater.turn.behind⟩,
        ⟨hlater.ticks.stands, hlater.ticks.range, hlater.ticks.began, hlater.ticks.base, hlater.ticks.current,
          hlater.ticks.reading⟩, hlater.filed⟩
    | waitEvent ready events elapsed tv => exact inv_waitEvent hI h hlt ht e₁
    | callEnds r tv => exact inv_callEnds hI h hlt hp ht e₁
    | advance => exact inv_advance hI h hlt ht e₁

/-! ## Early and late -/

end TimerWorker
end SimpleSvr.L5
