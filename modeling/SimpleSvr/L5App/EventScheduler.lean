import SimpleSvr.Core.LTS
import Mathlib.Data.List.TakeDrop

/-!
# The event loop (`EventScheduler.hpp`)

An iteration of `Dispatch` waits for an event, calls its handler or, when the
wait timed out, the idle callbacks, and then calls the loop callbacks, among
them `CheckTimer` of each timer. Every call may register further callbacks, and
may throw. One `try` block is around all of them: an exception ends the
iteration, and the callbacks that are left are not called.

`loop_callbacks`: the loop callbacks are called once each, in order, in every
iteration exactly of the runs in which nothing throws while one of them is left.
`starved` is a listening socket whose `accept` fails: the wait reports it again
at once, and the timers are never checked.

`C` are the callbacks. What the handlers and callbacks do is a label of the
step. `turns` and `called` are a ghost trace of the calls of loop callbacks.
-/
namespace SimpleSvr.L5

/-- What a call does to the scheduler before it returns or throws. -/
structure CallEnd (C : Type) where
  idleCallbacks : List C := []
  loopCallbacks : List C := []
  throws : Bool := false

inductive Handler where
  | OnError
  | OnReadable
  | OnWriteable
  deriving DecidableEq, Repr

/-- Where `Dispatch` is: in `WaitEvent`, or in a call. -/
inductive DispatchPc where
  | waitEvent
  | handler (h : Handler)
  | idle (i : Nat)
  | loop (i : Nat)
  deriving DecidableEq, Repr

/-- The loop callbacks that an iteration called, and those registered when it ended. -/
structure Turn (C : Type) where
  called : List C
  registered : List C
  deriving DecidableEq

structure EventScheduler (C : Type) where
  m_Quit : Bool := false
  m_IdleCallbackList : List C := []
  m_LoopCallbackList : List C := []
  pc : DispatchPc := .waitEvent
  called : List C := []
  turns : List (Turn C) := []
  deriving DecidableEq

inductive DispatchLabel (C : Type) where
  | waitEvent (ready : Int) (events : UInt32)
  | callEnds (r : CallEnd C)

namespace EventScheduler

variable {C : Type}

/-- `EPOLLIN`, `EPOLLOUT` and `EPOLLERR`. -/
def IN : UInt32 := 0x001
def OUT : UInt32 := 0x004
def ERR : UInt32 := 0x008

/-- mirrors include/EventScheduler.hpp:37-45 -/
def register (s : EventScheduler C) (r : CallEnd C) : EventScheduler C :=
  { s with
    m_IdleCallbackList := s.m_IdleCallbackList ++ r.idleCallbacks
    m_LoopCallbackList := s.m_LoopCallbackList ++ r.loopCallbacks }

def endTurn (s : EventScheduler C) : EventScheduler C :=
  { s with pc := .waitEvent, called := [], turns := ⟨s.called, s.m_LoopCallbackList⟩ :: s.turns }

/-- The walk over the loop callbacks, from the `i`th on.
mirrors include/EventScheduler.hpp:158-163 -/
def loopFrom (s : EventScheduler C) (i : Nat) : EventScheduler C :=
  match s.m_LoopCallbackList[i]? with
  | some callback => { s with pc := .loop i, called := s.called ++ [callback] }
  | none => s.endTurn

/-- mirrors include/EventScheduler.hpp:151-156 -/
def idleFrom (s : EventScheduler C) (i : Nat) : EventScheduler C :=
  match s.m_IdleCallbackList[i]? with
  | some _ => { s with pc := .idle i }
  | none => s.loopFrom 0

/-- mirrors include/EventScheduler.hpp:138-149 -/
def onReady (s : EventScheduler C) (ready : Int) (events : UInt32) : EventScheduler C :=
  if ready > 0 then
    if events &&& ERR = ERR then { s with pc := .handler .OnError }
    else if events &&& IN = IN then { s with pc := .handler .OnReadable }
    else if events &&& OUT = OUT then { s with pc := .handler .OnWriteable }
    else s.loopFrom 0
  else if ready = 0 then s.idleFrom 0
  else s.loopFrom 0

/-- After a call that returned. -/
def resume (s : EventScheduler C) : EventScheduler C :=
  match s.pc with
  | .waitEvent => s
  | .handler _ => s.loopFrom 0
  | .idle i => s.idleFrom (i + 1)
  | .loop i => s.loopFrom (i + 1)

/-- mirrors include/EventScheduler.hpp:131-172 -/
def step (s : EventScheduler C) : DispatchLabel C → Option (EventScheduler C)
  | .waitEvent ready events =>
    if s.pc = .waitEvent ∧ s.m_Quit = false then some (s.onReady ready events) else none
  | .callEnds r =>
    if s.pc = .waitEvent then none
    else some (if r.throws then (s.register r).endTurn else (s.register r).resume)

/-- `Dispatch`, entered with any callbacks. -/
def dispatch (C : Type) : LTS (EventScheduler C) (DispatchLabel C) :=
  .ofFn (fun s => ∃ idle loop, s = { m_IdleCallbackList := idle, m_LoopCallbackList := loop }) step

/-- The loop callbacks that the iteration has not called yet. -/
def left (s : EventScheduler C) : List C :=
  match s.pc with
  | .loop i => s.m_LoopCallbackList.drop (i + 1)
  | _ => s.m_LoopCallbackList

/-- Nothing throws while loop callbacks are left. -/
def Prompt (s : EventScheduler C) : DispatchLabel C → Prop
  | .waitEvent _ _ => True
  | .callEnds r => r.throws = true → (s.register r).left = []

/-- How far the walk over the loop callbacks is. -/
def walked (s : EventScheduler C) : Nat :=
  match s.pc with
  | .loop i => i + 1
  | _ => 0

/-- The iteration has called the loop callbacks up to where its walk is. -/
structure Inv (s : EventScheduler C) : Prop where
  called : s.called = s.m_LoopCallbackList.take s.walked
  inside : s.walked ≤ s.m_LoopCallbackList.length
  turns : ∀ t ∈ s.turns, t.called <+: t.registered

/-- An iteration ended, with the turn `t`. -/
def Ended (s s' : EventScheduler C) (t : Turn C) : Prop := s'.turns = t :: s.turns

variable {s s' : EventScheduler C}

theorem left_eq : s.left = s.m_LoopCallbackList.drop s.walked := by
  unfold left walked
  cases s.pc <;> rfl

/-! ## One step -/

/-- The walk goes on, or the iteration ends with every callback called. -/
theorem loopFrom_spec {i : Nat} (hc : s.called = s.m_LoopCallbackList.take i)
    (ht : ∀ t ∈ s.turns, t.called <+: t.registered) :
    (s.loopFrom i).Inv ∧ ((s.loopFrom i).turns = s.turns ∨
      Ended s (s.loopFrom i) ⟨s.m_LoopCallbackList, s.m_LoopCallbackList⟩) := by
  unfold loopFrom
  split
  · next callback h =>
    obtain ⟨hlt, rfl⟩ := List.getElem?_eq_some_iff.mp h
    refine ⟨⟨?_, hlt, ht⟩, .inl rfl⟩
    show s.called ++ [_] = s.m_LoopCallbackList.take (i + 1)
    rw [hc, List.take_append_getElem]
  · next h =>
    have hall : s.called = s.m_LoopCallbackList := by
      rw [hc, List.take_of_length_le (List.getElem?_eq_none_iff.mp h)]
    refine ⟨⟨rfl, Nat.zero_le _, fun t hm => ?_⟩, .inr ?_⟩
    · rcases List.mem_cons.mp hm with rfl | hm
      · exact hall ▸ List.prefix_refl _
      · exact ht t hm
    · unfold Ended endTurn
      rw [hall]

theorem idleFrom_spec {i : Nat} (h : s.Inv) (hw : s.walked = 0) :
    (s.idleFrom i).Inv ∧ ((s.idleFrom i).turns = s.turns ∨
      Ended s (s.idleFrom i) ⟨s.m_LoopCallbackList, s.m_LoopCallbackList⟩) := by
  have hc := h.called
  rw [hw] at hc
  unfold idleFrom
  split
  · exact ⟨⟨hc, Nat.zero_le _, h.turns⟩, .inl rfl⟩
  · exact loopFrom_spec hc h.turns

theorem Inv.register (h : s.Inv) (r : CallEnd C) : (s.register r).Inv where
  called := h.called.trans (List.take_append_of_le_length h.inside).symm
  inside := by
    have := h.inside
    simp only [EventScheduler.register, List.length_append]
    exact Nat.le_trans this (Nat.le_add_right _ _)
  turns := h.turns

theorem onReady_spec (h : s.Inv) (hp : s.pc = .waitEvent) (ready : Int) (events : UInt32) :
    (s.onReady ready events).Inv ∧ ((s.onReady ready events).turns = s.turns ∨
      Ended s (s.onReady ready events) ⟨s.m_LoopCallbackList, s.m_LoopCallbackList⟩) := by
  have hw : s.walked = 0 := by rw [walked, hp]
  have hc := h.called
  rw [hw] at hc
  have called : ∀ k, ({ s with pc := .handler k } : EventScheduler C).Inv ∧ (s.turns = s.turns ∨
      Ended s { s with pc := .handler k } ⟨s.m_LoopCallbackList, s.m_LoopCallbackList⟩) :=
    fun k => ⟨⟨hc, Nat.zero_le _, h.turns⟩, .inl rfl⟩
  have walk := loopFrom_spec hc h.turns
  unfold onReady
  split
  · split
    · exact called .OnError
    split
    · exact called .OnReadable
    split
    · exact called .OnWriteable
    · exact walk
  · split
    · exact idleFrom_spec h hw
    · exact walk

theorem resume_spec (h : s.Inv) :
    s.resume.Inv ∧ (s.resume.turns = s.turns ∨ Ended s s.resume ⟨s.m_LoopCallbackList, s.m_LoopCallbackList⟩) := by
  have hc := h.called
  unfold resume
  unfold walked at hc
  split <;> rename_i hp <;> rw [hp] at hc
  · exact ⟨h, .inl rfl⟩
  · exact loopFrom_spec hc h.turns
  · exact idleFrom_spec h (by rw [walked, hp])
  · exact loopFrom_spec hc h.turns

/-- An exception drops what is left of the loop callbacks. -/
theorem endTurn_spec (h : s.Inv) : s.endTurn.Inv ∧ (s.called = s.m_LoopCallbackList ↔ s.left = []) := by
  refine ⟨⟨rfl, Nat.zero_le _, fun t hm => ?_⟩, ?_⟩
  · rcases List.mem_cons.mp hm with rfl | hm
    · exact h.called ▸ List.take_prefix _ _
    · exact h.turns t hm
  · rw [left_eq, List.drop_eq_nil_iff, h.called, List.take_eq_self_iff]

/-- A step within an iteration is prompt, and one that ends an iteration is
exactly when every loop callback was called. -/
theorem step_spec {l : DispatchLabel C} (h : s.Inv) (e : s.step l = some s') :
    s'.Inv ∧ ((s'.turns = s.turns ∧ s.Prompt l) ∨ ∃ t, Ended s s' t ∧ (t.called = t.registered ↔ s.Prompt l)) := by
  cases l with
  | waitEvent ready events =>
    simp only [step, Option.ite_none_right_eq_some, Option.some.injEq] at e
    obtain ⟨⟨hp, -⟩, rfl⟩ := e
    obtain ⟨hi, ht⟩ := onReady_spec h hp ready events
    exact ⟨hi, ht.imp (fun ht => ⟨ht, trivial⟩) fun ht => ⟨_, ht, iff_of_true rfl trivial⟩⟩
  | callEnds r =>
    simp only [step, Option.ite_none_left_eq_some, Option.some.injEq] at e
    obtain ⟨-, rfl⟩ := e
    cases hr : r.throws with
    | true =>
      obtain ⟨hi, hl⟩ := endTurn_spec (h.register r)
      refine ⟨hi, .inr ⟨_, rfl, hl.trans ?_⟩⟩
      simp only [Prompt, hr, true_imp_iff]
    | false =>
      have hprompt : s.Prompt (.callEnds r) := fun ht => absurd (hr.symm.trans ht) nofun
      obtain ⟨hi, ht⟩ := resume_spec (h.register r)
      exact ⟨hi, ht.imp (fun ht => ⟨ht, hprompt⟩) fun ht => ⟨_, ht, iff_of_true rfl hprompt⟩⟩

/-! ## Runs -/

theorem inductive_inv : (dispatch C).Inductive Inv where
  init := by
    intro s hinit
    obtain ⟨idle, loop, rfl⟩ := hinit
    exact ⟨rfl, Nat.zero_le _, nofun⟩
  step s l s' h e := (step_spec h e).1

/-- The iterations stay complete exactly over prompt steps. -/
theorem step_complete {l : DispatchLabel C} (hr : (dispatch C).Reachable s) (e : s.step l = some s') :
    (∀ t ∈ s'.turns, t.called = t.registered) ↔ (∀ t ∈ s.turns, t.called = t.registered) ∧ s.Prompt l := by
  rcases (step_spec (inductive_inv.reachable _ hr) e).2 with ⟨he, hp⟩ | ⟨t, he, hiff⟩
  · rw [he]
    exact (and_iff_left hp).symm
  · rw [he, List.forall_mem_cons, hiff, and_comm]

/-- In every iteration of a run each loop callback was called once, in order,
exactly when the run is prompt. In any run the iteration that goes on has
called the first of them, in order, and so had one that an exception ended. -/
theorem loop_callbacks (s : EventScheduler C) :
    (((dispatch C).guard Prompt).Reachable s ↔
      (dispatch C).Reachable s ∧ ∀ t ∈ s.turns, t.called = t.registered) ∧
    ((dispatch C).Reachable s → s.called <+: s.m_LoopCallbackList ∧ ∀ t ∈ s.turns, t.called <+: t.registered) := by
  have h0 : ∀ s, (dispatch C).init s → ∀ t ∈ s.turns, t.called = t.registered := by
    intro s hs
    obtain ⟨idle, loop, rfl⟩ := hs
    exact nofun
  refine ⟨LTS.guard_reachable h0 (fun _ _ _ => step_complete) s, fun hr => ?_⟩
  have h := inductive_inv.reachable s hr
  exact ⟨h.called ▸ List.take_prefix _ _, h.turns⟩

/-! ## A listening socket that cannot accept -/

/-- How `accept` and `Register` go; `cb` is what the `OnConnected` of the server does. -/
inductive Accepted (C : Type) where
  | fail (errno : Int)
  | refused
  | connected (cb : CallEnd C)

def EAGAIN : Int := 11
def EMFILE : Int := 24

/-- How the handler of a listening socket ends.
mirrors include/TcpServer.hpp:62-113 -/
def onAcceptable : Accepted C → CallEnd C
  | .fail errno => if errno = EAGAIN then {} else { throws := true }
  | .refused => { throws := true }
  | .connected cb => cb

/-- One timer is registered, and the process is out of descriptors: the event is
reported in every iteration, for as long as the loop runs, and `CheckTimer` is
called in none. -/
theorem starved : ∃ run : Nat → EventScheduler Unit, (dispatch Unit).init (run 0) ∧
    (∀ n, ∃ s, (run n).step (.waitEvent 1 IN) = some s ∧ s.pc = .handler .OnReadable ∧
      s.step (.callEnds (onAcceptable (.fail EMFILE))) = some (run (n + 1))) ∧
    ∀ n, (run n).turns = List.replicate n { called := [], registered := [()] } := by
  refine ⟨fun n => { m_LoopCallbackList := [()], turns := List.replicate n ⟨[], [()]⟩ }, ⟨[], [()], rfl⟩, fun n => ?_,
    fun n => rfl⟩
  exact ⟨{ m_LoopCallbackList := [()], pc := .handler .OnReadable, turns := List.replicate n ⟨[], [()]⟩ },
    rfl, rfl, rfl⟩

end EventScheduler
end SimpleSvr.L5
