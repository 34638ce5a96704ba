import SimpleSvr.Core.LTS
import Mathlib.Data.List.Nodup
import Mathlib.Logic.Relation

/-!
# Worker processes on one listening socket (`Pool.cc`, `TcpServer.hpp`)

`ProcessPool::Startup` forks the workers, and each of them waits for connections
on the socket that was made before. `epoll_wait` reports it to every worker while
a connection is pending; the socket blocks, so a worker that comes to `accept`
after the last of them was taken stays there, and with it its clients and timers.

`workers_share`: the workers have different ids, and every connection goes to one
worker, in order, whatever the interleaving. One worker alone is never stuck, of
two or more some can be; and nobody is left stuck exactly in the runs in which a
worker goes to `accept` only when more connections are pending than workers are
on the way there.
-/
namespace SimpleSvr.L5

/-- Where a worker is. `returned`: `Startup` has returned -1. -/
inductive WorkerPc where
  | fork (i : UInt32)
  | startup
  | waitEvent
  | accept
  | returned
deriving DecidableEq

structure Worker where
  m_id : UInt32 := 0
  pc : WorkerPc
deriving DecidableEq

/-- `backlog` are the connections that are pending, by number; `arrived` is how many there were. -/
structure WorkerPool where
  workers : List Worker := [{ pc := .fork 1 }]
  backlog : List Nat := []
  arrived : Nat := 0
  accepted : List (Nat × Nat) := []
deriving DecidableEq

namespace WorkerPool

inductive Label where
  | fork (ok : Bool)
  | startup (worker : Nat) (ok : Bool)
  | connect
  | wake (worker : Nat)
  | accept (worker : Nat)

/-- The loop of `Startup`, in the process that it was called in. The child breaks out of it.
mirrors src/Pool.cc:44-54 -/
def fork (num : UInt32) (s : WorkerPool) (ok : Bool) : Option WorkerPool :=
  match s.workers with
  | ⟨id, .fork i⟩ :: others =>
    if i < num then
      if ok then some { s with workers := ⟨id, .fork (i + 1)⟩ :: (others ++ [⟨i, .startup⟩]) }
      else some { s with workers := ⟨id, .returned⟩ :: others }
    else some { s with workers := ⟨id, .startup⟩ :: others }
  | _ => none

/-- `CreateScheduler` and the startup callbacks, up to `Dispatch`; `ok`: none of them failed.
mirrors src/Pool.cc:56-71 -/
def startup (s : WorkerPool) (worker : Nat) (ok : Bool) : Option WorkerPool :=
  match s.workers[worker]? with
  | some ⟨id, .startup⟩ =>
    some { s with workers := s.workers.set worker ⟨id, if ok then .waitEvent else .returned⟩ }
  | _ => none

def connect (s : WorkerPool) : WorkerPool := { s with backlog := s.backlog ++ [s.arrived], arrived := s.arrived + 1 }

/-- `epoll_wait` returns the listening socket, and `OnReadable` calls `OnAcceptable`.
mirrors include/EventScheduler.hpp:138-146 -/
def wake (s : WorkerPool) (worker : Nat) : Option WorkerPool :=
  match s.workers[worker]? with
  | some ⟨id, .waitEvent⟩ =>
    if s.backlog = [] then none else some { s with workers := s.workers.set worker ⟨id, .accept⟩ }
  | _ => none

/-- `accept` returns when a connection is pending.
mirrors include/TcpServer.hpp:62-113 -/
def accept (s : WorkerPool) (worker : Nat) : Option WorkerPool :=
  match s.workers[worker]?, s.backlog with
  | some ⟨id, .accept⟩, connection :: backlog =>
    some { s with
      workers := s.workers.set worker ⟨id, .waitEvent⟩
      backlog
      accepted := s.accepted ++ [(worker, connection)] }
  | _, _ => none

def step (num : UInt32) (s : WorkerPool) : Label → Option WorkerPool
  | .fork ok => s.fork num ok
  | .startup worker ok => s.startup worker ok
  | .connect => some s.connect
  | .wake worker => s.wake worker
  | .accept worker => s.accept worker

/-- `Startup(num)`, called once. -/
def pool (num : UInt32) : LTS WorkerPool Label := .ofFn (fun s => s = {}) (step num)

/-- How many workers have come to `accept`. -/
def accepting (s : WorkerPool) : Nat := s.workers.countP fun w => w.pc = .accept

/-- A worker stays in `accept`. -/
def Stuck (s : WorkerPool) : Prop := s.backlog = [] ∧ 0 < s.accepting

/-- There is a connection for every worker that has come to `accept`. -/
def Enough (s : WorkerPool) : Prop := s.accepting ≤ s.backlog.length

/-- A worker goes to `accept` only when more connections are pending than workers are on the way there. -/
def Spare (s : WorkerPool) : Label → Prop
  | .wake _ => s.accepting < s.backlog.length
  | _ => True

instance (s : WorkerPool) : (l : Label) → Decidable (Spare s l)
  | .wake _ => inferInstanceAs (Decidable (_ < _))
  | .fork _ | .startup .. | .connect | .accept _ => inferInstanceAs (Decidable True)

/-! ## What a step does -/

variable {num : UInt32} {s s' : WorkerPool} {l : Label}

theorem accepting_set {worker : Nat} {w v : Worker} (h : s.workers[worker]? = some w) :
    (s.workers.set worker v).countP (fun w => decide (w.pc = .accept)) + (if w.pc = .accept then 1 else 0) =
      s.accepting + if v.pc = .accept then 1 else 0 := by
  obtain ⟨hlt, rfl⟩ := List.getElem?_eq_some_iff.mp h
  have hle : (if s.workers[worker].pc = .accept then 1 else 0) ≤ s.accepting := by
    split
    · next hpc => exact List.countP_pos_iff.mpr ⟨_, List.getElem_mem hlt, decide_eq_true hpc⟩
    · exact Nat.zero_le _
  rw [List.countP_set hlt]
  simp only [decide_eq_true_eq]
  unfold accepting at hle ⊢
  omega

/-- What a step of one worker that is past the loop does. -/
structure Moves (s s' : WorkerPool) (worker : Nat) (w v : Worker) : Prop where
  at_ : s.workers[worker]? = some w
  id : v.m_id = w.m_id
  past : ∀ i, v.pc ≠ .fork i
  workers : s'.workers = s.workers.set worker v

/-- What the loop of `Startup` does: it forks, or ends. -/
inductive Forks (num : UInt32) (s s' : WorkerPool) : Prop where
  | forked (id i : UInt32) (others : List Worker) (hs : s.workers = ⟨id, .fork i⟩ :: others) (hi : i < num)
    (hs' : s' = { s with workers := ⟨id, .fork (i + 1)⟩ :: (others ++ [⟨i, .startup⟩]) })
  | ended (id i : UInt32) (pc : WorkerPc) (others : List Worker) (hs : s.workers = ⟨id, .fork i⟩ :: others)
    (hpc : pc = .startup ∨ pc = .returned) (hs' : s' = { s with workers := ⟨id, pc⟩ :: others })

theorem fork_cases {ok : Bool} (h : s.fork num ok = some s') : Forks num s s' := by
  unfold fork at h
  split at h
  · next id i others hs =>
    split_ifs at h with hi hok
    · exact .forked id i others hs hi (Option.some.inj h).symm
    · exact .ended id i _ others hs (.inr rfl) (Option.some.inj h).symm
    · exact .ended id i _ others hs (.inl rfl) (Option.some.inj h).symm
  · cases h

theorem startup_cases {worker : Nat} {ok : Bool} (h : s.startup worker ok = some s') :
    (∃ w v, Moves s s' worker w v ∧ w.pc ≠ .accept ∧ v.pc ≠ .accept) ∧ s'.backlog = s.backlog ∧
      s'.arrived = s.arrived ∧ s'.accepted = s.accepted := by
  unfold startup at h
  split at h
  · next id hw =>
    cases h
    refine ⟨⟨_, ⟨id, if ok then .waitEvent else .returned⟩, ⟨hw, rfl, fun i => ?_, rfl⟩, nofun, ?_⟩, rfl, rfl, rfl⟩ <;>
      cases ok <;> nofun
  · cases h

theorem wake_cases {worker : Nat} (h : s.wake worker = some s') :
    (∃ w v, Moves s s' worker w v ∧ w.pc = .waitEvent ∧ v.pc = .accept) ∧ s.backlog ≠ [] ∧
      s'.backlog = s.backlog ∧ s'.arrived = s.arrived ∧ s'.accepted = s.accepted := by
  unfold wake at h
  split at h
  · next id hw =>
    split_ifs at h with hnil
    cases h
    exact ⟨⟨_, ⟨id, .accept⟩, ⟨hw, rfl, nofun, rfl⟩, rfl, rfl⟩, hnil, rfl, rfl, rfl⟩
  · cases h

theorem accept_cases {worker : Nat} (h : s.accept worker = some s') :
    (∃ w v, Moves s s' worker w v ∧ w.pc = .accept ∧ v.pc = .waitEvent) ∧
      ∃ connection, s.backlog = connection :: s'.backlog ∧ s'.arrived = s.arrived ∧
        s'.accepted = s.accepted ++ [(worker, connection)] := by
  unfold accept at h
  split at h
  · next id connection backlog hw hback =>
    cases h
    exact ⟨⟨_, ⟨id, .waitEvent⟩, ⟨hw, rfl, nofun, rfl⟩, rfl, rfl⟩, connection, hback, rfl, rfl⟩
  · cases h

/-! ## The workers -/

/-- The workers are the ones that were forked, in order. -/
structure Family (num : UInt32) (s : WorkerPool) : Prop where
  ids : s.workers.map Worker.m_id = (List.range s.workers.length).map UInt32.ofNat
  few : s.workers.length ≤ max 1 num.toNat
  forking : ∀ id i others, s.workers = ⟨id, .fork i⟩ :: others → i.toNat = s.workers.length

theorem Family.moves {worker : Nat} {w v : Worker} (h : Family num s) (hm : Moves s s' worker w v) :
    Family num s' := by
  obtain ⟨hlt, hw⟩ := List.getElem?_eq_some_iff.mp hm.at_
  have hlen : s'.workers.length = s.workers.length := by rw [hm.workers, List.length_set]
  refine ⟨?_, hlen ▸ h.few, fun id i others hs => ?_⟩
  · have hsame : (s.workers.map Worker.m_id).set worker v.m_id = s.workers.map Worker.m_id := by
      rw [hm.id, ← hw, ← List.map_set, List.set_getElem_self]
    rw [hlen, ← h.ids, hm.workers, List.map_set, hsame]
  · rw [hm.workers] at hs
    rw [hlen]
    cases hworkers : s.workers with
    | nil => simp [hworkers] at hlt
    | cons first rest =>
      rw [hworkers] at hs
      cases worker with
      | zero =>
        rw [List.set_cons_zero] at hs
        exact absurd (congrArg Worker.pc (List.cons.inj hs).1) (hm.past i)
      | succ worker =>
        rw [List.set_cons_succ] at hs
        rw [← hworkers]
        exact h.forking id i rest (hworkers.trans (congrArg (· :: rest) (List.cons.inj hs).1))

theorem Family.forks (h : Family num s) (hf : Forks num s s') : Family num s' := by
  cases hf with
  | forked id i others hs hi hs' =>
    have hlen := h.forking id i others hs
    have hids := h.ids
    have hlt := UInt32.lt_iff_toNat_lt.mp hi
    have hnum := num.toNat_lt
    have hnext : (i + 1).toNat = i.toNat + 1 := by
      rw [UInt32.toNat_add, UInt32.toNat_one]
      omega
    have hlen' : s'.workers.length = s.workers.length + 1 := by
      rw [hs', hs, List.length_cons, List.length_append, List.length_cons]
      rfl
    refine ⟨?_, by omega, fun id' i' others' hs'' => ?_⟩
    · have hcount : UInt32.ofNat s.workers.length = i := by rw [← hlen, UInt32.ofNat_toNat]
      rw [hlen', List.range_succ, List.map_append, ← hids, hs', hs, List.map_singleton, ← hs, hcount]
      simp [hs]
    · rw [hs'] at hs''
      obtain ⟨hhead, -⟩ := List.cons.inj hs''
      cases hhead
      omega
  | ended id i pc others hs hpc hs' =>
    have hids := h.ids
    have hfew := h.few
    rw [hs] at hids hfew
    subst hs'
    refine ⟨hids, hfew, fun id' i' others' hs'' => ?_⟩
    obtain ⟨hhead, -⟩ := List.cons.inj hs''
    rcases hpc with rfl | rfl <;> cases hhead

theorem family_inductive (num : UInt32) : (pool num).Inductive (Family num) where
  init := by
    rintro s rfl
    refine ⟨rfl, Nat.le_max_left _ _, fun id i others hs => ?_⟩
    obtain ⟨hhead, -⟩ := List.cons.inj hs
    cases hhead
    rfl
  step := by
    intro s l s' h hs
    cases l with
    | fork ok => exact h.forks (fork_cases hs)
    | startup worker ok =>
      obtain ⟨⟨w, v, hm, -⟩, -⟩ := startup_cases hs
      exact h.moves hm
    | connect =>
      cases hs
      exact ⟨h.ids, h.few, h.forking⟩
    | wake worker =>
      obtain ⟨⟨w, v, hm, -⟩, -⟩ := wake_cases hs
      exact h.moves hm
    | accept worker =>
      obtain ⟨⟨w, v, hm, -⟩, -⟩ := accept_cases hs
      exact h.moves hm

/-! ## The connections -/

/-- Each connection was taken once or is pending, in order. -/
structure Shared (s : WorkerPool) : Prop where
  order : s.accepted.map Prod.snd ++ s.backlog = List.range s.arrived
  taken : ∀ e ∈ s.accepted, e.1 < s.workers.length

theorem Shared.of_eq (h : Shared s) (hlen : s.workers.length ≤ s'.workers.length) (hback : s'.backlog = s.backlog)
    (harrived : s'.arrived = s.arrived) (haccepted : s'.accepted = s.accepted) : Shared s' where
  order := by rw [haccepted, hback, harrived, h.order]
  taken e he := Nat.lt_of_lt_of_le (h.taken e (haccepted ▸ he)) hlen

theorem shared_inductive (num : UInt32) : (pool num).Inductive Shared where
  init := by
    rintro s rfl
    exact ⟨rfl, nofun⟩
  step := by
    intro s l s' h hs
    cases l with
    | fork ok =>
      cases fork_cases hs with
      | forked id i others hworkers hi hs' =>
        subst hs'
        refine h.of_eq ?_ rfl rfl rfl
        rw [hworkers, List.length_cons, List.length_cons, List.length_append]
        exact Nat.succ_le_succ (Nat.le_add_right _ _)
      | ended id i pc others hworkers hpc hs' =>
        subst hs'
        exact h.of_eq (Nat.le_of_eq (by simp [hworkers])) rfl rfl rfl
    | startup worker ok =>
      obtain ⟨⟨w, v, hm, -⟩, hback, harrived, haccepted⟩ := startup_cases hs
      exact h.of_eq (Nat.le_of_eq (by rw [hm.workers, List.length_set])) hback harrived haccepted
    | connect =>
      cases hs
      refine ⟨?_, h.taken⟩
      show s.accepted.map Prod.snd ++ (s.backlog ++ [s.arrived]) = List.range (s.arrived + 1)
      rw [← List.append_assoc, h.order, List.range_succ]
    | wake worker =>
      obtain ⟨⟨w, v, hm, -⟩, -, hback, harrived, haccepted⟩ := wake_cases hs
      exact h.of_eq (Nat.le_of_eq (by rw [hm.workers, List.length_set])) hback harrived haccepted
    | accept worker =>
      obtain ⟨⟨w, v, hm, -⟩, connection, hback, harrived, haccepted⟩ := accept_cases hs
      have hlen : s'.workers.length = s.workers.length := by rw [hm.workers, List.length_set]
      constructor
      · rw [harrived, ← h.order, hback, haccepted, List.map_append, List.append_assoc]
        rfl
      · rw [hlen, haccepted]
        intro e he
        rcases List.mem_append.mp he with he | he
        · exact h.taken e he
        · rw [List.mem_singleton.mp he]
          exact (List.getElem?_eq_some_iff.mp hm.at_).1

/-! ## Waiting in accept -/

theorem Moves.accepting {worker : Nat} {w v : Worker} (h : Moves s s' worker w v) :
    s'.accepting + (if w.pc = .accept then 1 else 0) = s.accepting + if v.pc = .accept then 1 else 0 := by
  rw [WorkerPool.accepting, h.workers]
  exact accepting_set h.at_

theorem forks_accepting (h : Forks num s s') : s'.accepting = s.accepting := by
  cases h with
  | forked id i others hs hi hs' => simp [hs', accepting, hs]
  | ended id i pc others hs hpc hs' =>
    rcases hpc with rfl | rfl <;> simp [hs', accepting, hs]

/-- The first step after which a worker too many is at `accept` is one that is not spare. -/
theorem step_enough (h : Enough s) (hs : step num s l = some s') : Enough s' ↔ Spare s l := by
  unfold Enough at h ⊢
  cases l with
  | fork ok =>
    have hf := fork_cases hs
    rw [forks_accepting hf]
    cases hf <;> next hs' => subst hs'; exact iff_of_true h trivial
  | startup worker ok =>
    obtain ⟨⟨w, v, hm, hw, hv⟩, hback, -⟩ := startup_cases hs
    have hsame := hm.accepting
    rw [if_neg hw, if_neg hv] at hsame
    rw [hback]
    exact iff_of_true (by omega) trivial
  | connect =>
    cases hs
    refine iff_of_true ?_ trivial
    show s.accepting ≤ (s.backlog ++ [s.arrived]).length
    rw [List.length_append]
    exact Nat.le_add_right_of_le h
  | wake worker =>
    obtain ⟨⟨w, v, hm, hw, hv⟩, -, hback, -⟩ := wake_cases hs
    have hone := hm.accepting
    rw [if_pos hv, if_neg (by rw [hw]; decide)] at hone
    rw [hback, Spare]
    omega
  | accept worker =>
    obtain ⟨⟨w, v, hm, hw, hv⟩, connection, hback, -⟩ := accept_cases hs
    have hone := hm.accepting
    rw [if_pos hw, if_neg (by rw [hv]; decide)] at hone
    rw [hback, List.length_cons] at h
    exact iff_of_true (by omega) trivial

/-- Workers come back from `accept`, and nothing else happens. -/
def Accepts : WorkerPool → WorkerPool → Prop := Relation.ReflTransGen fun s s' => ∃ worker, s.accept worker = some s'

theorem enough_accept {worker : Nat} (hs : s.accept worker = some s') : Enough s' ↔ Enough s := by
  obtain ⟨⟨w, v, hm, hw, hv⟩, connection, hback, -⟩ := accept_cases hs
  have hone := hm.accepting
  rw [if_pos hw, if_neg (by rw [hv]; decide)] at hone
  rw [Enough, Enough, hback, List.length_cons]
  omega

theorem Enough.not_stuck (h : Enough s) : ¬Stuck s := by
  intro hstuck
  rw [Enough, hstuck.1] at h
  exact Nat.lt_irrefl _ (Nat.lt_of_lt_of_le hstuck.2 h)

theorem Enough.accepts (h : Enough s) (ha : Accepts s s') : Enough s' := by
  induction ha with
  | refl => exact h
  | tail _ hs ih =>
    obtain ⟨worker, hs⟩ := hs
    exact (enough_accept hs).mpr ih

theorem exists_accept (hpos : 0 < s.accepting) (hback : s.backlog ≠ []) : ∃ worker s', s.accept worker = some s' := by
  obtain ⟨w, hw, hpc⟩ := List.countP_pos_iff.mp hpos
  obtain ⟨worker, hlt, rfl⟩ := List.getElem_of_mem hw
  obtain ⟨connection, backlog, hcons⟩ := List.exists_cons_of_ne_nil hback
  have hpc : s.workers[worker].pc = .accept := of_decide_eq_true hpc
  have hat : s.workers[worker]? = some ⟨s.workers[worker].m_id, .accept⟩ := by
    rw [List.getElem?_eq_getElem hlt, ← hpc]
  exact ⟨worker, _, by rw [accept, hat, hcons]⟩

/-- Where a worker too many is at `accept`, one of them stays there. -/
theorem stuck_of_not_enough (h : ¬Enough s) : ∃ s', Accepts s s' ∧ Stuck s' := by
  generalize hn : s.backlog.length = n
  induction n generalizing s with
  | zero =>
    refine ⟨s, .refl, List.eq_nil_of_length_eq_zero hn, ?_⟩
    rw [Enough, hn] at h
    exact Nat.not_le.mp h
  | succ n ih =>
    have hpos : 0 < s.accepting := Nat.lt_of_le_of_lt (Nat.zero_le _) (Nat.not_le.mp h)
    obtain ⟨worker, s₁, hs⟩ := exists_accept hpos fun hnil => by simp [hnil] at hn
    obtain ⟨-, connection, hback, -⟩ := accept_cases hs
    rw [hback, List.length_cons] at hn
    obtain ⟨s', ha, hstuck⟩ := ih (fun he => h ((enough_accept hs).mp he)) (Nat.succ.inj hn)
    exact ⟨s', .head ⟨worker, hs⟩ ha, hstuck⟩

theorem enough_inductive (num : UInt32) : ((pool num).guard Spare).Inductive Enough where
  init := by
    rintro s rfl
    exact Nat.le_refl 0
  step := by
    intro s l s' h hs
    exact (step_enough h hs.2).mpr hs.1

/-! ## Runs -/

/-- One worker alone goes to `accept` when a connection is pending, and takes it. -/
theorem spare_alone (hf : Family num s) (hnum : num ≤ 1) (hs : step num s l = some s') : Spare s l := by
  cases l with
  | wake worker =>
    obtain ⟨⟨w, v, hm, hw, hv⟩, hback, -⟩ := wake_cases hs
    have hfew := hf.few
    have hone := UInt32.le_iff_toNat_le.mp hnum
    have hmem := List.mem_of_getElem? hm.at_
    have hall : s.accepting < s.workers.length := by
      refine Nat.lt_of_le_of_ne List.countP_le_length fun heq => ?_
      have hpc : w.pc = .accept := of_decide_eq_true (List.countP_eq_length.mp heq w hmem)
      rw [hw] at hpc
      cases hpc
    have hsome := List.length_pos_of_ne_nil hback
    rw [UInt32.toNat_one] at hone
    rw [Spare]
    omega
  | fork ok => trivial
  | startup worker ok => trivial
  | connect => trivial
  | accept worker => trivial

theorem spare_reachable_alone (hnum : num ≤ 1) (hr : (pool num).Reachable s) :
    ((pool num).guard Spare).Reachable s := by
  induction hr with
  | init h => exact .init h
  | step hr hs ih => exact .step ih ⟨spare_alone ((family_inductive num).reachable _ hr) hnum hs, hs⟩

/-- Two workers go to `accept` for one connection. -/
def crowd (first second : Nat) : List Label :=
  [.startup first true, .startup second true, .connect, .wake first, .wake second, .accept first]

theorem stuck_of_crowd {first second : Nat} (hr : (pool num).Reachable s)
    (h : ∃ s', (crowd first second).foldlM (step num) s = some s' ∧ s'.backlog = [] ∧ s'.accepting = 1) :
    ∃ s', (pool num).Reachable s' ∧ Stuck s' := by
  obtain ⟨s', hs, hback, hone⟩ := h
  have hstep : ∀ s l s', True → step num s l = some s' → (pool num).step s l s' := fun _ _ _ _ hs => hs
  exact ⟨s', .run hstep (crowd first second) (fun _ _ => trivial) hr hs, hback, hone ▸ Nat.one_pos⟩

theorem exists_stuck (hnum : 2 ≤ num) : ∃ s, (pool num).Reachable s ∧ Stuck s := by
  have h1 : 1 < num := by
    rw [UInt32.lt_iff_toNat_lt]
    exact UInt32.le_iff_toNat_le.mp hnum
  have hfirst : step num {} (.fork true) = some { workers := [⟨0, .fork 2⟩, ⟨1, .startup⟩] } := if_pos h1
  have hfork := LTS.Reachable.step (M := pool num) (.init rfl) hfirst
  by_cases h2 : 2 < num
  · have hnext : step num { workers := [⟨0, .fork 2⟩, ⟨1, .startup⟩] } (.fork true) =
        some { workers := [⟨0, .fork 3⟩, ⟨1, .startup⟩, ⟨2, .startup⟩] } := if_pos h2
    have hforks := LTS.Reachable.step (M := pool num) hfork hnext
    exact @stuck_of_crowd num _ 1 2 hforks ⟨_, rfl, rfl, rfl⟩
  · have hlast : step num { workers := [⟨0, .fork 2⟩, ⟨1, .startup⟩] } (.fork true) =
        some { workers := [⟨0, .startup⟩, ⟨1, .startup⟩] } := if_neg h2
    have hended := LTS.Reachable.step (M := pool num) hfork hlast
    exact @stuck_of_crowd num _ 0 1 hended ⟨_, rfl, rfl, rfl⟩

/-- The ids of the workers are 0, 1, ..., no more than were asked for, whichever forks fail; every connection that
arrived is pending or went to one worker, in order. Of two or more workers one can be stuck in `accept`, of one not.
And after steps in which workers went there with a connection to spare, those that are there come back, unless the
next step takes one there without. -/
theorem workers_share (num : UInt32) :
    (∀ s, (pool num).Reachable s →
      s.workers.map Worker.m_id = (List.range s.workers.length).map UInt32.ofNat ∧
      s.workers.length ≤ max 1 num.toNat ∧
      s.accepted.map Prod.snd ++ s.backlog = List.range s.arrived ∧
      ∀ e ∈ s.accepted, e.1 < s.workers.length) ∧
    ((∀ s, (pool num).Reachable s → ¬Stuck s) ↔ num ≤ 1) ∧
    ∀ s l s', ((pool num).guard Spare).Reachable s → (pool num).step s l s' →
      ((∀ s'', Accepts s' s'' → ¬Stuck s'') ↔ Spare s l) := by
  refine ⟨fun s hr => ?_, ⟨fun h => ?_, fun hnum s hr => ?_⟩, fun s l s' hr hs => ?_⟩
  · have hf := (family_inductive num).reachable s hr
    have h := (shared_inductive num).reachable s hr
    exact ⟨hf.ids, hf.few, h.order, h.taken⟩
  · by_contra hnum
    have htwo : 2 ≤ num := by
      have hlt := UInt32.lt_iff_toNat_lt.mp (UInt32.not_le.mp hnum)
      exact UInt32.le_iff_toNat_le.mpr hlt
    obtain ⟨s, hr, hstuck⟩ := exists_stuck htwo
    exact h s hr hstuck
  · exact ((enough_inductive num).reachable s (spare_reachable_alone hnum hr)).not_stuck
  · rw [← step_enough ((enough_inductive num).reachable s hr) hs]
    constructor
    · intro h
      by_contra hno
      obtain ⟨s'', ha, hstuck⟩ := stuck_of_not_enough hno
      exact h s'' ha hstuck
    · intro he s'' ha
      exact (he.accepts ha).not_stuck

def twoWorkers : List Label :=
  [.fork true, .fork true, .startup 0 true, .startup 1 true, .connect, .wake 0]

/-- Both workers have seen the one connection. -/
theorem workers_share_two : ∃ s s', (pool 2).step s (.wake 1) s' ∧ s.workers.length ≤ 2 ∧
    ¬∀ s'', Accepts s' s'' → ¬Stuck s'' := by
  have hrun : twoWorkers.foldlM (LTS.checked (fun s l => Spare s l ∧ True) (step 2)) {} =
      some ⟨[⟨0, .accept⟩, ⟨1, .waitEvent⟩], [0], 1, []⟩ := by decide
  have hr := LTS.Reachable.checked_guard (M := pool 2) (P := Spare) (fun _ _ _ _ hs => hs) twoWorkers (.init rfl) hrun
  have hr' := LTS.Reachable.checked (M := pool 2) (fun _ _ _ _ hs => hs) twoWorkers (.init rfl) hrun
  have hs : (pool 2).step ⟨[⟨0, .accept⟩, ⟨1, .waitEvent⟩], [0], 1, []⟩ (.wake 1)
      ⟨[⟨0, .accept⟩, ⟨1, .accept⟩], [0], 1, []⟩ := rfl
  refine ⟨_, _, hs, ((workers_share 2).1 _ hr').2.1, fun hall => ?_⟩
  have hspare := ((workers_share 2).2.2 _ _ _ hr hs).mp hall
  revert hspare
  decide

end WorkerPool
end SimpleSvr.L5
