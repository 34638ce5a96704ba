import SimpleSvr.Core.LTS
import Mathlib.Logic.Function.Basic
import Mathlib.Logic.Relation

/-!
# One instance at a time (`Application.hpp`, `Pool.cc`)

`AppRun` takes a lock on the pid file before it starts anything, and gives up when
another process has it. The lock belongs to the process that took it: the workers
that `ProcessPool::Startup` forks do not have it, and it is gone with that process,
also when they go on.

`one_instance`: of the processes that have started, one at most has the pool id 0,
in every run. That no two have the same id at all, and so the same log files and
ports, holds in the runs in which the process with the lock leaves after its
workers; and where it leaves before them, another instance can start and come to
have an id twice.

A process is named by a number that is not given again. The pid file is one that
nobody removes.
-/
namespace SimpleSvr.L5

/-- Where a process is in `AppRun`. `locked`: it has the lock and calls `Initialize`. -/
inductive AppPc where
  | load
  | daemon
  | pidFile
  | locked
  | fork (i : UInt32)
  | startup
  | dispatch
deriving DecidableEq

structure Process where
  daemon : Bool
  concurrency : UInt32
  m_id : UInt32 := 0
  pc : AppPc := .load
  /-- The process that took the lock for it. -/
  master : Option Nat := none
deriving DecidableEq

/-- `lock` is the process that has the lock on the pid file. -/
structure Instances where
  procs : Nat → Option Process := fun _ => none
  next : Nat := 0
  lock : Option Nat := none

namespace Instances

def put (s : Instances) (p : Nat) (x : Process) : Instances := { s with procs := Function.update s.procs p (some x) }

def spawn (s : Instances) (x : Process) : Instances :=
  { s with procs := Function.update s.procs s.next (some x), next := s.next + 1 }

/-- The kernel closes its files, and with them goes the lock. -/
def leave (s : Instances) (p : Nat) : Instances :=
  { s with procs := Function.update s.procs p none, lock := if s.lock = some p then none else s.lock }

/-- `daemon` forks, and the child goes on; where the fork fails the process goes on itself.
mirrors include/Application.hpp:379-381 -/
def daemon (s : Instances) (p : Nat) (x : Process) (ok : Bool) : Instances :=
  if x.daemon ∧ ok then (s.spawn { x with pc := .pidFile }).leave p else s.put p { x with pc := .pidFile }

/-- `ok`: the file is opened.
mirrors include/Application.hpp:188-202, 389-392 -/
def CreatePidFile (s : Instances) (p : Nat) (x : Process) (ok : Bool) : Instances :=
  if ok ∧ (s.lock = none ∨ s.lock = some p) then
    { s.put p { x with pc := .locked, master := some p } with lock := some p }
  else s.leave p

/-- The loop of `Startup`. Where a fork fails `Startup` returns, and so does `main`.
mirrors src/Pool.cc:44-54 -/
def fork (s : Instances) (p : Nat) (x : Process) (i : UInt32) (ok : Bool) : Instances :=
  if i < x.concurrency then
    if ok then (s.put p { x with pc := .fork (i + 1) }).spawn { x with m_id := i, pc := .startup } else s.leave p
  else s.put p { x with pc := .startup }

/-- `p` goes on to the next place; `ok`: what is called there does not fail.
mirrors include/Application.hpp:365-398 and src/Pool.cc:42-74 -/
def advance (s : Instances) (p : Nat) (x : Process) (ok : Bool) : Option Instances :=
  match x.pc with
  | .load => some (if ok then s.put p { x with pc := .daemon } else s.leave p)
  | .daemon => some (s.daemon p x ok)
  | .pidFile => some (s.CreatePidFile p x ok)
  | .locked => some (if ok then s.put p { x with pc := .fork 1 } else s.leave p)
  | .fork i => some (s.fork p x i ok)
  | .startup => some (if ok then s.put p { x with pc := .dispatch } else s.leave p)
  | .dispatch => none

/-- `exit`: the process is killed, or `Dispatch` returns. -/
inductive Label where
  | launch (daemon : Bool) (concurrency : UInt32)
  | advance (p : Nat) (ok : Bool)
  | exit (p : Nat)
deriving DecidableEq

def step (s : Instances) : Label → Option Instances
  | .launch daemon concurrency => some (s.spawn { daemon, concurrency })
  | .advance p ok => (s.procs p).bind fun x => s.advance p x ok
  | .exit p => (s.procs p).map fun _ => s.leave p

def instances : LTS Instances Label := .ofFn (fun s => s = {}) step

/-- The processes that run under the lock that `m` took. -/
def workersOf (s : Instances) (m : Nat) : List Nat :=
  (List.range s.next).filter fun p => p ≠ m ∧ (s.procs p).bind Process.master = some m

/-- `m` is not there after the step. -/
def leaves (s : Instances) (l : Label) (m : Nat) : Bool := (step s l).any fun s' => (s'.procs m).isNone

/-- The process with the lock does not leave before its workers. -/
def Orderly (s : Instances) (l : Label) : Prop := ∀ m ∈ s.lock, leaves s l m → s.workersOf m = []

instance (s : Instances) (l : Label) : Decidable (Orderly s l) := inferInstanceAs (Decidable (∀ m ∈ s.lock, _))

/-! ## What a step does -/

variable {s s' : Instances} {l : Label} {p q m : Nat} {x y z : Process}

theorem put_procs : (s.put p y).procs q = some z ↔ (q = p ∧ z = y) ∨ (q ≠ p ∧ s.procs q = some z) := by
  by_cases hq : q = p
  · subst hq
    simp [put, eq_comm]
  · simp [put, hq]

theorem spawn_procs : (s.spawn y).procs q = some z ↔ (q = s.next ∧ z = y) ∨ (q ≠ s.next ∧ s.procs q = some z) := by
  by_cases hq : q = s.next
  · simp [spawn, hq, eq_comm]
  · simp [spawn, hq]

theorem leave_procs : (s.leave p).procs q = some z ↔ q ≠ p ∧ s.procs q = some z := by
  by_cases hq : q = p
  · simp [leave, hq]
  · simp [leave, hq]

theorem leave_lock : (s.leave p).lock = some m ↔ m ≠ p ∧ s.lock = some m := by
  simp only [leave]
  split
  · next h => simp [h, eq_comm]
  · next h =>
    refine ⟨fun hm => ⟨?_, hm⟩, And.right⟩
    rintro rfl
    exact h hm

/-! ## The processes -/

/-- Where a process is before it has the lock. -/
def early : AppPc → Bool
  | .load | .daemon | .pidFile => true
  | _ => false

/-- Where a worker is. -/
def working : AppPc → Bool
  | .startup | .dispatch => true
  | _ => false

/-- The id that the next worker is given. -/
def nextId : AppPc → Option UInt32
  | .locked => some 1
  | .fork i => some i
  | _ => none

/-- What the processes have of the lock and of each other. -/
structure Inv (s : Instances) : Prop where
  fresh : ∀ {p x}, s.procs p = some x → p < s.next
  early : ∀ {p x}, s.procs p = some x → (early x.pc = true ↔ x.master = none)
  first : ∀ {p x}, s.procs p = some x → x.master = none → x.m_id = 0
  held : ∀ {m}, s.lock = some m → ∃ x, s.procs m = some x ∧ x.master = some m
  own : ∀ {p x}, s.procs p = some x → x.master = some p → s.lock = some p ∧ x.m_id = 0
  worker : ∀ {p x m}, s.procs p = some x → x.master = some m → m ≠ p →
    working x.pc = true ∧ x.m_id ≠ 0 ∧ x.m_id < x.concurrency ∧ m < s.next
  live : ∀ {p x m y}, s.procs p = some x → x.master = some m → s.procs m = some y → y.master = some m
  forking : ∀ {p x i}, s.procs p = some x → nextId x.pc = some i →
    i ≠ 0 ∧ ∀ q y, s.procs q = some y → y.master = some p → y.m_id < i
  unique : ∀ {p x q y m}, s.procs p = some x → s.procs q = some y → x.master = some m → y.master = some m →
    x.m_id = y.m_id → p = q

theorem Inv.master_lt (h : Inv s) (hp : s.procs p = some x) (hm : x.master = some m) : m < s.next := by
  by_cases hmp : m = p
  · exact hmp ▸ h.fresh hp
  · exact (h.worker hp hm hmp).2.2.2

/-- `y` is `x` further on, on the same side of the lock. -/
structure Follows (x y : Process) : Prop where
  master : y.master = x.master
  m_id : y.m_id = x.m_id
  concurrency : y.concurrency = x.concurrency
  early : Instances.early y.pc = Instances.early x.pc
  working : Instances.working x.pc = true → Instances.working y.pc = true
  nextId : ∀ i, nextId y.pc = some i → ∃ j, Instances.nextId x.pc = some j ∧ j ≤ i

theorem Follows.refl (x : Process) : Follows x x := ⟨rfl, rfl, rfl, rfl, id, fun i h => ⟨i, h, UInt32.le_refl i⟩⟩

/-- No process is new, and the lock is where it was if that process is there. -/
structure Goes (s s' : Instances) : Prop where
  next : s'.next = s.next
  procs : ∀ {q y}, s'.procs q = some y → ∃ x, s.procs q = some x ∧ Follows x y
  lock : ∀ {m}, s'.lock = some m ↔ s.lock = some m ∧ ∃ y, s'.procs m = some y

theorem Inv.goes (h : Inv s) (hg : Goes s s') : Inv s' where
  fresh hq := by
    obtain ⟨x, hx, -⟩ := hg.procs hq
    exact hg.next ▸ h.fresh hx
  early hq := by
    obtain ⟨x, hx, hf⟩ := hg.procs hq
    rw [hf.early, hf.master]
    exact h.early hx
  first hq hm := by
    obtain ⟨x, hx, hf⟩ := hg.procs hq
    rw [hf.m_id]
    exact h.first hx (hf.master ▸ hm)
  held hm := by
    obtain ⟨hm, y, hy⟩ := hg.lock.mp hm
    obtain ⟨x, hx, hf⟩ := hg.procs hy
    obtain ⟨x', hx', hmaster⟩ := h.held hm
    rw [hx] at hx'
    cases hx'
    exact ⟨y, hy, hf.master.trans hmaster⟩
  own hq hm := by
    obtain ⟨x, hx, hf⟩ := hg.procs hq
    obtain ⟨hlock, hid⟩ := h.own hx (hf.master ▸ hm)
    exact ⟨hg.lock.mpr ⟨hlock, _, hq⟩, hf.m_id.trans hid⟩
  worker hq hm hne := by
    obtain ⟨x, hx, hf⟩ := hg.procs hq
    obtain ⟨hw, hrest⟩ := h.worker hx (hf.master ▸ hm) hne
    rw [hf.m_id, hf.concurrency, hg.next]
    exact ⟨hf.working hw, hrest⟩
  live hq hm hy := by
    obtain ⟨x, hx, hf⟩ := hg.procs hq
    obtain ⟨y, hy, hf'⟩ := hg.procs hy
    exact hf'.master.trans (h.live hx (hf.master ▸ hm) hy)
  forking hq hi := by
    obtain ⟨x, hx, hf⟩ := hg.procs hq
    obtain ⟨j, hj, hle⟩ := hf.nextId _ hi
    obtain ⟨hne, hlt⟩ := h.forking hx hj
    refine ⟨?_, fun r z hr hm => ?_⟩
    · rintro rfl
      exact hne (UInt32.le_antisymm hle (UInt32.zero_le))
    · obtain ⟨z', hz', hf'⟩ := hg.procs hr
      rw [hf'.m_id]
      exact UInt32.lt_of_lt_of_le (hlt r z' hz' (hf'.master ▸ hm)) hle
  unique hq hr hm hm' heq := by
    obtain ⟨x, hx, hf⟩ := hg.procs hq
    obtain ⟨z, hz, hf'⟩ := hg.procs hr
    exact h.unique hx hz (hf.master ▸ hm) (hf'.master ▸ hm') (by rw [← hf.m_id, heq, hf'.m_id])

theorem Inv.goes_put (h : Inv s) (hp : s.procs p = some x) (hf : Follows x y) : Goes s (s.put p y) where
  next := rfl
  procs {q z} hq := by
    obtain ⟨rfl, rfl⟩ | ⟨-, hq⟩ := put_procs.mp hq
    · exact ⟨x, hp, hf⟩
    · exact ⟨z, hq, .refl z⟩
  lock {m} := by
    refine ⟨fun hm => ⟨hm, ?_⟩, And.left⟩
    obtain ⟨z, hz, -⟩ := h.held hm
    by_cases hmp : m = p
    · exact ⟨y, put_procs.mpr (.inl ⟨hmp, rfl⟩)⟩
    · exact ⟨z, put_procs.mpr (.inr ⟨hmp, hz⟩)⟩

theorem Inv.goes_leave (h : Inv s) (p : Nat) : Goes s (s.leave p) where
  next := rfl
  procs {q z} hq := ⟨z, (leave_procs.mp hq).2, .refl z⟩
  lock {m} := by
    constructor
    · intro hm
      obtain ⟨hne, hm⟩ := leave_lock.mp hm
      obtain ⟨z, hz, -⟩ := h.held hm
      exact ⟨hm, z, leave_procs.mpr ⟨hne, hz⟩⟩
    · rintro ⟨hm, y, hy⟩
      exact leave_lock.mpr ⟨(leave_procs.mp hy).1, hm⟩

/-- `x` can come new to the others: before the lock, or as the next worker of a process that forks. -/
structure Joins (s : Instances) (x : Process) : Prop where
  early : Instances.early x.pc = true ↔ x.master = none
  first : x.master = none → x.m_id = 0
  nextId : Instances.nextId x.pc = none
  worker : ∀ m, x.master = some m → working x.pc = true ∧ x.m_id ≠ 0 ∧ x.m_id < x.concurrency ∧
    (∃ y, s.procs m = some y ∧ y.master = some m ∧ ∀ i, Instances.nextId y.pc = some i → x.m_id < i) ∧
    ∀ q z, s.procs q = some z → z.master = some m → z.m_id ≠ x.m_id

theorem Inv.spawn (h : Inv s) (hj : Joins s x) : Inv (s.spawn x) where
  fresh hq := by
    obtain ⟨rfl, -⟩ | ⟨-, hq⟩ := spawn_procs.mp hq
    · exact Nat.lt_succ_self _
    · exact Nat.lt_succ_of_lt (h.fresh hq)
  early hq := by
    obtain ⟨-, rfl⟩ | ⟨-, hq⟩ := spawn_procs.mp hq
    · exact hj.early
    · exact h.early hq
  first hq hm := by
    obtain ⟨-, rfl⟩ | ⟨-, hq⟩ := spawn_procs.mp hq
    · exact hj.first hm
    · exact h.first hq hm
  held hm := by
    obtain ⟨z, hz, hmaster⟩ := h.held hm
    exact ⟨z, spawn_procs.mpr (.inr ⟨Nat.ne_of_lt (h.fresh hz), hz⟩), hmaster⟩
  own hq hm := by
    obtain ⟨rfl, rfl⟩ | ⟨-, hq⟩ := spawn_procs.mp hq
    · obtain ⟨y, hy, -⟩ := (hj.worker _ hm).2.2.2.1
      exact absurd (h.fresh hy) (Nat.lt_irrefl _)
    · exact h.own hq hm
  worker hq hm hne := by
    obtain ⟨rfl, rfl⟩ | ⟨-, hq⟩ := spawn_procs.mp hq
    · obtain ⟨hw, hid, hlt, ⟨y, hy, -⟩, -⟩ := hj.worker _ hm
      exact ⟨hw, hid, hlt, Nat.lt_succ_of_lt (h.fresh hy)⟩
    · obtain ⟨hw, hid, hlt, hm⟩ := h.worker hq hm hne
      exact ⟨hw, hid, hlt, Nat.lt_succ_of_lt hm⟩
  live {q z m y} hq hm hy := by
    have hlt : m < s.next := by
      obtain ⟨-, rfl⟩ | ⟨-, hold⟩ := spawn_procs.mp hq
      · obtain ⟨y', hy', -⟩ := (hj.worker _ hm).2.2.2.1
        exact h.fresh hy'
      · exact h.master_lt hold hm
    obtain ⟨rfl, -⟩ | ⟨-, hold⟩ := spawn_procs.mp hy
    · exact absurd hlt (Nat.lt_irrefl _)
    · obtain ⟨-, rfl⟩ | ⟨-, hold'⟩ := spawn_procs.mp hq
      · obtain ⟨y', hy', hmaster, -⟩ := (hj.worker _ hm).2.2.2.1
        rw [hold] at hy'
        cases hy'
        exact hmaster
      · exact h.live hold' hm hold
  forking {q y i} hq hi := by
    obtain ⟨-, rfl⟩ | ⟨-, hold⟩ := spawn_procs.mp hq
    · rw [hj.nextId] at hi
      cases hi
    · refine ⟨(h.forking hold hi).1, fun r z hr hm => ?_⟩
      obtain ⟨-, rfl⟩ | ⟨-, hold'⟩ := spawn_procs.mp hr
      · obtain ⟨y', hy', -, hlt⟩ := (hj.worker _ hm).2.2.2.1
        rw [hold] at hy'
        cases hy'
        exact hlt i hi
      · exact (h.forking hold hi).2 r z hold' hm
  unique hq hr hm hm' heq := by
    obtain ⟨rfl, rfl⟩ | ⟨-, hold⟩ := spawn_procs.mp hq
    · obtain ⟨rfl, -⟩ | ⟨-, hold'⟩ := spawn_procs.mp hr
      · rfl
      · exact absurd heq.symm ((hj.worker _ hm).2.2.2.2 _ _ hold' hm')
    · obtain ⟨-, rfl⟩ | ⟨-, hold'⟩ := spawn_procs.mp hr
      · exact absurd heq ((hj.worker _ hm').2.2.2.2 _ _ hold hm)
      · exact h.unique hold hold' hm hm' heq

/-- The lock is free, and `p` takes it. -/
theorem Inv.take (h : Inv s) (hp : s.procs p = some x) (hpc : x.pc = .pidFile) (hfree : s.lock = none) :
    Inv { s.put p { x with pc := .locked, master := some p } with lock := some p } := by
  have hmaster : x.master = none := (h.early hp).mp (by rw [hpc]; rfl)
  have hid : x.m_id = 0 := h.first hp hmaster
  -- nobody runs under a lock of `p`
  have halone : ∀ {q z}, s.procs q = some z → z.master ≠ some p := by
    intro q z hq hm
    have hown := h.live hq hm hp
    rw [hmaster] at hown
    cases hown
  have hother : ∀ {q z}, q ≠ p → s.procs q = some z → z.master ≠ some q := by
    intro q z hne hq hm
    have hown := (h.own hq hm).1
    rw [hfree] at hown
    cases hown
  exact {
    fresh := fun hq => by
      obtain ⟨rfl, -⟩ | ⟨-, hold⟩ := put_procs.mp hq
      · exact h.fresh hp
      · exact h.fresh hold
    early := fun hq => by
      obtain ⟨rfl, rfl⟩ | ⟨-, hold⟩ := put_procs.mp hq
      · exact ⟨nofun, nofun⟩
      · exact h.early hold
    first := fun hq hm => by
      obtain ⟨rfl, rfl⟩ | ⟨-, hold⟩ := put_procs.mp hq
      · cases hm
      · exact h.first hold hm
    held := fun hm => by
      cases hm
      exact ⟨_, put_procs.mpr (.inl ⟨rfl, rfl⟩), rfl⟩
    own := fun hq hm => by
      obtain ⟨rfl, rfl⟩ | ⟨hne, hold⟩ := put_procs.mp hq
      · exact ⟨rfl, hid⟩
      · exact absurd hm (hother hne hold)
    worker := fun hq hm hne => by
      obtain ⟨rfl, rfl⟩ | ⟨-, hold⟩ := put_procs.mp hq
      · cases hm
        exact absurd rfl hne
      · exact h.worker hold hm hne
    live := fun hq hm hy => by
      obtain ⟨rfl, rfl⟩ | ⟨-, hold⟩ := put_procs.mp hq
      · cases hm
        obtain ⟨-, rfl⟩ | ⟨hne, -⟩ := put_procs.mp hy
        · rfl
        · exact absurd rfl hne
      · obtain ⟨rfl, -⟩ | ⟨-, hold'⟩ := put_procs.mp hy
        · exact absurd hm (halone hold)
        · exact h.live hold hm hold'
    forking := fun hq hi => by
      obtain ⟨rfl, rfl⟩ | ⟨hne, hold⟩ := put_procs.mp hq
      · cases hi
        refine ⟨by decide, fun r z hr hm => ?_⟩
        obtain ⟨-, rfl⟩ | ⟨-, hold'⟩ := put_procs.mp hr
        · simp only [hid]
          decide
        · exact absurd hm (halone hold')
      · refine ⟨(h.forking hold hi).1, fun r z hr hm => ?_⟩
        obtain ⟨-, rfl⟩ | ⟨-, hold'⟩ := put_procs.mp hr
        · cases hm
          exact absurd rfl hne
        · exact (h.forking hold hi).2 r z hold' hm
    unique := fun hq hr hm hm' heq => by
      obtain ⟨rfl, rfl⟩ | ⟨-, hold⟩ := put_procs.mp hq
      · obtain ⟨rfl, -⟩ | ⟨-, hold'⟩ := put_procs.mp hr
        · rfl
        · exact absurd (hm'.trans hm.symm) (halone hold')
      · obtain ⟨-, rfl⟩ | ⟨-, hold'⟩ := put_procs.mp hr
        · exact absurd (hm.trans hm'.symm) (halone hold)
        · exact h.unique hold hold' hm hm' heq }

/-! ## One step -/

theorem follows_of_pc {pc : AppPc} (hearly : early pc = early x.pc) (hwork : working x.pc = true → working pc = true)
    (hfork : ∀ i, nextId pc = some i → ∃ j, nextId x.pc = some j ∧ j ≤ i) : Follows x { x with pc } :=
  ⟨rfl, rfl, rfl, hearly, hwork, hfork⟩

/-- What a process that goes on does. -/
inductive Advances (s : Instances) (p : Nat) (x : Process) : Instances → Prop where
  | put {pc : AppPc} (hf : Follows x { x with pc }) : Advances s p x (s.put p { x with pc })
  | leave : Advances s p x (s.leave p)
  | daemon (hpc : x.pc = .daemon) : Advances s p x ((s.spawn { x with pc := .pidFile }).leave p)
  | take (hpc : x.pc = .pidFile) (hfree : s.lock = none ∨ s.lock = some p) :
    Advances s p x { s.put p { x with pc := .locked, master := some p } with lock := some p }
  | fork {i : UInt32} (hpc : x.pc = .fork i) (hi : i < x.concurrency) :
    Advances s p x ((s.put p { x with pc := .fork (i + 1) }).spawn { x with m_id := i, pc := .startup })

theorem advance_cases {ok : Bool} (hs : s.advance p x ok = some s') : Advances s p x s' := by
  unfold advance at hs
  cases hpc : x.pc with
  | load =>
    simp only [hpc, Option.some.injEq] at hs
    split at hs
    · subst hs
      exact .put (follows_of_pc (by rw [hpc]; rfl) (by rw [hpc]; nofun) nofun)
    · subst hs
      exact .leave
  | daemon =>
    simp only [hpc, Option.some.injEq, Instances.daemon] at hs
    split at hs
    · subst hs
      exact .daemon hpc
    · subst hs
      exact .put (follows_of_pc (by rw [hpc]; rfl) (by rw [hpc]; nofun) nofun)
  | pidFile =>
    simp only [hpc, Option.some.injEq, CreatePidFile] at hs
    split at hs
    · next hok =>
      subst hs
      exact .take hpc hok.2
    · subst hs
      exact .leave
  | locked =>
    simp only [hpc, Option.some.injEq] at hs
    split at hs
    · subst hs
      refine .put (follows_of_pc (by rw [hpc]; rfl) (by rw [hpc]; nofun) fun i hi => ⟨1, by rw [hpc]; rfl, ?_⟩)
      cases hi
      decide
    · subst hs
      exact .leave
  | fork i =>
    simp only [hpc, Option.some.injEq, Instances.fork] at hs
    split at hs
    · next hi =>
      split at hs
      · subst hs
        exact .fork hpc hi
      · subst hs
        exact .leave
    · subst hs
      exact .put (follows_of_pc (by rw [hpc]; rfl) (by rw [hpc]; nofun) nofun)
  | startup =>
    simp only [hpc, Option.some.injEq] at hs
    split at hs
    · subst hs
      exact .put (follows_of_pc (by rw [hpc]; rfl) (fun _ => rfl) nofun)
    · subst hs
      exact .leave
  | dispatch =>
    simp only [hpc] at hs
    cases hs

/-- A process that has not gone by the lock. -/
theorem joins_early {daemon : Bool} {concurrency : UInt32} {pc : AppPc} (hpc : early pc = true) :
    Joins s { daemon, concurrency, pc } where
  early := ⟨fun _ => rfl, fun _ => hpc⟩
  first _ := rfl
  nextId := by cases pc <;> first | rfl | cases hpc
  worker := nofun

theorem forks_of_nextId {pc : AppPc} {i : UInt32} (h : nextId pc = some i) : early pc = false ∧ working pc = false := by
  cases pc with
  | locked | fork => exact ⟨rfl, rfl⟩
  | load | daemon | pidFile | startup | dispatch => cases h

/-- Only the process that took the lock forks. -/
theorem Inv.master_self {i : UInt32} (h : Inv s) (hp : s.procs p = some x) (hi : nextId x.pc = some i) :
    x.master = some p := by
  obtain ⟨hearly, hwork⟩ := forks_of_nextId hi
  cases hm : x.master with
  | none =>
    rw [(h.early hp).mpr hm] at hearly
    cases hearly
  | some m =>
    by_cases hmp : m = p
    · rw [hmp]
    · rw [(h.worker hp hm hmp).1] at hwork
      cases hwork

theorem lt_succ_of_lt {i n : UInt32} (h : i < n) : i < i + 1 := by
  have hlt := UInt32.lt_iff_toNat_lt.mp h
  have hn := n.toNat_lt
  rw [UInt32.lt_iff_toNat_lt, UInt32.toNat_add]
  exact (Nat.mod_eq_of_lt (Nat.lt_of_le_of_lt (Nat.succ_le_of_lt hlt) hn)).symm ▸ Nat.lt_succ_self _

theorem follows_fork {i : UInt32} (hpc : x.pc = .fork i) (hi : i < x.concurrency) :
    Follows x { x with pc := .fork (i + 1) } :=
  follows_of_pc (by rw [hpc]; rfl) (by rw [hpc]; nofun) fun j hj => by
    cases hj
    exact ⟨i, by rw [hpc]; rfl, UInt32.le_of_lt (lt_succ_of_lt hi)⟩

/-- The worker that is forked next. -/
theorem Inv.joins_worker {i : UInt32} (h : Inv s) (hp : s.procs p = some x) (hpc : x.pc = .fork i)
    (hi : i < x.concurrency) :
    Joins (s.put p { x with pc := .fork (i + 1) }) { x with m_id := i, pc := .startup } := by
  have hnext : nextId x.pc = some i := by rw [hpc]; rfl
  have hself := h.master_self hp hnext
  obtain ⟨hne, hlt⟩ := h.forking hp hnext
  have hother : ∀ q z, (s.put p { x with pc := .fork (i + 1) }).procs q = some z → z.master = some p → z.m_id ≠ i := by
    intro q z hq hm
    obtain ⟨-, rfl⟩ | ⟨-, hold⟩ := put_procs.mp hq
    · exact fun heq => hne (heq.symm.trans (h.own hp hself).2)
    · exact UInt32.ne_of_lt (hlt q z hold hm)
  constructor
  · exact ⟨nofun, fun hnone => by rw [hself] at hnone; cases hnone⟩
  · intro hnone
    rw [hself] at hnone
    cases hnone
  · rfl
  · intro m hm
    rw [hself] at hm
    cases hm
    refine ⟨rfl, hne, hi, ⟨_, put_procs.mpr (.inl ⟨rfl, rfl⟩), hself, fun j hj => ?_⟩, hother⟩
    cases hj
    exact lt_succ_of_lt hi

theorem inv_advance (h : Inv s) (hp : s.procs p = some x) (hs : Advances s p x s') : Inv s' := by
  cases hs with
  | put hf => exact h.goes (h.goes_put hp hf)
  | leave => exact h.goes (h.goes_leave p)
  | daemon hpc =>
    have hmaster : x.master = none := (h.early hp).mp (by rw [hpc]; rfl)
    have hchild : Joins s { x with pc := .pidFile } := by
      rw [h.first hp hmaster, hmaster]
      exact joins_early rfl
    exact (h.spawn hchild).goes ((h.spawn hchild).goes_leave p)
  | take hpc hfree =>
    have hmaster : x.master = none := (h.early hp).mp (by rw [hpc]; rfl)
    refine h.take hp hpc (hfree.resolve_right fun hlock => ?_)
    obtain ⟨z, hz, hown⟩ := h.held hlock
    rw [hp] at hz
    cases hz
    rw [hmaster] at hown
    cases hown
  | @fork i hpc hi =>
    exact (h.goes (h.goes_put hp (follows_fork hpc hi))).spawn (h.joins_worker hp hpc hi)

theorem inv_step (h : Inv s) (hs : step s l = some s') : Inv s' := by
  cases l with
  | launch daemon concurrency =>
    cases hs
    exact h.spawn (joins_early rfl)
  | advance p ok =>
    obtain ⟨x, hp, hs⟩ := Option.bind_eq_some_iff.mp hs
    exact inv_advance h hp (advance_cases hs)
  | exit p =>
    obtain ⟨x, -, rfl⟩ := Option.map_eq_some_iff.mp hs
    exact h.goes (h.goes_leave p)

theorem inv_inductive : instances.Inductive Inv where
  init s hs := by
    cases hs
    exact ⟨nofun, nofun, nofun, nofun, nofun, nofun, nofun, nofun, nofun⟩
  step _ _ _ h hs := inv_step h hs

/-! ## Orderly runs -/

/-- Who has started runs under the lock as it is held. -/
def Attended (s : Instances) : Prop := ∀ p x m, s.procs p = some x → x.master = some m → s.lock = some m

/-- No two that have started have the pool id `id`. -/
def Alone (s : Instances) (id : UInt32) : Prop :=
  ∀ p q x y, s.procs p = some x → s.procs q = some y → x.master ≠ none → y.master ≠ none →
    x.m_id = id → y.m_id = id → p = q

theorem mem_workersOf (h : Inv s) : p ∈ s.workersOf m ↔ p ≠ m ∧ ∃ x, s.procs p = some x ∧ x.master = some m := by
  simp only [workersOf, List.mem_filter, List.mem_range, decide_eq_true_eq, Option.bind_eq_some_iff]
  exact ⟨And.right, fun hp => ⟨h.fresh hp.2.choose_spec.1, hp⟩⟩

theorem Attended.leave (h : Inv s) (ha : Attended s) (hlast : s.lock = some p → s.workersOf p = []) :
    Attended (s.leave p) := by
  intro q x m hq hm
  obtain ⟨hne, hold⟩ := leave_procs.mp hq
  have hlock := ha q x m hold hm
  refine leave_lock.mpr ⟨?_, hlock⟩
  rintro rfl
  have hmem : q ∈ s.workersOf m := (mem_workersOf h).mpr ⟨hne, x, hold, hm⟩
  rw [hlast hlock] at hmem
  cases hmem

theorem Attended.put (ha : Attended s) (hp : s.procs p = some x) (hmaster : y.master = x.master) :
    Attended (s.put p y) := by
  intro q z m hq hm
  obtain ⟨-, rfl⟩ | ⟨-, hold⟩ := put_procs.mp hq
  · exact ha p x m hp (hmaster ▸ hm)
  · exact ha q z m hold hm

theorem Attended.spawn (ha : Attended s) (hx : ∀ m, x.master = some m → s.lock = some m) : Attended (s.spawn x) := by
  intro q z m hq hm
  obtain ⟨-, rfl⟩ | ⟨-, hold⟩ := spawn_procs.mp hq
  · exact hx m hm
  · exact ha q z m hold hm

/-- Where the process with the lock leaves, it is the last. -/
theorem Orderly.last (ho : Orderly s l) (hs : step s l = some (s.leave p)) (hlock : s.lock = some p) :
    s.workersOf p = [] := by
  refine ho p hlock ?_
  rw [leaves, hs]
  simp [Instances.leave]

theorem attended_advance (h : Inv s) (ha : Attended s) (hp : s.procs p = some x) (hs : Advances s p x s')
    (hlast : s' = s.leave p → s.lock = some p → s.workersOf p = []) : Attended s' := by
  cases hs with
  | put hf => exact ha.put hp hf.master
  | leave => exact ha.leave h (hlast rfl)
  | daemon hpc =>
    have hmaster : x.master = none := (h.early hp).mp (by rw [hpc]; rfl)
    have hchild : Attended (s.spawn { x with pc := .pidFile }) := ha.spawn fun m hm => ha p x m hp hm
    intro q z m hq hm
    have hlock := hchild q z m (leave_procs.mp hq).2 hm
    refine leave_lock.mpr ⟨?_, hlock⟩
    rintro rfl
    obtain ⟨y, hy, hown⟩ := h.held hlock
    rw [hp] at hy
    cases hy
    rw [hmaster] at hown
    cases hown
  | take hpc hfree =>
    have hmaster : x.master = none := (h.early hp).mp (by rw [hpc]; rfl)
    intro q z m hq hm
    obtain ⟨-, rfl⟩ | ⟨-, hold⟩ := put_procs.mp hq
    · exact hm
    · obtain hnone | hself := hfree
      · have hlock := ha q z m hold hm
        rw [hnone] at hlock
        cases hlock
      · exact (hself.symm.trans (ha q z m hold hm))
  | @fork i hpc hi =>
    have hput : Attended (s.put p { x with pc := .fork (i + 1) }) := ha.put hp rfl
    exact hput.spawn fun m hm => ha p x m hp hm

theorem attended_step (h : Inv s) (ha : Attended s) (ho : Orderly s l) (hs : step s l = some s') : Attended s' := by
  cases l with
  | launch daemon concurrency =>
    cases hs
    exact ha.spawn nofun
  | advance p ok =>
    obtain ⟨x, hp, hadv⟩ := Option.bind_eq_some_iff.mp hs
    exact attended_advance h ha hp (advance_cases hadv) fun heq => ho.last (heq ▸ hs)
  | exit p =>
    obtain ⟨x, -, rfl⟩ := Option.map_eq_some_iff.mp hs
    exact ha.leave h (ho.last hs)

theorem orderly_inductive : (instances.guard Orderly).Inductive fun s => Inv s ∧ Attended s where
  init s hs := by
    refine ⟨inv_inductive.init s hs, ?_⟩
    cases hs
    exact nofun
  step _ _ _ h hs := ⟨inv_step h.1 hs.2, attended_step h.1 h.2 hs.1 hs.2⟩

theorem Inv.alone (h : Inv s) (ha : Attended s) (id : UInt32) : Alone s id := by
  intro p q x y hp hq hx hy hid hid'
  obtain ⟨m, hm⟩ := Option.ne_none_iff_exists'.mp hx
  obtain ⟨m', hm'⟩ := Option.ne_none_iff_exists'.mp hy
  have hsame : some m = some m' := (ha p x m hp hm).symm.trans (ha q y m' hq hm')
  exact h.unique hp hq hm (hm'.trans hsame.symm) (hid.trans hid'.symm)

/-- The id 0 is that of the process with the lock. -/
theorem Inv.lock_of_zero (h : Inv s) (hp : s.procs p = some x) (hx : x.master ≠ none) (hid : x.m_id = 0) :
    s.lock = some p := by
  obtain ⟨m, hm⟩ := Option.ne_none_iff_exists'.mp hx
  by_cases hmp : m = p
  · exact (h.own hp (hmp ▸ hm)).1
  · exact absurd hid (h.worker hp hm hmp).2.1

theorem Inv.alone_zero (h : Inv s) : Alone s 0 := by
  intro p q x y hp hq hx hy hid hid'
  have hlock := h.lock_of_zero hp hx hid
  rw [h.lock_of_zero hq hy hid'] at hlock
  cases hlock
  rfl

/-! ## When the process with the lock leaves first -/

def Runs : Instances → Instances → Prop := Relation.ReflTransGen fun s s' => ∃ l, step s l = some s'

instance : Trans Runs Runs Runs := ⟨Relation.ReflTransGen.trans⟩

theorem put_ne_none (h : s.procs m ≠ none) (p : Nat) (z : Process) : (s.put p z).procs m ≠ none := by
  obtain ⟨y, hy⟩ := Option.ne_none_iff_exists'.mp h
  rw [Option.ne_none_iff_exists']
  by_cases hmp : m = p
  · exact ⟨z, put_procs.mpr (.inl ⟨hmp, rfl⟩)⟩
  · exact ⟨y, put_procs.mpr (.inr ⟨hmp, hy⟩)⟩

theorem spawn_ne_none (h : s.procs m ≠ none) (z : Process) : (s.spawn z).procs m ≠ none := by
  obtain ⟨y, hy⟩ := Option.ne_none_iff_exists'.mp h
  rw [Option.ne_none_iff_exists']
  by_cases hmn : m = s.next
  · exact ⟨z, spawn_procs.mpr (.inl ⟨hmn, rfl⟩)⟩
  · exact ⟨y, spawn_procs.mpr (.inr ⟨hmn, hy⟩)⟩

theorem eq_of_leave (h : s.procs m ≠ none) (hgone : (s.leave p).procs m = none) : m = p := by
  obtain ⟨y, hy⟩ := Option.ne_none_iff_exists'.mp h
  by_contra hne
  rw [leave_procs.mpr ⟨hne, hy⟩] at hgone
  cases hgone

/-- Behind the lock, a process that is not there any more has left. -/
theorem step_gone (hs : step s l = some s') (hm : s.procs m = some y) (hlate : Instances.early y.pc = false)
    (hgone : s'.procs m = none) : s' = s.leave m := by
  have hthere : s.procs m ≠ none := by
    rw [hm]
    nofun
  cases l with
  | launch daemon concurrency =>
    cases hs
    exact absurd hgone (spawn_ne_none hthere _)
  | advance p ok =>
    obtain ⟨x, hp, hadv⟩ := Option.bind_eq_some_iff.mp hs
    cases advance_cases hadv with
    | put hf => exact absurd hgone (put_ne_none hthere _ _)
    | leave => rw [eq_of_leave hthere hgone]
    | daemon hpc =>
      have hmp := eq_of_leave (spawn_ne_none hthere _) hgone
      subst hmp
      rw [hm] at hp
      cases hp
      rw [hpc] at hlate
      cases hlate
    | take hpc hfree => exact absurd hgone (put_ne_none hthere _ _)
    | fork hpc hi => exact absurd hgone (spawn_ne_none (put_ne_none hthere _ _) _)
  | exit p =>
    obtain ⟨x, -, rfl⟩ := Option.map_eq_some_iff.mp hs
    rw [eq_of_leave hthere hgone]

/-- A process of another instance beside a worker. -/
structure Beside (s : Instances) (p : Nat) (z : Process) (q : Nat) (x : Process) : Prop where
  worker : s.procs p = some z
  worker_lt : p < s.next
  start : s.procs q = some x
  start_lt : q < s.next
  ne : p ≠ q

theorem Beside.put (h : Beside s p z q x) (y : Process) : Beside (s.put q y) p z q y where
  worker := put_procs.mpr (.inr ⟨h.ne, h.worker⟩)
  worker_lt := h.worker_lt
  start := put_procs.mpr (.inl ⟨rfl, rfl⟩)
  start_lt := h.start_lt
  ne := h.ne

theorem Beside.spawn (h : Beside s p z q x) (y : Process) : Beside (s.spawn y) p z q x where
  worker := spawn_procs.mpr (.inr ⟨Nat.ne_of_lt h.worker_lt, h.worker⟩)
  worker_lt := Nat.lt_succ_of_lt h.worker_lt
  start := spawn_procs.mpr (.inr ⟨Nat.ne_of_lt h.start_lt, h.start⟩)
  start_lt := Nat.lt_succ_of_lt h.start_lt
  ne := h.ne

theorem Beside.goes (h : Beside s p z q x) (hs : s.advance q x true = some s') : Runs s s' :=
  .single ⟨.advance q true, Option.bind_eq_some_iff.mpr ⟨x, h.start, hs⟩⟩

/-- The other instance forks up to the worker with the id `k`. -/
theorem Beside.forks {k : UInt32} (n : Nat) {s : Instances} {x : Process} {i : UInt32} (h : Beside s p z q x)
    (hpc : x.pc = .fork i) (hk : k < x.concurrency) (hn : k.toNat = i.toNat + n) :
    ∃ s' r y, Runs s s' ∧ s'.procs p = some z ∧ s'.procs r = some y ∧ p ≠ r ∧ y.m_id = k ∧ y.master = x.master := by
  have hi : i < x.concurrency := by
    have hlt := UInt32.lt_iff_toNat_lt.mp hk
    exact UInt32.lt_iff_toNat_lt.mpr (by omega)
  have hstep : s.advance q x true =
      some ((s.put q { x with pc := .fork (i + 1) }).spawn { x with m_id := i, pc := .startup }) := by
    simp only [advance, hpc, Instances.fork, if_pos hi, if_true]
  have hnext := (h.put { x with pc := .fork (i + 1) }).spawn { x with m_id := i, pc := .startup }
  cases n with
  | zero =>
    exact ⟨_, s.next, { x with m_id := i, pc := .startup }, h.goes hstep, hnext.worker,
      spawn_procs.mpr (.inl ⟨rfl, rfl⟩), Nat.ne_of_lt h.worker_lt, (UInt32.toNat_inj.mp hn).symm, rfl⟩
  | succ n =>
    have hi' : k.toNat = (i + 1).toNat + n := by
      have hlt := k.toNat_lt
      rw [UInt32.toNat_add, UInt32.toNat_one, Nat.mod_eq_of_lt (by omega)]
      omega
    obtain ⟨s', r, y, hruns, hrest⟩ := forks n hnext rfl hk hi'
    exact ⟨s', r, y, (h.goes hstep).trans hruns, hrest⟩

/-- Where the lock is free, another instance comes to its first fork. -/
theorem exists_beside (hp : s.procs p = some z) (hlt : p < s.next) (hlock : s.lock = none) (concurrency : UInt32) :
    ∃ s' q x, Runs s s' ∧ Beside s' p z q x ∧ x.pc = .fork 1 ∧ x.concurrency = concurrency ∧ x.master = some q := by
  let x : Process := { daemon := false, concurrency }
  have hload : Beside (s.spawn x) p z s.next x :=
    ⟨spawn_procs.mpr (.inr ⟨Nat.ne_of_lt hlt, hp⟩), Nat.lt_succ_of_lt hlt, spawn_procs.mpr (.inl ⟨rfl, rfl⟩),
      Nat.lt_succ_self _, Nat.ne_of_lt hlt⟩
  have hlaunch : Runs s (s.spawn x) := .single ⟨.launch false concurrency, rfl⟩
  have hdaemon := hload.put { x with pc := .daemon }
  have hpidFile := hdaemon.put { x with pc := .pidFile }
  have hput := hpidFile.put { x with pc := .locked, master := some s.next }
  have hlocked : Beside { ((s.spawn x).put s.next { x with pc := .daemon }).put s.next { x with pc := .pidFile } |>.put
      s.next { x with pc := .locked, master := some s.next } with lock := some s.next } p z s.next
      { x with pc := .locked, master := some s.next } :=
    ⟨hput.worker, hput.worker_lt, hput.start, hput.start_lt, hput.ne⟩
  have hfork := hlocked.put { x with pc := .fork 1, master := some s.next }
  refine ⟨_, s.next, _, ?_, hfork, rfl, rfl, rfl⟩
  calc
    Runs s _ := hlaunch
    Runs _ _ := hload.goes rfl
    Runs _ _ := hdaemon.goes rfl
    Runs _ _ := hpidFile.goes (congrArg some (if_pos ⟨rfl, .inl hlock⟩))
    Runs _ _ := hlocked.goes rfl

/-- A worker is left without the process that has the lock: another instance starts, and comes to a worker with the
same id. -/
theorem exists_clash (h : Inv s) (hp : s.procs p = some z) (hz : z.master = some m) (hne : m ≠ p)
    (hlock : s.lock = none) : ∃ s' id, Runs s s' ∧ ¬Alone s' id := by
  obtain ⟨-, hid, hlt, -⟩ := h.worker hp hz hne
  obtain ⟨s₁, q, x, hstart, hbeside, hpc, hconc, hmaster⟩ := exists_beside hp (h.fresh hp) hlock (z.m_id + 1)
  have hpos : 0 < z.m_id.toNat := Nat.pos_of_ne_zero fun h0 => hid (UInt32.toNat_inj.mp h0)
  obtain ⟨s₂, r, y, hforks, hp', hr, hpr, hy, hy'⟩ :=
    hbeside.forks (z.m_id.toNat - 1) hpc (hconc ▸ lt_succ_of_lt hlt) (show _ = 1 + _ by omega)
  refine ⟨s₂, z.m_id, hstart.trans hforks, fun halone => hpr ?_⟩
  refine halone p r z y hp' hr ?_ ?_ rfl hy
  · rw [hz]
    nofun
  · rw [hy', hmaster]
    nofun

/-- In every run the id 0 is that of one process at most, the one with the lock. While the process with the lock
leaves after its workers, each process runs under the lock as it is held, and no two have the same id; when it leaves
before, some that start then can come to have one. -/
theorem one_instance :
    (∀ s, instances.Reachable s → Alone s 0) ∧
    (∀ s, (instances.guard Orderly).Reachable s → Attended s ∧ ∀ id, Alone s id) ∧
    ∀ s l s', (instances.guard Orderly).Reachable s → instances.step s l s' → ¬Orderly s l →
      ∃ s'' id, Runs s' s'' ∧ ¬Alone s'' id := by
  refine ⟨fun s hr => (inv_inductive.reachable s hr).alone_zero, fun s hr => ?_, fun s l s' hr hs ho => ?_⟩
  · obtain ⟨h, ha⟩ := orderly_inductive.reachable s hr
    exact ⟨ha, h.alone ha⟩
  · obtain ⟨h, -⟩ := orderly_inductive.reachable s hr
    simp only [Orderly, Classical.not_forall] at ho
    obtain ⟨m, hlock, hleaves, hworkers⟩ := ho
    obtain ⟨p, hmem⟩ := List.exists_mem_of_ne_nil _ hworkers
    obtain ⟨hne, z, hp, hz⟩ := (mem_workersOf h).mp hmem
    obtain ⟨y, hy, hmaster⟩ := h.held hlock
    have hlate : early y.pc = false := by
      rw [Bool.eq_false_iff]
      intro hearly
      rw [(h.early hy).mp hearly] at hmaster
      cases hmaster
    have hstep : step s l = some s' := hs
    have hgone : s'.procs m = none := by
      rw [leaves, hstep] at hleaves
      simpa using hleaves
    have hleave := step_gone hstep hy hlate hgone
    subst hleave
    have hfree : (s.leave m).lock = none := if_pos hlock
    exact exists_clash (inv_step h hstep) (leave_procs.mpr ⟨hne, hp⟩) hz hne.symm hfree

/-- An instance with one worker beside the process that forked it. -/
def twoProcesses : List Label :=
  .launch false 2 :: [0, 0, 0, 0, 0, 0, 0, 1].map (.advance · true)

def twoServing : Instances := (twoProcesses.foldlM step {}).getD {}

/-- The first is killed, and its worker is not. -/
theorem one_instance_two : ∃ s', instances.step twoServing (.exit 0) s' ∧ ∃ s'' id, Runs s' s'' ∧ ¬Alone s'' id := by
  have hrun : twoProcesses.foldlM (LTS.checked (fun s l => Orderly s l ∧ True) step) {} = some twoServing := by
    rfl
  have hr : (instances.guard Orderly).Reachable twoServing :=
    LTS.Reachable.checked_guard (fun _ _ _ _ hs => hs) twoProcesses (.init rfl) hrun
  have hs : instances.step twoServing (.exit 0) (twoServing.leave 0) := rfl
  exact ⟨_, hs, one_instance.2.2 _ _ _ hr hs (by decide)⟩

end Instances
end SimpleSvr.L5
