import SimpleSvr.Core.LTS
import SimpleSvr.L5App.Log

/-!
# The flush timer of a log

Every `Flush` sets a timer: that of a timer that ran out replaces it, a public
one adds one, and that of `Close` leaves one behind, with a pointer to a stream
that `Close` goes on to close. `flush_timer_run`: a run in which the log is not
flushed by hand or opened again while its timer is set, and not closed at all
while it is open, keeps to one timer and to open streams; and any other step
breaks that.
-/
namespace SimpleSvr.L5.SimpleLog

inductive Call where
  | init (path : Bytes) (now : Nat) (opened : Bool)
  | write (tv now : Nat) (denied opened : Bool)
  | flush
  | close
  | expire
  | destroy

def apply (host : Host) (log : SimpleLog) : Call → SimpleLog
  | .init path now opened => log.Initialize host path now opened
  | .write tv now denied opened => log.Write host tv now denied opened
  | .flush => log.Flush
  | .close => log.Close
  | .expire => log.expire
  | .destroy => log.destroy

/-- Only a timer that is set runs out; on an object that is gone nothing is called. -/
def Enabled (log : SimpleLog) : Call → Prop
  | .expire => log.pending ≠ 0
  | _ => log.gone = false

instance (log : SimpleLog) : (c : Call) → Decidable (Enabled log c)
  | .expire => inferInstanceAs (Decidable (_ ≠ _))
  | .init _ _ _ | .write _ _ _ _ | .flush | .close | .destroy => inferInstanceAs (Decidable (_ = _))

/-- Any calls on one log, in a directory of any files. -/
def logs (host : Host) : LTS SimpleLog Call where
  init log := ∃ files, log = new files
  step log c log' := Enabled log c ∧ log' = log.apply host c

/-- At most one timer, and none after `Close`; no stream is closed twice, or used after it was closed. -/
structure OneTimer (log : SimpleLog) : Prop where
  one : log.pending ≤ 1
  none : log.shut = true → log.pending = 0
  once : log.closed.Nodup
  unused : log.misused = false

/-- The log is opened and flushed only where no timer is set, not flushed after `Close`, and closed or
destroyed only where no stream is open either. -/
def Careful (log : SimpleLog) : Call → Prop
  | .init _ _ opened => opened = true → log.pending = 0
  | .flush => log.pending = 0 ∧ log.shut = false
  | .close | .destroy => log.m_File = none ∧ log.pending = 0
  | _ => True

instance (log : SimpleLog) : (c : Call) → Decidable (Careful log c)
  | .init _ _ _ => inferInstanceAs (Decidable (_ → _))
  | .flush | .close | .destroy => inferInstanceAs (Decidable (_ ∧ _))
  | .write _ _ _ _ | .expire => inferInstanceAs (Decidable True)

/-- The invariant, but for the stream that is open. -/
structure Settled (log : SimpleLog) : Prop extends OneTimer log where
  old : ∀ f ∈ log.closed, f < log.streams.length
  gone : log.gone = true → log.shut = true

structure Inv (log : SimpleLog) : Prop extends Settled log where
  /-- the stream that is open has not been closed -/
  live : ∀ f, log.m_File = some f → f ∉ log.closed ∧ f < log.streams.length

variable {host : Host} {log : SimpleLog}

/-! ## Steps -/

theorem use_of_live (h : ∀ f, log.m_File = some f → f ∉ log.closed) : log.use = log := by
  unfold use
  split
  · rfl
  · next f hf =>
    have hc : log.closed.contains f = false := by
      rw [List.contains_eq_mem]
      exact decide_eq_false (h f hf)
    rw [hc, Bool.or_false]

theorem Inv.use (h : Inv log) : log.use = log := use_of_live fun f hf => (h.live f hf).1

theorem Inv.flush_eq (h : Inv log) : log.Flush = { log with pending := log.pending + 1 } := by
  rw [Flush, h.use]

/-- A stream that was just opened is a new one. -/
theorem Settled.fopen (h : Settled log) (name : Bytes) (opened : Bool) : Inv (log.fopen name opened) := by
  unfold SimpleLog.fopen
  cases opened with
  | false => exact ⟨⟨⟨h.one, h.none, h.once, h.unused⟩, h.old, h.gone⟩, nofun⟩
  | true =>
    have hlen : (log.streams ++ [name]).length = log.streams.length + 1 := List.length_append
    refine ⟨⟨⟨h.one, h.none, h.once, h.unused⟩, fun f hf => ?_, h.gone⟩, fun f hf => ?_⟩
    · exact hlen ▸ Nat.lt_succ_of_lt (h.old f hf)
    · obtain rfl : log.streams.length = f := Option.some.inj hf
      exact ⟨fun hmem => Nat.lt_irrefl _ (h.old _ hmem), hlen ▸ Nat.lt_succ_self _⟩

/-- The stream that is open is closed for the first time. -/
theorem Inv.fclose (h : Inv log) : Settled log.fclose := by
  unfold SimpleLog.fclose
  split
  · exact h.toSettled
  · next f hf =>
    obtain ⟨hclosed, hlt⟩ := h.live f hf
    exact ⟨⟨h.one, h.none, List.nodup_cons.mpr ⟨hclosed, h.once⟩, h.unused⟩,
      List.forall_mem_cons.mpr ⟨hlt, h.old⟩, h.gone⟩

theorem Inv.write (h : Inv log) (tv now : Nat) (denied opened : Bool) :
    Inv (log.Write host tv now denied opened) := by
  unfold Write
  split
  · exact h
  · next f hf =>
    have hmessage (appended : List (Bytes × Nat)) : Inv { log with appended } :=
      ⟨⟨⟨h.one, h.none, h.once, h.unused⟩, h.old, h.gone⟩, h.live⟩
    simp only [h.use]
    unfold ShiftLog
    simp only []
    split
    · exact hmessage _
    · exact (hmessage _).fclose.fopen _ _

theorem close_of_null (h : log.m_File = none) : log.Close = { log with shut := true } := by
  unfold Close
  simp only [h]

/-- An open log is closed with its timer set. -/
theorem close_of_open {f : Nat} (h : log.m_File = some f) :
    log.Close.shut = true ∧ log.Close.pending = log.pending + 1 := by
  unfold Close Flush SimpleLog.use SimpleLog.fclose
  simp only [h]
  exact ⟨trivial, trivial⟩

theorem Inv.close (h : Inv log) :
    (OneTimer log.Close ↔ log.m_File = none ∧ log.pending = 0) ∧
      (log.m_File = none ∧ log.pending = 0 → Inv log.Close) := by
  cases hf : log.m_File with
  | none =>
    rw [close_of_null hf]
    refine ⟨⟨fun ht => ⟨rfl, ht.none rfl⟩, fun hc => ⟨h.one, fun _ => hc.2, h.once, h.unused⟩⟩, fun hc => ?_⟩
    exact ⟨⟨⟨h.one, fun _ => hc.2, h.once, h.unused⟩, h.old, fun _ => rfl⟩, h.live⟩
  | some f =>
    obtain ⟨hshut, hpending⟩ := close_of_open hf
    refine ⟨⟨fun ht => ?_, nofun⟩, nofun⟩
    have hzero := ht.none hshut
    rw [hpending] at hzero
    cases hzero

/-- One timer more is the only one where there was none; and the log that a timer is set on is not closed. -/
theorem Inv.flush (h : Inv log) :
    (OneTimer log.Flush → log.pending = 0 ∧ log.shut = false) ∧
      (log.pending = 0 ∧ log.shut = false → Inv log.Flush) := by
  rw [h.flush_eq]
  constructor
  · intro ht
    have hone : log.pending + 1 ≤ 1 := ht.one
    refine ⟨by omega, ?_⟩
    by_contra hs
    exact absurd (ht.none (Bool.not_eq_false _ ▸ hs)) (Nat.succ_ne_zero _)
  · rintro ⟨hzero, hshut⟩
    have hone : log.pending + 1 ≤ 1 := by omega
    refine ⟨⟨⟨hone, fun hs => ?_, h.once, h.unused⟩, h.old, h.gone⟩, h.live⟩
    rw [hshut] at hs
    cases hs

theorem Inv.initialize (h : Inv log) (hgone : log.gone = false) (path : Bytes) (now : Nat) (opened : Bool) :
    (OneTimer (log.Initialize host path now opened) → opened = true → log.pending = 0) ∧
      ((opened = true → log.pending = 0) → Inv (log.Initialize host path now opened)) := by
  have hopen (m_Path : Bytes) : Settled { log with m_Path, shut := false } := by
    refine ⟨⟨h.one, nofun, h.once, h.unused⟩, h.old, fun hg => ?_⟩
    rw [hgone] at hg
    cases hg
  have hi := fun m_Path => (hopen m_Path).fopen (logName host m_Path now) opened
  cases opened with
  | false => exact ⟨fun _ => nofun, fun _ => hi _⟩
  | true =>
    refine ⟨fun ht _ => ?_, fun hc => ?_⟩
    · have hone : log.pending + 1 ≤ 1 := ht.one
      omega
    · have hi := hi (if path = [] then [46] else path)
      have hzero : log.pending = 0 := hc rfl
      have hone : log.pending + 1 ≤ 1 := by omega
      exact ⟨⟨⟨hone, nofun, hi.once, hi.unused⟩, hi.old, hi.gone⟩, hi.live⟩

/-- A timer that runs out sets itself again: where one is set, the log is not closed and is there. -/
theorem Inv.expire_eq (h : Inv log) (hset : log.pending ≠ 0) : log.expire = log := by
  have hgone : log.gone = false := by
    by_contra hg
    exact hset (h.none (h.gone (Bool.not_eq_false _ ▸ hg)))
  have hless : Inv { log with pending := log.pending - 1, misused := log.misused || log.gone } := by
    refine ⟨⟨⟨?_, fun hs => ?_, h.once, ?_⟩, h.old, h.gone⟩, h.live⟩
    · exact Nat.le_trans (Nat.sub_le _ _) h.one
    · exact absurd (h.none hs) hset
    · rw [h.unused, hgone]
      rfl
  have hback : log.pending - 1 + 1 = log.pending := Nat.succ_pred_eq_of_ne_zero hset
  have hthere : (log.misused || log.gone) = log.misused := by rw [hgone, Bool.or_false]
  rw [expire, hless.flush_eq]
  simp only [hback, hthere]

theorem Inv.destroy (h : Inv log) :
    (OneTimer log.destroy → log.m_File = none ∧ log.pending = 0) ∧
      (log.m_File = none ∧ log.pending = 0 → Inv log.destroy) := by
  constructor
  · intro ht
    exact h.close.1.mp ⟨ht.one, ht.none, ht.once, ht.unused⟩
  · intro hc
    have hi := h.close.2 hc
    refine ⟨⟨⟨hi.one, hi.none, hi.once, hi.unused⟩, hi.old, fun _ => ?_⟩, hi.live⟩
    have hshut : log.Close.shut = true := by rw [close_of_null hc.1]
    exact hshut

/-- From a log that is as it should be, a step leads to one exactly when it is careful. -/
theorem Inv.step (h : Inv log) (c : Call) (he : Enabled log c) :
    (OneTimer (log.apply host c) → Careful log c) ∧ (Careful log c → Inv (log.apply host c)) := by
  cases c with
  | init path now opened => exact h.initialize he path now opened
  | write tv now denied opened => exact ⟨fun _ => trivial, fun _ => h.write tv now denied opened⟩
  | flush => exact h.flush
  | close => exact ⟨h.close.1.mp, h.close.2⟩
  | expire =>
    have hsame : log.apply host .expire = log := h.expire_eq he
    rw [hsame]
    exact ⟨fun _ => trivial, fun _ => h⟩
  | destroy => exact h.destroy

theorem inv_inductive (host : Host) : ((logs host).guard Careful).Inductive Inv where
  init := by
    rintro log ⟨files, rfl⟩
    exact ⟨⟨⟨Nat.zero_le 1, nofun, .nil, rfl⟩, nofun, nofun⟩, nofun⟩
  step := by
    rintro log c log' h ⟨hc, he, rfl⟩
    exact (h.step c he).2 hc

/-- A run of careful calls keeps to one timer and to open streams; and from there a call does exactly
when it is careful. -/
theorem flush_timer_run (host : Host) {log : SimpleLog} (hr : ((logs host).guard Careful).Reachable log) :
    OneTimer log ∧ ∀ c log', (logs host).step log c log' → (OneTimer log' ↔ Careful log c) := by
  have h := (inv_inductive host).reachable log hr
  refine ⟨h.toOneTimer, ?_⟩
  rintro c log' ⟨he, rfl⟩
  exact ⟨(h.step c he).1, fun hc => ((h.step c he).2 hc).toOneTimer⟩

/-- January 1970, in UTC. -/
def utc : Host where
  localtime_r now := { tm_year := 70, tm_mon := 0, tm_mday := now / 86400 + 1, tm_hour := now / 3600 % 24 }
  id := 0

theorem logs_step {host : Host} (log : SimpleLog) (c : Call) (he : Enabled log c) :
    (logs host).step log c (log.apply host c) := ⟨he, rfl⟩

/-- A log is opened, written to, and its timer runs out once. -/
theorem flush_timer_run_once :
    ∃ log, ((logs utc).guard Careful).Reachable log ∧ log.pending = 1 ∧ OneTimer log := by
  have h0 : ((logs utc).guard Careful).Reachable (new []) := .init ⟨[], rfl⟩
  have h1 := h0.allowed (logs_step _ (.init [] 0 true) rfl) (by decide)
  have h2 := h1.allowed (logs_step _ (.write 1 1 false true) rfl) trivial
  have h3 := h2.allowed (logs_step _ .expire (by decide)) trivial
  exact ⟨_, h3, by decide, (flush_timer_run utc h3).1⟩

/-- Opened and closed: two timers are left, and the first that runs out uses the closed stream. -/
theorem timers_after_close :
    ∃ log, (logs utc).Reachable log ∧ log.pending = 2 ∧ log.misused = true ∧ ¬OneTimer log := by
  have h0 : (logs utc).Reachable (new []) := .init ⟨[], rfl⟩
  have h1 := h0.step (logs_step _ (.init [] 0 true) rfl)
  have h2 := h1.step (logs_step _ .close rfl)
  have h3 := h2.step (logs_step _ .expire (by decide))
  refine ⟨_, h3, by decide, by decide, fun h => ?_⟩
  exact absurd h.one (by decide)

end SimpleSvr.L5.SimpleLog
