import SimpleSvr.L2Machine.Timer
import SimpleSvr.L5App.TcpClientNotice

/-!
# The synchronous `Connect`

`Connect(addr, timeout)` in a pool that has not started waits for the socket
itself. `EventScheduler::Wait` polls for `POLLIN` whatever it is asked for, so a
connection is seen when the server speaks; and of the ways out only a failing
`socket` leaves the client as the return value says. `connect_truthful`: these
are the calls that report the truth, and no others do.

The callbacks return at once here; `connectSync_connectWait` finds the same call
in `TcpClientNotice`, where they may do more.
-/
namespace SimpleSvr.L5.TcpClient
open SimpleSvr.L2.Timer (Timeval)

variable {CacheSize : UInt32}

/-! ## The kernel -/

/-- `EINPROGRESS` is an error with an `errno` of its own. -/
inductive ConnectResult where
  | ok
  | inProgress
  | error
  deriving DecidableEq, Repr

inductive PollType where
  | IN
  | OUT
  deriving DecidableEq, Repr

/-- What the kernel does in one call. `readable`, `writable` and `error` say after how many
milliseconds the socket is so for the first time: `poll` returns at the first moment, so that what
holds later does not matter. `soError` is the `errinfo` of `getsockopt`, `none` if that fails. -/
structure Kernel where
  socket : Option Nat
  connect : ConnectResult
  pollFails : Bool
  readable : Option Nat
  writable : Option Nat
  error : Option Nat
  soError : Option Int
  deriving DecidableEq, Repr

namespace Kernel

/-- The first moment at which what was asked for holds, or an error. -/
def ready (k : Kernel) : PollType → Option Nat
  | .IN => k.readable.merge min k.error
  | .OUT => k.writable.merge min k.error

/-- The `poll` of one socket; `none` if it waits for ever. -/
def poll (k : Kernel) (events : PollType) (timeout : Int) : Option Int :=
  if k.pollFails then some (-1)
  else
    match k.ready events with
    | some t => if timeout < 0 ∨ t ≤ timeout then some 1 else some 0
    | none => if timeout < 0 then none else some 0

end Kernel

/-- The timeout in milliseconds. -/
def millis (tv : Timeval) : Int := (tv.tvSec * 1000000 + tv.tvUsec).tdiv 1000

/-- `int timeout` -/
def pollTimeout (tv : Timeval) : Int := (millis tv).bmod (2 ^ 32)

/-- `events` is not read.
mirrors include/EventScheduler.hpp:115-129 -/
def wait (k : Kernel) (_events : PollType) (tv : Timeval) : Option Int := k.poll .IN (pollTimeout tv)

/-! ## Connect -/

inductive Callback where
  | connectTimout
  | connected
  | disconnected
  deriving DecidableEq, Repr

/-- How `Connect` returns: the client, the value, the callbacks it called and the descriptors it closed. -/
structure Report (CacheSize : UInt32) where
  run : Run CacheSize
  iRet : Int
  called : List Callback := []
  closed : List Nat := []

/-- `OnConnectTimout`, then `Disconnect`, and 0.
mirrors include/TcpClient.hpp:136-157 -/
def Run.giveUp (u : Run CacheSize) : Report CacheSize where
  run := u.clearTimer.close
  iRet := 0
  called := [.connectTimout, .disconnected]
  closed := u.client.Socket.toList

/-- The pool has not started; `none` if the call does not return.
mirrors include/TcpClient.hpp:68-134 -/
def connectSync (u : Run CacheSize) (k : Kernel) (timeout : Option Timeval) : Option (Report CacheSize) :=
  match timeout with
  | none => some { run := u, iRet := -1 }
  | some timeout =>
    match u.openSocket k.socket with
    | none => some { run := u, iRet := -1 }
    | some u =>
      if k.connect = .error then some { run := u, iRet := -1 }
      else
        let u := u.establish
        (wait k .OUT timeout).map fun iRet =>
          if iRet = -1 then { run := u, iRet := -1 }
          else if iRet = 0 then u.giveUp
          else if k.soError = some 0 then { run := { u with connected := true }, iRet := 0, called := [.connected] }
          else u.giveUp

/-! ## The truth -/

/-- The descriptor the call is about: the one that was there, or the one `socket` gave. -/
def descriptor (u : Run CacheSize) (k : Kernel) (timeout : Option Timeval) : Option Nat :=
  u.client.Socket.or (timeout.bind fun _ => k.socket)

/-- The connection became writable without error before the timeout. -/
def Connects (u : Run CacheSize) (k : Kernel) (timeout : Option Timeval) : Prop :=
  ∃ tv w, timeout = some tv ∧ descriptor u k timeout ≠ none ∧ k.connect ≠ .error ∧ k.pollFails = false ∧
    k.writable = some w ∧ w ≤ millis tv ∧ (∀ e, k.error = some e → w < e) ∧ k.soError = some 0

/-- 0 stands for `OnConnected` and an open, connected socket. A connection counts, and without one
the descriptor is closed. -/
structure Truthful (u : Run CacheSize) (k : Kernel) (timeout : Option Timeval) (r : Report CacheSize) : Prop where
  zero : r.iRet = 0 ↔ .connected ∈ r.called ∧
    (∃ fd, r.run.client.Socket = some fd ∧ fd ∉ r.closed) ∧ Connects u k timeout
  connects : Connects u k timeout → r.iRet = 0
  fails : ¬Connects u k timeout →
    r.iRet ≠ 0 ∧ r.run.client.Socket = none ∧ ∀ fd, descriptor u k timeout = some fd → fd ∈ r.closed

/-- `poll` reports the socket for `POLLIN`. -/
def Seen (k : Kernel) (tv : Timeval) : Prop :=
  ∃ t, k.ready .IN = some t ∧ (pollTimeout tv < 0 ∨ t ≤ pollTimeout tv)

variable {u u₁ : Run CacheSize} {k : Kernel} {timeout : Option Timeval} {tv : Timeval} {r : Report CacheSize} {fd : Nat}

/-- A failure that leaves the socket open is not told as it is. -/
theorem Truthful.not_open (h : Truthful u k timeout r) (hret : r.iRet ≠ 0) : r.run.client.Socket ≠ some fd := by
  have hno : ¬Connects u k timeout := fun hc => hret (h.connects hc)
  rw [(h.fails hno).2.1]
  nofun

/-- 0 after `Disconnect` is not the truth. -/
theorem not_truthful_giveUp : ¬Truthful u k timeout u₁.giveUp := by
  intro h
  obtain ⟨-, ⟨fd, hfd, -⟩, -⟩ := h.zero.mp rfl
  cases hfd

theorem wait_cases (k : Kernel) (tv : Timeval) :
    (k.pollFails = true ∧ wait k .OUT tv = some (-1)) ∨
      (k.pollFails = false ∧ Seen k tv ∧ wait k .OUT tv = some 1) ∨
      (¬Seen k tv ∧ (wait k .OUT tv = none ∨ wait k .OUT tv = some 0)) := by
  unfold wait Kernel.poll Seen
  cases hp : k.pollFails with
  | true => exact .inl ⟨rfl, rfl⟩
  | false =>
    right
    rw [if_neg Bool.false_ne_true]
    cases hr : k.ready .IN with
    | none =>
      refine .inr ⟨?_, ?_⟩
      · intro h
        obtain ⟨t, ht, -⟩ := h
        cases ht
      · dsimp only
        split
        · exact .inl rfl
        · exact .inr rfl
    | some t =>
      dsimp only
      by_cases ht : pollTimeout tv < 0 ∨ t ≤ pollTimeout tv
      · rw [if_pos ht]
        exact .inl ⟨rfl, ⟨t, rfl, ht⟩, rfl⟩
      · rw [if_neg ht]
        refine .inr ⟨?_, .inr rfl⟩
        intro h
        obtain ⟨t', heq, ht'⟩ := h
        cases heq
        exact ht ht'

theorem openSocket_descriptor (h : u.openSocket k.socket = some u₁) (tv : Timeval) : ∃ fd, u₁.client.Socket = some fd ∧
    descriptor u k (some tv) = some fd := by
  unfold Run.openSocket at h
  unfold descriptor
  cases hs : u.client.Socket with
  | some fd =>
    rw [hs] at h
    cases h
    exact ⟨fd, hs, rfl⟩
  | none =>
    rw [hs] at h
    obtain ⟨fd, hfd, rfl⟩ := Option.map_eq_some_iff.mp h
    exact ⟨fd, rfl, hfd⟩

theorem openSocket_eq_none : u.openSocket k.socket = none ↔ u.client.Socket = none ∧ k.socket = none := by
  unfold Run.openSocket
  cases u.client.Socket with
  | some fd => simp
  | none => simp

theorem minus_one : (-1 : Int) ≠ 0 := by decide

/-- Without a descriptor -1 is the truth. -/
theorem truthful_without_socket (hs : u.client.Socket = none) (hd : descriptor u k timeout = none) :
    Truthful u k timeout { run := u, iRet := -1 } := by
  have hno : ¬Connects u k timeout := by
    intro h
    obtain ⟨tv, w, -, hne, -⟩ := h
    exact hne hd
  refine ⟨iff_of_false minus_one fun h => hno h.2.2, fun hc => absurd hc hno, fun _ => ⟨minus_one, hs, ?_⟩⟩
  intro fd hfd
  rw [hd] at hfd
  cases hfd

/-- `OnConnected` on the open socket is the truth if the connection counts. -/
theorem truthful_connected (hfd : u₁.client.Socket = some fd) (hc : Connects u k timeout) :
    Truthful u k timeout { run := { u₁ with connected := true }, iRet := 0, called := [.connected] } where
  zero := iff_of_true rfl ⟨List.mem_singleton_self _, ⟨fd, hfd, List.not_mem_nil⟩, hc⟩
  connects _ := rfl
  fails hno := absurd hc hno

/-- A report that is not the truth, where there is nothing to report. -/
theorem not_told {o : Option (Report CacheSize)} (ho : ∀ r, o = some r → ¬Truthful u k (some tv) r)
    (hc : ¬(Connects u k (some tv) ∧ Seen k tv)) :
    (∃ r, o = some r ∧ Truthful u k (some tv) r) ↔ Connects u k (some tv) ∧ Seen k tv := by
  refine iff_of_false ?_ hc
  intro h
  obtain ⟨r, hr, ht⟩ := h
  exact ho r hr ht

/-- With a socket, `Connect` tells the truth if the connection counts and `poll` reports it. -/
theorem connect_opened (hopen : u.openSocket k.socket = some u₁) :
    (∃ r, connectSync u k (some tv) = some r ∧ Truthful u k (some tv) r) ↔ Connects u k (some tv) ∧ Seen k tv := by
  obtain ⟨fd, hfd, -⟩ := openSocket_descriptor hopen tv
  simp only [connectSync, hopen]
  by_cases herr : k.connect = .error
  · rw [if_pos herr]
    refine not_told (fun r hr ht => ?_) fun h => ?_
    · cases hr
      exact ht.not_open minus_one hfd
    · obtain ⟨tv', w, -, -, hok, -⟩ := h.1
      exact hok herr
  rw [if_neg herr]
  rcases wait_cases k tv with ⟨hfails, hw⟩ | ⟨-, hseen, hw⟩ | ⟨hunseen, hw⟩
  · rw [hw]
    refine not_told (fun r hr ht => ?_) fun h => ?_
    · cases hr
      exact ht.not_open minus_one hfd
    · obtain ⟨tv', w, -, -, -, hok, -⟩ := h.1
      rw [hfails] at hok
      cases hok
  · rw [hw]
    by_cases hso : k.soError = some 0
    · constructor
      · intro h
        obtain ⟨r, hr, ht⟩ := h
        simp only [Option.map_some, hso] at hr
        cases hr
        exact ⟨(ht.zero.mp rfl).2.2, hseen⟩
      · intro h
        refine ⟨_, rfl, ?_⟩
        simp only [hso]
        exact truthful_connected hfd h.1
    · refine not_told (fun r hr ht => ?_) fun h => ?_
      · simp only [Option.map_some, hso] at hr
        cases hr
        exact not_truthful_giveUp ht
      · obtain ⟨tv', w, -, -, -, -, -, -, -, hok⟩ := h.1
        exact hso hok
  · refine not_told (fun r hr ht => ?_) fun h => hunseen h.2
    rcases hw with hw | hw
    · rw [hw] at hr
      cases hr
    · rw [hw] at hr
      cases hr
      exact not_truthful_giveUp ht

/-- The call reports the truth exactly if it never gets a socket, or if it connects and the socket is also
readable, or in error, before `poll` gives up. -/
theorem connect_truthful (u : Run CacheSize) (k : Kernel) (timeout : Option Timeval) :
    (∃ r, connectSync u k timeout = some r ∧ Truthful u k timeout r) ↔
      (u.client.Socket = none ∧ (timeout = none ∨ k.socket = none)) ∨
        (Connects u k timeout ∧ ∃ tv, timeout = some tv ∧ Seen k tv) := by
  cases timeout with
  | none =>
    constructor
    · intro h
      obtain ⟨r, hr, ht⟩ := h
      cases hr
      cases hs : u.client.Socket with
      | none => exact .inl ⟨rfl, .inl rfl⟩
      | some fd => exact absurd hs (ht.not_open minus_one)
    · intro h
      rcases h with ⟨hs, -⟩ | ⟨-, tv, htv, -⟩
      · exact ⟨_, rfl, truthful_without_socket hs (by rw [descriptor, hs]; rfl)⟩
      · cases htv
  | some tv =>
    cases hopen : u.openSocket k.socket with
    | none =>
      obtain ⟨hs, hk⟩ := openSocket_eq_none.mp hopen
      have hr : connectSync u k (some tv) = some { run := u, iRet := -1 } := by
        simp only [connectSync, hopen]
      exact iff_of_true ⟨_, hr, truthful_without_socket hs (by rw [descriptor, hs]; exact hk)⟩ (.inl ⟨hs, .inr hk⟩)
    | some u₁ =>
      have hsocket : ¬(u.client.Socket = none ∧ (some tv = none ∨ k.socket = none)) := by
        intro h
        rw [openSocket_eq_none.mpr ⟨h.1, h.2.resolve_left nofun⟩] at hopen
        cases hopen
      rw [connect_opened hopen]
      constructor
      · intro h
        exact .inr ⟨h.1, tv, rfl, h.2⟩
      · intro h
        obtain ⟨hc, tv', htv, hseen⟩ := h.resolve_left hsocket
        cases htv
        exact ⟨hc, hseen⟩

/-- A server that accepts after 5 ms and waits for the client to speak. -/
def silentServer : Kernel where
  socket := some 7
  connect := .inProgress
  pollFails := false
  readable := none
  writable := some 5
  error := none
  soError := some 0

/-- The connection is made within the second, and `Connect` closes it and returns 0. -/
theorem silent_server_dropped : Connects start silentServer (some ⟨1, 0⟩) ∧
    (∃ r, connectSync start silentServer (some ⟨1, 0⟩) = some r ∧ r.iRet = 0 ∧ r.run.client.Socket = none ∧
      r.called = [.connectTimout, .disconnected] ∧ r.closed = [7]) ∧
    ¬∃ r, connectSync start silentServer (some ⟨1, 0⟩) = some r ∧ Truthful start silentServer (some ⟨1, 0⟩) r := by
  refine ⟨⟨⟨1, 0⟩, 5, rfl, by decide, by decide, rfl, rfl, by decide, nofun, rfl⟩,
    ⟨_, rfl, rfl, rfl, rfl, rfl⟩, ?_⟩
  intro h
  obtain ⟨r, hr, ht⟩ := h
  cases hr
  exact not_truthful_giveUp ht

/-! ## The call in the pool's model -/

theorem clearTimer_stack (u : Run CacheSize) (stack : List Frame) :
    { u with stack }.clearTimer = { u.clearTimer with stack } := by
  unfold Run.clearTimer
  dsimp only
  split <;> rfl

/-- Both callbacks of a call that gives up are back. -/
theorem ret_giveUp (u : Run CacheSize) :
    [Label.ret 0 none false, .ret 0 none false].foldlM Run.step { u with stack := .disconnect :: u.stack } =
      some u.giveUp.run := by
  have hfirst : { u with stack := .disconnect :: u.stack }.step (.ret 0 none false) = some (u.disconnect false) := rfl
  have hsecond : (u.disconnect false).step (.ret 0 none false) =
      some { u.clearTimer with stack := u.stack }.close := rfl
  have hstack : { u.clearTimer with stack := u.stack } = u.clearTimer := (clearTimer_stack u u.stack).symm
  rw [List.foldlM_cons, hfirst, Option.bind_eq_bind, Option.bind_some, List.foldlM_cons, hsecond, hstack]
  rfl

theorem ret_idle (hu : u.stack = []) : [Label.ret 0 none false, .ret 0 none false].foldlM Run.step u = some u := by
  have hstep : u.step (.ret 0 none false) = some u := by
    rw [Run.step, hu]
  rw [List.foldlM_cons, hstep, Option.bind_eq_bind, Option.bind_some, List.foldlM_cons, hstep]
  rfl

theorem ret_register (hu : u.stack = []) : [Label.ret 0 none false, .ret 0 none false].foldlM Run.step
    { u with stack := .register :: u.stack } = some u := by
  have hfirst : { u with stack := .register :: u.stack }.step (.ret 0 none false) = some u := rfl
  have hsecond : u.step (.ret 0 none false) = some u := by
    rw [Run.step, hu]
  rw [List.foldlM_cons, hfirst, Option.bind_eq_bind, Option.bind_some, List.foldlM_cons, hsecond]
  rfl

/-- Once its callbacks are back, `Connect` in `TcpClientNotice` did to the client what it does here, and called
`OnConnected` in the same case. -/
theorem connectSync_connectWait {s s' : Notices CacheSize} (hst : s.run.stack = [])
    (h : connectSync s.run k (some tv) = some r)
    (hs' : s' = s.connectWait k.socket (k.connect ≠ .error) ((wait k .OUT tv).getD (-1)) (k.soError ≠ some 0)) :
    [Label.ret 0 none false, .ret 0 none false].foldlM Run.step s'.run = some r.run ∧
      s'.log = if .connected ∈ r.called then .connected :: s.log else s.log := by
  subst hs'
  unfold Notices.connectWait
  unfold connectSync at h
  cases hopen : s.run.openSocket k.socket with
  | none =>
    simp only [hopen] at h ⊢
    cases h
    exact ⟨ret_idle hst, rfl⟩
  | some u =>
    have hu : u.establish.stack = [] := (openSocket_stack hopen).trans hst
    simp only [hopen] at h ⊢
    by_cases herr : k.connect = .error
    · simp only [herr, if_true] at h ⊢
      cases h
      exact ⟨ret_idle hu, rfl⟩
    · have hok : decide (k.connect ≠ .error) = true := decide_eq_true herr
      simp only [hok, herr, if_true, if_false] at h ⊢
      obtain ⟨iRet, hw, hr⟩ := Option.map_eq_some_iff.mp h
      rw [hw, Option.getD_some]
      by_cases h1 : iRet = -1
      · rw [if_pos h1] at hr ⊢
        cases hr
        exact ⟨ret_idle hu, rfl⟩
      rw [if_neg h1] at hr ⊢
      by_cases h0 : iRet = 0
      · rw [if_pos h0] at hr
        rw [if_pos (.inl h0)]
        cases hr
        exact ⟨ret_giveUp u.establish, rfl⟩
      rw [if_neg h0] at hr
      by_cases hso : k.soError = some 0
      · have hnot : ¬(iRet = 0 ∨ decide (k.soError ≠ some 0) = true) := by simp [h0, hso]
        rw [if_pos hso] at hr
        rw [if_neg hnot]
        cases hr
        have hconnected : { u.establish with connected := true }.stack = [] := hu
        exact ⟨ret_register hconnected, rfl⟩
      · have hyes : iRet = 0 ∨ decide (k.soError ≠ some 0) = true := .inr (decide_eq_true hso)
        rw [if_neg hso] at hr
        rw [if_pos hyes]
        cases hr
        exact ⟨ret_giveUp u.establish, rfl⟩

end SimpleSvr.L5.TcpClient
