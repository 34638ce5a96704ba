import SimpleSvr.L5App.EventScheduler
import SimpleSvr.L5App.TcpServerLife

/-!
# Sockets and the event loop under the TCP server (`EPoll.cc`, `EventScheduler.hpp`, `TcpServer.hpp`)

`TcpServer` takes it that events are reported of the records that are registered.
Here a record has its socket, the kernel has for each open socket the `data.ptr`
that `epoll_ctl` left with it, and `Dispatch` calls the handler of the pointer
that `epoll_wait` returns. The number of a closed socket is handed out again.

* `Reactor.server` forgets the sockets. `step_refines`: an event is one step of
  the server or changes nothing.
* `Wired`: the kernel's entries are those of the live records and of the
  listening socket, each under its own socket, and no other socket is open.
* `reactor_refines`: in every run in which the callbacks are orderly both hold,
  and what `epoll_wait` returns can be dispatched exactly by orderly callbacks.

`none` is an access to a record that was deleted, or outside a cache.
-/
namespace SimpleSvr.L5

abbrev Fd := Nat

/-- A record: `m_Channel.Socket` and `m_Channel.Data`.
mirrors include/Server.hpp:21-44 -/
structure ServerInterface (CacheSize : UInt32) where
  Socket : Fd
  Data : TcpChannelCache CacheSize

/-- `data.ptr`: the interface of the server itself, or of a channel. -/
inductive Ptr where
  | server
  | channel (r : ChannelRec)
deriving DecidableEq

def Ptr.channel? : Ptr → Option ChannelRec
  | .server => none
  | .channel r => some r

structure Reactor (CacheSize : UInt32) where
  mem : OrdMap ChannelRec (ServerInterface CacheSize) := .empty
  brk : ChannelRec := 0
  /-- the sockets that are open -/
  fds : List Fd
  /-- what `epoll_ctl` has added -/
  epoll : List (Fd × Ptr)
  log : List (ChannelRec × Event) := []

namespace Reactor

variable {CacheSize : UInt32}

def emit (w : Reactor CacheSize) (r : ChannelRec) (e : Event) : Reactor CacheSize := { w with log := w.log ++ [(r, e)] }

/-- `none` is -1: the socket has an entry, or `room` is false.
mirrors include/EventScheduler.hpp:103-107, src/EPoll.cc:48-54 -/
def Register (w : Reactor CacheSize) (Socket : Fd) (p : Ptr) (room : Bool) : Option (Reactor CacheSize) :=
  if room = true ∧ ∀ e ∈ w.epoll, e.1 ≠ Socket then some { w with epoll := (Socket, p) :: w.epoll } else none

/-- mirrors include/EventScheduler.hpp:75-79 -/
def UnRegister (w : Reactor CacheSize) (Socket : Fd) : Reactor CacheSize :=
  { w with epoll := w.epoll.filter (·.1 ≠ Socket) }

/-- The kernel forgets the entry of a socket that is closed. -/
def close (w : Reactor CacheSize) (Socket : Fd) : Reactor CacheSize :=
  { w with fds := w.fds.filter (· ≠ Socket), epoll := w.epoll.filter (·.1 ≠ Socket) }

/-- mirrors include/TcpServer.hpp:225-228, 135-139 -/
def release (w : Reactor CacheSize) (r : ChannelRec) : Option (Reactor CacheSize) := do
  let i ← w.mem.find r
  let w := ((w.emit r .touched).UnRegister i.Socket).close i.Socket
  let w := (w.emit r .closed).emit r .deleted
  some { w with mem := w.mem.erase r }

/-- mirrors include/TcpServer.hpp:220-229 -/
def DisconnectClient (w : Reactor CacheSize) (r : ChannelRec) : Option (Reactor CacheSize) :=
  (w.emit r .disconnected).release r

/-- What a callback does with the channel that it is given. -/
def runUses (w : Reactor CacheSize) (r : ChannelRec) : List Use → Option (Reactor CacheSize)
  | [] => some w
  | .touch :: uses => do
    let _ ← w.mem.find r
    (w.emit r .touched).runUses r uses
  | .disconnect :: uses => do
    let w ← w.DisconnectClient r
    w.runUses r uses

/-- What the system calls return while an event is handled, and what the handler does. `accept` and
`room`: of `accept` and `epoll_ctl`; `cache`: what `new` returns. -/
structure Env (CacheSize : UInt32) where
  accept : Option Fd := none
  room : Bool := true
  cache : TcpChannelCache CacheSize
  recvmsg : Recv := .fail
  callback : HandlerCall := {}

/-- mirrors include/TcpServer.hpp:62-114 -/
def OnAcceptable (w : Reactor CacheSize) (env : Env CacheSize) : Option (Reactor CacheSize) :=
  match env.accept with
  | none => some w
  | some clifd =>
    let r := w.brk
    let w := { w with mem := w.mem.insert r ⟨clifd, env.cache.reset⟩, brk := r + 1, fds := clifd :: w.fds }
    match w.Register clifd (.channel r) env.room with
    | some w => (w.emit r .connected).runUses r env.callback.uses
    | none =>
      let w := ((w.close clifd).emit r .closed).emit r .deleted
      some { w with mem := w.mem.erase r }

def setData (w : Reactor CacheSize) (r : ChannelRec) (c : TcpChannelCache CacheSize) : Reactor CacheSize :=
  { w with mem := w.mem.modify r fun i => { i with Data := c } }

/-- mirrors include/TcpServer.hpp:141-156 -/
def showMessage (w : Reactor CacheSize) (r : ChannelRec) (c : TcpChannelCache CacheSize) (cb : HandlerCall) :
    Option (Reactor CacheSize) := do
  let w ← ((w.setData r c).emit r (.message c.shown)).runUses r cb.uses
  if cb.throws then some w
  else do
    let _ ← w.mem.find r
    let c ← c.leave c.message.availableReadSize cb.readPosition
    some ((w.setData r c).emit r (.returned cb.readPosition))

/-- mirrors include/TcpServer.hpp:116-157 -/
def OnReadable (w : Reactor CacheSize) (r : ChannelRec) (recv : Recv) (cb : HandlerCall) :
    Option (Reactor CacheSize) := do
  let i ← w.mem.find r
  let w := w.emit r .touched
  if i.Data.dwRemainSize ≤ 0 then w.DisconnectClient r
  else
    match recv with
    | .fail => some w
    | .bytes [] => (w.emit r .disconnected).release r
    | .bytes chunk => do
      let c ← i.Data.receive chunk
      (w.emit r (.received chunk)).showMessage r c cb

/-- mirrors include/TcpServer.hpp:163-167 -/
def OnErrorable (w : Reactor CacheSize) (r : ChannelRec) (cb : HandlerCall) : Option (Reactor CacheSize) := do
  let _ ← w.mem.find r
  let w ← (w.emit r .touched).runUses r cb.uses
  if cb.throws then some w else w.DisconnectClient r

/-- The handler that `Dispatch` calls.
mirrors include/EventScheduler.hpp:143-148 -/
def handlerOf (events : UInt32) : Option Handler :=
  if events &&& EventScheduler.ERR = EventScheduler.ERR then some .OnError
  else if events &&& EventScheduler.IN = EventScheduler.IN then some .OnReadable
  else if events &&& EventScheduler.OUT = EventScheduler.OUT then some .OnWriteable
  else none

/-- Of the server itself only `m_ReadableCallback` is set: the others throw. `OnWriteable` does nothing.
mirrors include/TcpServer.hpp:159-161, 197 -/
def dispatch (w : Reactor CacheSize) (p : Ptr) (events : UInt32) (env : Env CacheSize) : Option (Reactor CacheSize) :=
  match p, handlerOf events with
  | .server, some .OnReadable => w.OnAcceptable env
  | .channel r, some .OnReadable => w.OnReadable r env.recvmsg env.callback
  | .channel r, some .OnError => w.OnErrorable r env.callback
  | _, _ => some w

/-- What `epoll_wait` returns, and what happens while it is handled. -/
structure Label (CacheSize : UInt32) where
  ptr : Ptr
  events : UInt32
  env : Env CacheSize

/-- The reactor without its sockets. -/
def server (w : Reactor CacheSize) : TcpServer CacheSize where
  mem := w.mem.mapTo ServerInterface.Data
  brk := w.brk
  poll := w.epoll.filterMap fun e => e.2.channel?
  log := w.log

/-- An event is reported of an entry; `accept` returns no socket that is open, and the rest is as for
the server. -/
def enabled (w : Reactor CacheSize) (l : Label CacheSize) : Prop :=
  (∃ e ∈ w.epoll, e.2 = l.ptr) ∧ (∀ fd ∈ l.env.accept, fd ∉ w.fds) ∧
    ∀ r ∈ l.ptr.channel?, TcpServer.delivers w.server r l.env.recvmsg l.env.callback

/-- The listening socket is open, and `TcpServerStartup` has registered it. -/
def reactor (CacheSize : UInt32) (listenfd : Fd) : LTS (Reactor CacheSize) (Label CacheSize) where
  init w := w = { fds := [listenfd], epoll := [(listenfd, .server)] }
  step w l w' := w.enabled l ∧ w.dispatch l.ptr l.events l.env = some w'

/-- The step of the server that an event is, if it is one. -/
def Label.served (l : Label CacheSize) : Option (TcpServer.Label CacheSize) :=
  match l.ptr, handlerOf l.events with
  | .server, some .OnReadable => l.env.accept.map fun _ => .accept l.env.cache l.env.room l.env.callback
  | .channel r, some .OnReadable => some (.readable r l.env.recvmsg l.env.callback)
  | .channel r, some .OnError => some (.errorable r l.env.callback)
  | _, _ => none

/-- The callbacks are orderly. -/
def Orderly (w : Reactor CacheSize) (l : Label CacheSize) : Prop := ∀ l' ∈ l.served, TcpServer.Orderly w.server l'

/-! ## Wiring -/

/-- The entries are those of the listening socket and of the records, each under its own socket; no
other socket is open. -/
structure Wired (listenfd : Fd) (w : Reactor CacheSize) : Prop where
  keys : (w.epoll.map Prod.fst).Nodup
  listening : ∀ fd, (fd, .server) ∈ w.epoll ↔ fd = listenfd
  channel : ∀ fd r, (fd, .channel r) ∈ w.epoll ↔ ∃ i, w.mem.find r = some i ∧ i.Socket = fd
  open_ : ∀ fd, fd ∈ w.fds ↔ ∃ p, (fd, p) ∈ w.epoll
  born : ∀ r i, w.mem.find r = some i → r < w.brk

variable {listenfd : Fd} {w w' : Reactor CacheSize} {r : ChannelRec} {i : ServerInterface CacheSize}
  {c : TcpChannelCache CacheSize} {cb : HandlerCall} {uses : List Use}

/-- A socket has one entry. -/
theorem Wired.ptr_unique (h : Wired listenfd w) {fd : Fd} {p q : Ptr} (hp : (fd, p) ∈ w.epoll)
    (hq : (fd, q) ∈ w.epoll) : p = q :=
  congrArg Prod.snd (List.inj_on_of_nodup_map h.keys hp hq rfl)

theorem Wired.entry (h : Wired listenfd w) (hi : w.mem.find r = some i) : (i.Socket, .channel r) ∈ w.epoll :=
  (h.channel _ r).mpr ⟨i, hi, rfl⟩

theorem wired_emit (h : Wired listenfd w) (r : ChannelRec) (e : Event) : Wired listenfd (w.emit r e) :=
  ⟨h.keys, h.listening, h.channel, h.open_, h.born⟩

theorem wired_setData (h : Wired listenfd w) (r : ChannelRec) (c : TcpChannelCache CacheSize) :
    Wired listenfd (w.setData r c) := by
  have hsocket : ∀ x, ((w.setData r c).mem.find x).map ServerInterface.Socket =
      (w.mem.find x).map ServerInterface.Socket :=
    fun x => OrdMap.map_find_modify (f := fun i => { i with Data := c }) (fun _ => rfl) w.mem r x
  refine ⟨h.keys, h.listening, fun fd x => ?_, h.open_, fun x i hi => ?_⟩
  · rw [← Option.map_eq_some_iff, hsocket, Option.map_eq_some_iff]
    exact h.channel fd x
  · obtain ⟨i', hi', -⟩ := Option.map_eq_some_iff.mp ((hsocket x).symm.trans (congrArg _ hi))
    exact h.born x i' hi'

/-- The reactor after `release`. -/
def released (w : Reactor CacheSize) (r : ChannelRec) (i : ServerInterface CacheSize) : Reactor CacheSize :=
  { (((((w.emit r .touched).UnRegister i.Socket).close i.Socket).emit r .closed).emit r .deleted) with
    mem := w.mem.erase r }

theorem release_eq (hi : w.mem.find r = some i) : w.release r = some (w.released r i) := by
  rw [release, hi]
  rfl

theorem mem_released_epoll (w : Reactor CacheSize) (r : ChannelRec) (i : ServerInterface CacheSize) {e : Fd × Ptr} :
    e ∈ (w.released r i).epoll ↔ e ∈ w.epoll ∧ e.1 ≠ i.Socket := by
  simp [released, close, UnRegister, emit]

theorem wired_released (h : Wired listenfd w) (hi : w.mem.find r = some i) : Wired listenfd (w.released r i) := by
  have hentry := h.entry hi
  constructor
  · exact h.keys.sublist ((List.filter_sublist.trans List.filter_sublist).map _)
  · intro fd
    rw [mem_released_epoll, h.listening]
    refine and_iff_left_of_imp fun hfd hsame => ?_
    have hserver := (h.listening fd).mpr hfd
    rw [show fd = i.Socket from hsame] at hserver
    cases h.ptr_unique hserver hentry
  · intro fd x
    rw [mem_released_epoll, h.channel]
    show (∃ i', w.mem.find x = some i' ∧ i'.Socket = fd) ∧ fd ≠ i.Socket ↔
      ∃ i', (w.mem.erase r).find x = some i' ∧ i'.Socket = fd
    simp only [OrdMap.find_erase_iff]
    constructor
    · rintro ⟨⟨i', hi', rfl⟩, hne⟩
      refine ⟨i', ⟨fun hx => hne ?_, hi'⟩, rfl⟩
      rw [hx, hi] at hi'
      rw [Option.some.inj hi']
    · rintro ⟨i', ⟨hx, hi'⟩, rfl⟩
      refine ⟨⟨i', hi', rfl⟩, fun hsame => hx ?_⟩
      have hentry' := h.entry hi'
      rw [hsame] at hentry'
      cases h.ptr_unique hentry' hentry
      rfl
  · intro fd
    have hfds : fd ∈ (w.released r i).fds ↔ fd ∈ w.fds ∧ fd ≠ i.Socket := by
      simp [released, close, UnRegister, emit]
    rw [hfds, h.open_]
    simp only [mem_released_epoll]
    exact ⟨fun ⟨⟨p, hp⟩, hne⟩ => ⟨p, hp, hne⟩, fun ⟨p, hp, hne⟩ => ⟨⟨p, hp⟩, hne⟩⟩
  · intro x i' hi'
    exact h.born x i' (OrdMap.find_erase_iff.mp hi').2

theorem server_released (h : Wired listenfd w) (hi : w.mem.find r = some i) :
    (w.released r i).server = w.server.release r := by
  have hpoll : (w.released r i).epoll.filterMap (fun e => e.2.channel?) =
      (w.epoll.filterMap fun e => e.2.channel?).filter (· ≠ r) := by
    have hfilter : (w.released r i).epoll = w.epoll.filter (·.1 ≠ i.Socket) := by
      simp [released, close, UnRegister, emit, List.filter_filter]
    rw [hfilter, List.filterMap_filter, List.filter_filterMap]
    apply List.filterMap_congr
    intro e he
    obtain ⟨fd, p⟩ := e
    cases p with
    | server => by_cases hfd : fd = i.Socket <;> simp [Ptr.channel?, hfd]
    | channel x =>
      have hsame : fd = i.Socket ↔ x = r := by
        constructor
        · rintro rfl
          cases h.ptr_unique he (h.entry hi)
          rfl
        · rintro rfl
          obtain ⟨i', hi', hfd⟩ := (h.channel fd x).mp he
          rw [hi] at hi'
          rw [← hfd, Option.some.inj hi']
      by_cases hx : x = r <;> simp [Ptr.channel?, hsame, hx, Option.filter]
  simp only [server, TcpServer.release, hpoll]
  simp [released, close, UnRegister, emit, TcpServer.emit, OrdMap.mapTo_erase]

/-! ## Handlers -/

/-- `o` is what `s` is, with its sockets. -/
structure Follows (listenfd : Fd) (o : Option (Reactor CacheSize)) (s : Option (TcpServer CacheSize)) : Prop where
  server : o.map Reactor.server = s
  wired : ∀ w ∈ o, Wired listenfd w

theorem follows_some (h : Wired listenfd w) : Follows listenfd (some w) (some w.server) :=
  ⟨rfl, fun _ hw => Option.some.inj hw ▸ h⟩

theorem follows_none : Follows listenfd (none : Option (Reactor CacheSize)) none where
  server := rfl
  wired _ hw := absurd hw (Option.not_mem_none _)

theorem find_server (w : Reactor CacheSize) (r : ChannelRec) :
    w.server.mem.find r = (w.mem.find r).map ServerInterface.Data := OrdMap.find_mapTo w.mem _ r

theorem server_setData (w : Reactor CacheSize) (r : ChannelRec) (c : TcpChannelCache CacheSize) :
    (w.setData r c).server = { w.server with mem := w.server.mem.modify r fun _ => c } := by
  have hmem := OrdMap.mapTo_modify (F := ServerInterface.Data) (f := fun i => { i with Data := c }) (g := fun _ => c)
    (fun _ => rfl) w.mem r
  simp only [server, setData, hmem]

theorem follows_release (h : Wired listenfd w) (hi : w.mem.find r = some i) :
    Follows listenfd (w.release r) (some (w.server.release r)) := by
  rw [release_eq hi, ← server_released h hi]
  exact follows_some (wired_released h hi)

theorem follows_disconnect (h : Wired listenfd w) (hi : w.mem.find r = some i) :
    Follows listenfd (w.DisconnectClient r) (some (w.server.DisconnectClient r)) :=
  follows_release (wired_emit h r .disconnected) hi

theorem DisconnectClient_gone (hnone : w.mem.find r = none) : w.DisconnectClient r = none := by
  have hgone : (w.emit r .disconnected).mem.find r = none := hnone
  rw [DisconnectClient, release, hgone]
  rfl

theorem runUses_gone (hnone : w.mem.find r = none) : uses ≠ [] → w.runUses r uses = none := by
  intro hne
  cases uses with
  | nil => exact absurd rfl hne
  | cons use uses =>
    cases use with
    | touch =>
      rw [runUses, hnone]
      rfl
    | disconnect =>
      rw [runUses, DisconnectClient_gone hnone]
      rfl

/-- A callback that stops when it disconnects; the record is there after it exactly if it does not. -/
theorem runUses_stops (r : ChannelRec) : ∀ (uses : List Use) {w : Reactor CacheSize}, Wired listenfd w →
    w.mem.find r = some i → .disconnect ∉ uses.dropLast →
    ∃ w', w.runUses r uses = some w' ∧ Wired listenfd w' ∧ w'.server = w.server.runUses r uses ∧
      w'.mem.find r = if .disconnect ∈ uses then none else some i
  | [], w, h, hi, _ => ⟨w, rfl, h, rfl, hi⟩
  | .touch :: uses, w, h, hi, hstop => by
    obtain ⟨w', hw', hwired, hserver, hfind⟩ :=
      runUses_stops r uses (wired_emit h r .touched) hi (TcpServer.touch_dropLast.mp hstop)
    refine ⟨w', ?_, hwired, hserver, ?_⟩
    · rw [runUses, hi]
      exact hw'
    · rw [hfind]
      simp
  | .disconnect :: uses, w, h, hi, hstop => by
    obtain rfl := TcpServer.disconnect_dropLast.mp hstop
    have hrel := release_eq (show (w.emit r .disconnected).mem.find r = some i from hi)
    refine ⟨_, ?_, wired_released (wired_emit h r .disconnected) hi,
      server_released (wired_emit h r .disconnected) hi, ?_⟩
    · rw [runUses, DisconnectClient, hrel]
      rfl
    · rw [if_pos List.mem_cons_self]
      exact OrdMap.find_erase _ _

theorem runUses_goes_on (r : ChannelRec) : ∀ (uses : List Use) {w : Reactor CacheSize},
    w.mem.find r = some i → .disconnect ∈ uses.dropLast → w.runUses r uses = none
  | [], _, _, hgo => absurd hgo List.not_mem_nil
  | .touch :: uses, w, hi, hgo => by
    have hgo : .disconnect ∈ uses.dropLast := by
      by_contra hno
      exact TcpServer.touch_dropLast.mpr hno hgo
    rw [runUses, hi]
    exact runUses_goes_on r uses (w := w.emit r .touched) hi hgo
  | .disconnect :: uses, w, hi, hgo => by
    have hne : uses ≠ [] := fun hnil => TcpServer.disconnect_dropLast.mpr hnil hgo
    have hrel := release_eq (show (w.emit r .disconnected).mem.find r = some i from hi)
    rw [runUses, DisconnectClient, hrel]
    exact runUses_gone (w := (w.emit r .disconnected).released r i) (OrdMap.find_erase _ _) hne

theorem setData_find (c : TcpChannelCache CacheSize) (hi : w.mem.find r = some i) :
    (w.setData r c).mem.find r = some { i with Data := c } := by
  rw [setData, OrdMap.find_modify, hi]
  rfl

theorem follows_showMessage (h : Wired listenfd w) (hi : w.mem.find r = some i) (c : TcpChannelCache CacheSize)
    (hstops : TcpServer.HandlerCall.Stops cb) (hleaves : TcpServer.HandlerCall.Leaves cb) :
    Follows listenfd (w.showMessage r c cb) (w.server.showMessage r c cb) := by
  obtain ⟨w', hw', hwired, hserver, hfind⟩ := runUses_stops r cb.uses
    (wired_emit (wired_setData h r c) r (.message c.shown)) (setData_find c hi) hstops
  have hshown : TcpServer.runUses (TcpServer.emit
      { w.server with mem := w.server.mem.modify r fun _ => c } r (.message c.shown)) r cb.uses = w'.server := by
    rw [hserver, ← server_setData]
    rfl
  rw [showMessage, TcpServer.showMessage, hw', hshown]
  cases ht : cb.throws with
  | true => exact follows_some hwired
  | false =>
    have hno : .disconnect ∉ cb.uses := fun hm => Bool.false_ne_true (ht.symm.trans (hleaves hm))
    rw [if_neg hno] at hfind
    simp only [bind, Option.bind, hfind]
    cases c.leave c.message.availableReadSize cb.readPosition with
    | none => exact follows_none
    | some c' =>
      have hdone := server_setData w' r c'
      exact ⟨congrArg (fun s : TcpServer CacheSize => some (s.emit r (.returned cb.readPosition))) hdone,
        (follows_some (wired_emit (wired_setData hwired r c') r (.returned cb.readPosition))).wired⟩

theorem showMessage_none (h : Wired listenfd w) (hi : w.mem.find r = some i) (c : TcpChannelCache CacheSize)
    (hno : ¬(TcpServer.HandlerCall.Stops cb ∧ TcpServer.HandlerCall.Leaves cb)) : w.showMessage r c cb = none := by
  have hshown := wired_emit (wired_setData h r c) r (.message c.shown)
  rw [showMessage]
  by_cases hstops : TcpServer.HandlerCall.Stops cb
  · obtain ⟨w', hw', -, -, hfind⟩ := runUses_stops r cb.uses hshown (setData_find c hi) hstops
    -- so the callback has disconnected and returns
    obtain ⟨hm, ht⟩ := Classical.not_imp.mp fun hleaves => hno ⟨hstops, hleaves⟩
    rw [if_pos hm] at hfind
    simp only [bind, Option.bind, hw', if_neg ht, hfind]
  · have hgo : .disconnect ∈ cb.uses.dropLast := by
      by_contra hstop
      exact hstops hstop
    have hnone := runUses_goes_on (w := (w.setData r c).emit r (.message c.shown)) r cb.uses (setData_find c hi) hgo
    rw [hnone]
    rfl

/-- The callback that `OnReadable` calls, if it does, is orderly. -/
theorem follows_readable (h : Wired listenfd w) (hi : w.mem.find r = some i) {recv : Recv}
    (ho : TcpServer.Orderly w.server (.readable r recv cb)) :
    Follows listenfd (w.OnReadable r recv cb) (w.server.OnReadable r recv cb) := by
  have hfind : w.server.mem.find r = some i.Data := by
    rw [find_server, hi]
    rfl
  have htouch := wired_emit h r .touched
  rw [OnReadable, TcpServer.OnReadable, hi, hfind]
  by_cases hfull : i.Data.dwRemainSize ≤ 0
  · simp only [bind, Option.bind, if_pos hfull]
    exact follows_disconnect htouch hi
  · simp only [bind, Option.bind, if_neg hfull]
    cases recv with
    | fail => exact follows_some htouch
    | bytes chunk =>
      cases chunk with
      | nil => exact follows_release (wired_emit htouch r .disconnected) hi
      | cons b chunk =>
        have hshows : TcpServer.ShowsMessage w.server r (.bytes (b :: chunk)) := by
          refine ⟨nofun, fun c hc => ?_⟩
          obtain rfl := Option.some.inj (hfind.symm.trans hc)
          exact Int.not_le.mp hfull
        dsimp only
        cases i.Data.receive (b :: chunk) with
        | none => exact follows_none
        | some c =>
          exact follows_showMessage (wired_emit htouch r (.received (b :: chunk))) hi c (ho hshows).1 (ho hshows).2

theorem readable_none (h : Wired listenfd w) (hi : w.mem.find r = some i) {recv : Recv}
    (hno : ¬TcpServer.Orderly w.server (.readable r recv cb)) : w.OnReadable r recv cb = none := by
  have hfind : w.server.mem.find r = some i.Data := by
    rw [find_server, hi]
    rfl
  obtain ⟨hshows, hcall⟩ := Classical.not_imp.mp hno
  cases recv with
  | fail => exact hshows.elim
  | bytes chunk =>
    obtain ⟨hne, hfull⟩ := hshows
    have hfull := Int.not_le.mpr (hfull _ hfind)
    rw [OnReadable, hi]
    simp only [bind, Option.bind, if_neg hfull]
    cases chunk with
    | nil => exact absurd rfl hne
    | cons b chunk =>
      cases i.Data.receive (b :: chunk) with
      | none => rfl
      | some c => exact showMessage_none (wired_emit (wired_emit h r .touched) r (.received (b :: chunk))) hi c hcall

theorem follows_errorable (h : Wired listenfd w) (hi : w.mem.find r = some i)
    (ho : TcpServer.Orderly w.server (.errorable r cb)) :
    Follows listenfd (w.OnErrorable r cb) (some (w.server.OnErrorable r cb)) := by
  obtain ⟨w', hw', hwired, hserver, hfind⟩ := runUses_stops r cb.uses (wired_emit h r .touched) hi ho.1
  rw [OnErrorable, TcpServer.OnErrorable, hi]
  simp only [bind, Option.bind, hw']
  have hserver : (w.server.emit r .touched).runUses r cb.uses = w'.server := hserver.symm
  rw [hserver]
  cases ht : cb.throws with
  | true => exact follows_some hwired
  | false =>
    have hno : .disconnect ∉ cb.uses := fun hm => Bool.false_ne_true (ht.symm.trans (ho.2 hm))
    rw [if_neg hno] at hfind
    exact follows_disconnect hwired hfind

theorem errorable_none (h : Wired listenfd w) (hi : w.mem.find r = some i)
    (hno : ¬TcpServer.Orderly w.server (.errorable r cb)) : w.OnErrorable r cb = none := by
  rw [OnErrorable, hi]
  simp only [bind, Option.bind]
  by_cases hstops : TcpServer.HandlerCall.Stops cb
  · obtain ⟨w', hw', -, -, hfind⟩ := runUses_stops r cb.uses (wired_emit h r .touched) hi hstops
    obtain ⟨hm, ht⟩ := Classical.not_imp.mp fun hleaves => hno ⟨hstops, hleaves⟩
    rw [if_pos hm] at hfind
    simp only [hw', if_neg ht]
    exact DisconnectClient_gone hfind
  · have hgo : .disconnect ∈ cb.uses.dropLast := by
      by_contra hstop
      exact hstops hstop
    have hnone := runUses_goes_on (w := w.emit r .touched) r cb.uses hi hgo
    rw [hnone]

/-! ## Accepting -/

variable {clifd : Fd} {cache : TcpChannelCache CacheSize}

/-- The reactor with the new record and its socket, registered. -/
def accepted (w : Reactor CacheSize) (clifd : Fd) (cache : TcpChannelCache CacheSize) : Reactor CacheSize :=
  { w with
    mem := w.mem.insert w.brk ⟨clifd, cache.reset⟩
    brk := w.brk + 1
    fds := clifd :: w.fds
    epoll := (clifd, .channel w.brk) :: w.epoll }

theorem Wired.not_found (h : Wired listenfd w) : w.mem.find w.brk = none := by
  cases hfind : w.mem.find w.brk with
  | none => rfl
  | some i => exact absurd (h.born _ i hfind) (Nat.lt_irrefl _)

theorem accepted_find (h : Wired listenfd w) (clifd : Fd) (cache : TcpChannelCache CacheSize) :
    (w.accepted clifd cache).mem.find w.brk = some ⟨clifd, cache.reset⟩ := by
  rw [accepted, OrdMap.find_insert, h.not_found]
  rfl

/-- A socket that is not open has no entry. -/
theorem Wired.no_entry (h : Wired listenfd w) (hfd : clifd ∉ w.fds) : ∀ e ∈ w.epoll, e.1 ≠ clifd := by
  rintro ⟨fd, p⟩ he rfl
  exact hfd ((h.open_ fd).mpr ⟨p, he⟩)

theorem wired_accepted (h : Wired listenfd w) (hfd : clifd ∉ w.fds) (cache : TcpChannelCache CacheSize) :
    Wired listenfd (w.accepted clifd cache) := by
  have hno := h.no_entry hfd
  constructor
  · apply List.nodup_cons.mpr
    refine ⟨fun hm => ?_, h.keys⟩
    obtain ⟨e, he, hsame⟩ := List.mem_map.mp hm
    exact hno e he hsame
  · intro fd
    rw [← h.listening fd]
    exact ⟨fun hm => (List.mem_cons.mp hm).resolve_left nofun, List.mem_cons_of_mem _⟩
  · intro fd r
    show (fd, .channel r) ∈ (clifd, .channel w.brk) :: w.epoll ↔ _
    rw [List.mem_cons]
    by_cases hr : r = w.brk
    · subst hr
      rw [accepted_find h, h.channel, h.not_found]
      simp [eq_comm]
    · rw [accepted, OrdMap.find_insert_ne hr, h.channel]
      simp [hr]
  · intro fd
    show fd ∈ clifd :: w.fds ↔ ∃ p, (fd, p) ∈ (clifd, .channel w.brk) :: w.epoll
    simp only [List.mem_cons, h.open_, Prod.mk.injEq]
    constructor
    · rintro (rfl | ⟨p, hp⟩)
      · exact ⟨_, .inl ⟨rfl, rfl⟩⟩
      · exact ⟨p, .inr hp⟩
    · rintro ⟨p, ⟨rfl, -⟩ | hp⟩
      · exact .inl rfl
      · exact .inr ⟨p, hp⟩
  · intro r i hi
    by_cases hr : r = w.brk
    · exact hr ▸ Nat.lt_succ_self _
    · rw [accepted, OrdMap.find_insert_ne hr] at hi
      exact Nat.lt_succ_of_lt (h.born r i hi)

/-- The socket is closed again, and the record deleted. -/
theorem refused_eq (h : Wired listenfd w) (hfd : clifd ∉ w.fds) (cache : TcpChannelCache CacheSize) :
    ({ ({ w with
          mem := w.mem.insert w.brk ⟨clifd, cache.reset⟩
          brk := w.brk + 1
          fds := clifd :: w.fds } : Reactor CacheSize).close clifd with
        mem := (w.mem.insert w.brk ⟨clifd, cache.reset⟩).erase w.brk } : Reactor CacheSize) =
      { w with brk := w.brk + 1 } := by
  have hmem : (w.mem.insert w.brk ⟨clifd, cache.reset⟩).erase w.brk = w.mem := by
    apply OrdMap.ext_find
    intro r
    by_cases hr : r = w.brk
    · rw [hr, OrdMap.find_erase, h.not_found]
    · rw [OrdMap.find_erase_ne hr, OrdMap.find_insert_ne hr]
  have hfds : (clifd :: w.fds).filter (· ≠ clifd) = w.fds := by
    rw [List.filter_cons_of_neg (by simp)]
    exact List.filter_eq_self.mpr fun fd hm => decide_eq_true fun hsame => hfd (hsame ▸ hm)
  have hepoll : w.epoll.filter (·.1 ≠ clifd) = w.epoll :=
    List.filter_eq_self.mpr fun e he => decide_eq_true (h.no_entry hfd e he)
  rw [close, hfds, hepoll, hmem]

theorem wired_skip (h : Wired listenfd w) : Wired listenfd { w with brk := w.brk + 1 } :=
  ⟨h.keys, h.listening, h.channel, h.open_, fun r i hi => Nat.lt_succ_of_lt (h.born r i hi)⟩

variable {env : Env CacheSize}

/-- `OnAcceptable` with the socket that `accept` returned. -/
theorem OnAcceptable_eq (h : Wired listenfd w) (hfd : clifd ∉ w.fds) (henv : env.accept = some clifd) :
    w.OnAcceptable env = if env.room = true then
        ((w.accepted clifd env.cache).emit w.brk .connected).runUses w.brk env.callback.uses
      else some ((({ w with brk := w.brk + 1 } : Reactor CacheSize).emit w.brk .closed).emit w.brk .deleted) := by
  have hno : ∀ e ∈ w.epoll, e.1 ≠ clifd := h.no_entry hfd
  rw [OnAcceptable, henv]
  by_cases hroom : env.room = true
  · simp only [Register, if_pos hroom, if_pos (And.intro hroom hno)]
    rfl
  · have hrefused := congrArg (fun w' : Reactor CacheSize => (w'.emit w.brk .closed).emit w.brk .deleted)
      (refused_eq h hfd env.cache)
    simp only [Register, if_neg hroom, if_neg (fun hc : env.room = true ∧ _ => hroom hc.1)]
    exact congrArg some hrefused

theorem server_accepted (w : Reactor CacheSize) (clifd : Fd) (cache : TcpChannelCache CacheSize) :
    ((w.accepted clifd cache).emit w.brk .connected).server = w.server.accepted cache := by
  have hinsert := OrdMap.mapTo_insert (F := ServerInterface.Data) w.mem w.brk ⟨clifd, cache.reset⟩
  rw [TcpServer.accepted, emit, server, accepted, hinsert]
  rfl

theorem server_refused (h : Wired listenfd w) (cache : TcpChannelCache CacheSize) (cb : HandlerCall) :
    ((({ w with brk := w.brk + 1 } : Reactor CacheSize).emit w.brk .closed).emit w.brk .deleted).server =
      w.server.OnAcceptable cache false cb := by
  have herase : (w.server.mem.insert w.brk cache.reset).erase w.brk = w.server.mem := by
    apply OrdMap.ext_find
    intro r
    by_cases hr : r = w.brk
    · rw [hr, OrdMap.find_erase, find_server, h.not_found, Option.map_none]
    · rw [OrdMap.find_erase_ne hr, OrdMap.find_insert_ne hr]
  rw [TcpServer.OnAcceptable, if_neg Bool.false_ne_true]
  refine Eq.symm (congrArg (fun mem => TcpServer.mk mem _ _ _) herase)

theorem follows_acceptable (h : Wired listenfd w) (hfd : clifd ∉ w.fds) (henv : env.accept = some clifd)
    (ho : TcpServer.Orderly w.server (.accept env.cache env.room env.callback)) :
    Follows listenfd (w.OnAcceptable env) (some (w.server.OnAcceptable env.cache env.room env.callback)) := by
  rw [OnAcceptable_eq h hfd henv]
  cases hroom : env.room with
  | true =>
    obtain ⟨w', hw', hwired, hserver, -⟩ := runUses_stops w.brk env.callback.uses
      (wired_emit (wired_accepted h hfd env.cache) w.brk .connected) (accepted_find h clifd env.cache) (ho hroom)
    have hall : w.server.OnAcceptable env.cache true env.callback = w'.server := by
      rw [hserver, server_accepted]
      rfl
    rw [if_pos rfl, hw', hall]
    exact follows_some hwired
  | false =>
    rw [if_neg Bool.false_ne_true, ← server_refused h]
    exact follows_some (wired_emit (wired_emit (wired_skip h) w.brk .closed) w.brk .deleted)

theorem acceptable_none (h : Wired listenfd w) (hfd : clifd ∉ w.fds) (henv : env.accept = some clifd)
    (hno : ¬TcpServer.Orderly w.server (.accept env.cache env.room env.callback)) : w.OnAcceptable env = none := by
  obtain ⟨hroom, hstops⟩ := Classical.not_imp.mp hno
  have hgo : .disconnect ∈ env.callback.uses.dropLast := by
    by_contra hstop
    exact hstops hstop
  rw [OnAcceptable_eq h hfd henv, if_pos hroom]
  exact runUses_goes_on w.brk env.callback.uses (accepted_find h clifd env.cache) hgo

/-! ## Events -/

variable {l : Label CacheSize}

instance (w : Reactor CacheSize) (l : Label CacheSize) : Decidable (w.enabled l) := inferInstanceAs (Decidable (_ ∧ _))

instance (w : Reactor CacheSize) (l : Label CacheSize) : Decidable (w.Orderly l) :=
  inferInstanceAs (Decidable (∀ _ ∈ _, _))

/-- The handler that `Dispatch` goes to is the scheduler's. -/
theorem onReady_handler {C : Type} (s : EventScheduler C) {events : UInt32} {handler : Handler}
    (h : handlerOf events = some handler) : (s.onReady 1 events).pc = .handler handler := by
  rw [handlerOf] at h
  rw [EventScheduler.onReady, if_pos (by decide)]
  split_ifs at h ⊢ <;> cases h <;> rfl

/-- What an event makes of the server. -/
def Label.next (l : Label CacheSize) (s : TcpServer CacheSize) : Option (TcpServer CacheSize) :=
  match l.served with
  | none => some s
  | some l' => s.step l'

theorem Wired.reported (h : Wired listenfd w) (hl : ∃ e ∈ w.epoll, e.2 = .channel r) :
    ∃ i, w.mem.find r = some i := by
  obtain ⟨⟨fd, p⟩, he, rfl⟩ := hl
  obtain ⟨i, hi, -⟩ := (h.channel fd r).mp he
  exact ⟨i, hi⟩

/-- What an event does. -/
theorem dispatch_cases (w : Reactor CacheSize) (l : Label CacheSize) :
    (l.served = none ∧ w.dispatch l.ptr l.events l.env = some w) ∨
    (∃ clifd, l.env.accept = some clifd ∧ l.served = some (.accept l.env.cache l.env.room l.env.callback) ∧
      w.dispatch l.ptr l.events l.env = w.OnAcceptable l.env) ∨
    (∃ r, l.ptr = .channel r ∧ l.served = some (.readable r l.env.recvmsg l.env.callback) ∧
      w.dispatch l.ptr l.events l.env = w.OnReadable r l.env.recvmsg l.env.callback) ∨
    ∃ r, l.ptr = .channel r ∧ l.served = some (.errorable r l.env.callback) ∧
      w.dispatch l.ptr l.events l.env = w.OnErrorable r l.env.callback := by
  obtain ⟨ptr, events, env⟩ := l
  simp only [Label.served, dispatch]
  cases ptr with
  | server =>
    cases handlerOf events with
    | none => exact .inl ⟨rfl, rfl⟩
    | some handler =>
      cases handler with
      | OnReadable =>
        cases henv : env.accept with
        | none =>
          refine .inl ⟨rfl, ?_⟩
          simp only [OnAcceptable, henv]
        | some clifd => exact .inr (.inl ⟨clifd, rfl, rfl, rfl⟩)
      | OnError | OnWriteable => exact .inl ⟨rfl, rfl⟩
  | channel r =>
    cases handlerOf events with
    | none => exact .inl ⟨rfl, rfl⟩
    | some handler =>
      cases handler with
      | OnReadable => exact .inr (.inr (.inl ⟨r, rfl, rfl, rfl⟩))
      | OnError => exact .inr (.inr (.inr ⟨r, rfl, rfl, rfl⟩))
      | OnWriteable => exact .inl ⟨rfl, rfl⟩

theorem follows_dispatch (h : Wired listenfd w) (hl : w.enabled l) (ho : w.Orderly l) :
    Follows listenfd (w.dispatch l.ptr l.events l.env) (l.next w.server) := by
  obtain ⟨hentry, hfd, -⟩ := hl
  rw [Label.next]
  rcases w.dispatch_cases l with ⟨hserved, hw⟩ | ⟨clifd, henv, hserved, hw⟩ | ⟨r, hptr, hserved, hw⟩ |
    ⟨r, hptr, hserved, hw⟩
  · rw [hserved, hw]
    exact follows_some h
  · rw [hserved, hw]
    exact follows_acceptable h (hfd clifd henv) henv (ho _ hserved)
  · obtain ⟨i, hi⟩ := h.reported (hptr ▸ hentry)
    rw [hserved, hw]
    exact follows_readable h hi (ho _ hserved)
  · obtain ⟨i, hi⟩ := h.reported (hptr ▸ hentry)
    rw [hserved, hw]
    exact follows_errorable h hi (ho _ hserved)

theorem dispatch_none (h : Wired listenfd w) (hl : w.enabled l) (hno : ¬w.Orderly l) :
    w.dispatch l.ptr l.events l.env = none := by
  obtain ⟨hentry, hfd, -⟩ := hl
  simp only [Orderly, not_forall] at hno
  obtain ⟨l', hl', hno⟩ := hno
  rcases w.dispatch_cases l with ⟨hserved, hw⟩ | ⟨clifd, henv, hserved, hw⟩ | ⟨r, hptr, hserved, hw⟩ |
    ⟨r, hptr, hserved, hw⟩
  · cases hserved.symm.trans hl'
  · obtain rfl := Option.some.inj (hserved.symm.trans hl')
    rw [hw]
    exact acceptable_none h (hfd clifd henv) henv hno
  · obtain rfl := Option.some.inj (hserved.symm.trans hl')
    obtain ⟨i, hi⟩ := h.reported (hptr ▸ hentry)
    rw [hw]
    exact readable_none h hi hno
  · obtain rfl := Option.some.inj (hserved.symm.trans hl')
    obtain ⟨i, hi⟩ := h.reported (hptr ▸ hentry)
    rw [hw]
    exact errorable_none h hi hno

/-- An event that is reported is one of the server, if the server has a part in it. -/
theorem served_enabled (hl : w.enabled l) : ∀ l' ∈ l.served, TcpServer.enabled w.server l' := by
  intro l' hl'
  obtain ⟨⟨e, he, hptr'⟩, -, hdelivers⟩ := hl
  have hpolled : ∀ r, l.ptr = .channel r → r ∈ w.server.poll := fun r hptr =>
    List.mem_filterMap.mpr ⟨e, he, by rw [hptr', hptr]; rfl⟩
  rcases w.dispatch_cases l with ⟨hserved, -⟩ | ⟨clifd, -, hserved, -⟩ | ⟨r, hptr, hserved, -⟩ | ⟨r, hptr, hserved, -⟩
  · cases hserved.symm.trans hl'
  · obtain rfl := Option.some.inj (hserved.symm.trans hl')
    trivial
  · obtain rfl := Option.some.inj (hserved.symm.trans hl')
    exact ⟨hpolled r hptr, hdelivers r (by rw [hptr]; rfl)⟩
  · obtain rfl := Option.some.inj (hserved.symm.trans hl')
    exact hpolled r hptr

/-! ## Runs -/

structure Refines (listenfd : Fd) (w : Reactor CacheSize) : Prop where
  wired : Wired listenfd w
  server : ((TcpServer.server CacheSize).guard TcpServer.Orderly).Reachable w.server

theorem wired_start (listenfd : Fd) :
    Wired listenfd ({ fds := [listenfd], epoll := [(listenfd, .server)] } : Reactor CacheSize) where
  keys := List.nodup_singleton _
  listening fd := by simp
  channel fd r := by simp [OrdMap.find, OrdMap.empty]
  open_ fd := by simp
  born r i hi := nomatch hi

theorem Refines.step (h : Refines listenfd w) (hl : w.enabled l) (ho : w.Orderly l)
    (hw : w.dispatch l.ptr l.events l.env = some w') : Refines listenfd w' := by
  have hf := follows_dispatch h.wired hl ho
  have hserver := hf.server
  rw [hw, Option.map_some] at hserver
  refine ⟨hf.wired w' hw, ?_⟩
  rw [Label.next] at hserver
  cases hserved : l.served with
  | none =>
    rw [hserved] at hserver
    rw [Option.some.inj hserver]
    exact h.server
  | some l' =>
    rw [hserved] at hserver
    exact .step h.server ⟨ho l' hserved, served_enabled hl l' hserved, hserver.symm⟩

theorem refines_inductive (CacheSize : UInt32) (listenfd : Fd) :
    ((reactor CacheSize listenfd).guard Orderly).Inductive (Refines listenfd) where
  init := by
    rintro w rfl
    exact ⟨wired_start listenfd, .init rfl⟩
  step := by
    intro w l w' h hs
    exact h.step hs.2.1 hs.1 hs.2.2

/-- Where the callbacks are orderly there is a next state. -/
theorem Refines.next (h : Refines listenfd w) (hl : w.enabled l) (ho : w.Orderly l) :
    ∃ w', w.dispatch l.ptr l.events l.env = some w' := by
  have hf := follows_dispatch h.wired hl ho
  have hknown := (TcpServer.inv_inductive.reachable _ h.server)
  have hsome : ∃ s, l.next w.server = some s := by
    rw [Label.next]
    cases hserved : l.served with
    | none => exact ⟨_, rfl⟩
    | some l' =>
      obtain ⟨s, hs, -⟩ := TcpServer.step_orderly hknown (served_enabled hl l' hserved)
      exact ⟨s, hs⟩
  obtain ⟨s, hs⟩ := hsome
  rw [hs] at hf
  obtain ⟨w', hw', -⟩ := Option.map_eq_some_iff.mp hf.server
  exact ⟨w', hw'⟩

/-- In every run with orderly callbacks the entries of the kernel are those of the live records and of the
listening socket, no other socket is open, and without its sockets the reactor is in a state that the server
reaches; and of what is reported then, exactly what is handled by orderly callbacks can be handled. -/
theorem reactor_refines (CacheSize : UInt32) (listenfd : Fd) (w : Reactor CacheSize)
    (hr : ((reactor CacheSize listenfd).guard Orderly).Reachable w) :
    Wired listenfd w ∧ ((TcpServer.server CacheSize).guard TcpServer.Orderly).Reachable w.server ∧
      ∀ l, w.enabled l → ((∃ w', (reactor CacheSize listenfd).step w l w') ↔ w.Orderly l) := by
  have h := (refines_inductive CacheSize listenfd).reachable w hr
  refine ⟨h.wired, h.server, fun l hl => ⟨fun hstep => ?_, fun ho => ?_⟩⟩
  · obtain ⟨w', -, hw'⟩ := hstep
    by_contra hno
    rw [dispatch_none h.wired hl hno] at hw'
    cases hw'
  · obtain ⟨w', hw'⟩ := h.next hl ho
    exact ⟨w', hl, hw'⟩

/-- A client comes and goes, and another gets its socket. -/
def reuseEvents : List (Label 4) :=
  [⟨.server, EventScheduler.IN, { accept := some 4, cache := .fourBytes }⟩,
    ⟨.channel 0, EventScheduler.IN, { recvmsg := .bytes [], cache := .fourBytes }⟩,
    ⟨.server, EventScheduler.IN, { accept := some 4, cache := .fourBytes }⟩]

def reuse : Option (Reactor 4) :=
  reuseEvents.foldlM (LTS.checked (fun w l => w.Orderly l ∧ w.enabled l) fun w l => w.dispatch l.ptr l.events l.env)
    { fds := [3], epoll := [(3, .server)] }

theorem reactor_refines_reuse :
    ∃ w : Reactor 4, (4, .channel 1) ∈ w.epoll ∧ w.mem.find 0 = none ∧ Wired 3 w := by
  have hrun : reuse.map Reactor.epoll = some [(4, .channel 1), (3, .server)] := by decide
  obtain ⟨w, hw, hentry⟩ := Option.map_eq_some_iff.mp hrun
  have hr : ((reactor 4 3).guard Orderly).Reachable w :=
    LTS.Reachable.checked_guard (fun _ _ _ => And.intro) _ (.init rfl) hw
  have h := reactor_refines 4 3 w hr
  refine ⟨w, by rw [hentry]; decide, ?_, h.1⟩
  cases hfind : w.mem.find 0 with
  | none => rfl
  | some i =>
    have hm := h.1.entry hfind
    rw [hentry] at hm
    simp at hm

end Reactor
end SimpleSvr.L5
