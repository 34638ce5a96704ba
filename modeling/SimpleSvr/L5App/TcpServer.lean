import SimpleSvr.Core.LTS
import SimpleSvr.Core.OrdMap
import SimpleSvr.L5App.PackageCache
import Mathlib.Order.Nat

/-!
# The TCP server (`TcpServer.hpp`)

Records of accepted channels live in `mem` until they are deleted; no address is
handed out twice. `poll` are the records that the scheduler knows: it reports
events of these only.

A `HandlerCall` is what the handler does in one call: what it does with the channel
that it is given, whether it throws, and where it leaves the read position. An
exception ends the event: `Dispatch` ignores it.

The log has every use that the library or a callback makes of a record. `none` is
an access outside the cache.
-/
namespace SimpleSvr.L5

abbrev ChannelRec := Nat

inductive Event where
  | connected
  | disconnected
  /-- the record is read or written -/
  | touched
  | received (chunk : Bytes)
  | message (shown : Bytes)
  | returned (readPosition : UInt64)
  | closed
  | deleted
deriving DecidableEq

inductive Use where
  | touch
  | disconnect
deriving DecidableEq

structure HandlerCall where
  uses : List Use := []
  throws : Bool := false
  readPosition : UInt64 := 0

structure TcpServer (CacheSize : UInt32) where
  mem : OrdMap ChannelRec (TcpChannelCache CacheSize) := .empty
  brk : ChannelRec := 0
  poll : List ChannelRec := []
  log : List (ChannelRec × Event) := []

namespace TcpServer

variable {CacheSize : UInt32}

def emit (s : TcpServer CacheSize) (r : ChannelRec) (e : Event) : TcpServer CacheSize :=
  { s with log := s.log ++ [(r, e)] }

/-- `UnRegister`, `shutdown`, `close` and `delete`.
mirrors include/TcpServer.hpp:225-228, 135-139 -/
def release (s : TcpServer CacheSize) (r : ChannelRec) : TcpServer CacheSize :=
  let s := s.emit r .touched
  let s := { s with poll := s.poll.filter (· ≠ r) }
  let s := (s.emit r .closed).emit r .deleted
  { s with mem := s.mem.erase r }

/-- mirrors include/TcpServer.hpp:220-229 -/
def DisconnectClient (s : TcpServer CacheSize) (r : ChannelRec) : TcpServer CacheSize :=
  (s.emit r .disconnected).release r

/-- What a callback does with the channel that it is given. -/
def runUses (s : TcpServer CacheSize) (r : ChannelRec) : List Use → TcpServer CacheSize
  | [] => s
  | .touch :: uses => (s.emit r .touched).runUses r uses
  | .disconnect :: uses => (s.DisconnectClient r).runUses r uses

/-- `accept` returned a socket; `registered`: `Register` did not fail. The cache of a new record is
taken to start empty.
mirrors include/TcpServer.hpp:92-113 -/
def OnAcceptable (s : TcpServer CacheSize) (cache : TcpChannelCache CacheSize) (registered : Bool) (cb : HandlerCall) :
    TcpServer CacheSize :=
  let r := s.brk
  let s := { s with mem := s.mem.insert r cache.reset, brk := r + 1 }
  if registered then
    let s := { s with poll := r :: s.poll }
    (s.emit r .connected).runUses r cb.uses
  else
    let s := (s.emit r .closed).emit r .deleted
    { s with mem := s.mem.erase r }

/-- `OnMessage` is called, and its read position is kept when it returns.
mirrors include/TcpServer.hpp:141-156 -/
def showMessage (s : TcpServer CacheSize) (r : ChannelRec) (c : TcpChannelCache CacheSize) (cb : HandlerCall) :
    Option (TcpServer CacheSize) :=
  let s := { s with mem := s.mem.modify r fun _ => c }
  let s := (s.emit r (.message c.shown)).runUses r cb.uses
  if cb.throws then some s
  else do
    let c ← c.leave c.message.availableReadSize cb.readPosition
    some ({ s with mem := s.mem.modify r fun _ => c }.emit r (.returned cb.readPosition))

/-- mirrors include/TcpServer.hpp:116-157 -/
def OnReadable (s : TcpServer CacheSize) (r : ChannelRec) (recv : Recv) (cb : HandlerCall) :
    Option (TcpServer CacheSize) := do
  let c ← s.mem.find r
  let s := s.emit r .touched
  if c.dwRemainSize ≤ 0 then some (s.DisconnectClient r)
  else
    match recv with
    | .fail => some s
    | .bytes [] => some ((s.emit r .disconnected).release r)
    | .bytes chunk => do
      let c ← c.receive chunk
      (s.emit r (.received chunk)).showMessage r c cb

/-- mirrors include/TcpServer.hpp:163-167 -/
def OnErrorable (s : TcpServer CacheSize) (r : ChannelRec) (cb : HandlerCall) : TcpServer CacheSize :=
  let s := (s.emit r .touched).runUses r cb.uses
  if cb.throws then s else s.DisconnectClient r

inductive Label (CacheSize : UInt32) where
  | accept (cache : TcpChannelCache CacheSize) (registered : Bool) (cb : HandlerCall)
  | readable (r : ChannelRec) (recv : Recv) (cb : HandlerCall)
  | errorable (r : ChannelRec) (cb : HandlerCall)

/-- `recvmsg` gets no more than it is given space for, and a read position is in the buffer. -/
def delivers (s : TcpServer CacheSize) (r : ChannelRec) : Recv → HandlerCall → Prop
  | .fail, _ => True
  | .bytes chunk, cb => ∀ c ∈ s.mem.find r, (chunk.length : Int) ≤ c.dwRemainSize ∧
    cb.readPosition.toNat ≤ c.dwCacheAvailableSize.toNat + chunk.length

def enabled (s : TcpServer CacheSize) : Label CacheSize → Prop
  | .accept .. => True
  | .readable r recv cb => r ∈ s.poll ∧ delivers s r recv cb
  | .errorable r _ => r ∈ s.poll

instance (s : TcpServer CacheSize) (r : ChannelRec) :
    (recv : Recv) → (cb : HandlerCall) → Decidable (delivers s r recv cb)
  | .fail, _ => inferInstanceAs (Decidable True)
  | .bytes _, _ => inferInstanceAs (Decidable (∀ _ ∈ _, _ ∧ _))

instance (s : TcpServer CacheSize) : (l : Label CacheSize) → Decidable (enabled s l)
  | .accept .. => inferInstanceAs (Decidable True)
  | .readable .. => inferInstanceAs (Decidable (_ ∧ _))
  | .errorable .. => inferInstanceAs (Decidable (_ ∈ _))

def step (s : TcpServer CacheSize) : Label CacheSize → Option (TcpServer CacheSize)
  | .accept cache registered cb => some (s.OnAcceptable cache registered cb)
  | .readable r recv cb => s.OnReadable r recv cb
  | .errorable r cb => some (s.OnErrorable r cb)

def server (CacheSize : UInt32) : LTS (TcpServer CacheSize) (Label CacheSize) where
  init s := s = {}
  step s l s' := enabled s l ∧ s.step l = some s'

/-- What happened to one record, in order. -/
def history (s : TcpServer CacheSize) (r : ChannelRec) : List Event := (s.log.filter (·.1 = r)).map Prod.snd

end TcpServer
end SimpleSvr.L5
