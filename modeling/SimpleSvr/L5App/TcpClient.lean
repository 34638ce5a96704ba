import SimpleSvr.Core.LTS
import SimpleSvr.L2Machine.Pending
import SimpleSvr.L5App.PackageCache

/-!
# The TCP client (`TcpClient.hpp`)

One `TcpClient` in a started pool. Each of its functions calls a virtual
callback at most once before it goes on, and a callback may call the client
again: `stack` holds what is left to do of the functions whose callback runs,
the innermost first. A step runs to the next callback or to the end.

What the kernel answers is in the label. What `Register`, `Update` and
`UnRegister` answer is handed to the caller or dropped, so it is not there, and
neither is a `Connect` without a `timeval`, which does nothing.

`timers` are those of the `Timer<void>`, which others use as well; `true` is a
connect timer of this client. The fields of `Run` from `connected` on are ghosts.
-/
namespace SimpleSvr.L5
open SimpleSvr.L2 (Pending)

/-- mirrors include/TcpClient.hpp:23-27, 314-315 -/
structure TcpClient (CacheSize : UInt32) where
  /-- `none` is -1 -/
  Socket : Option Nat
  Data : TcpChannelCache CacheSize
  m_AsyncConnectTimerId : UInt32

/-- What is left of a function when its callback returns. -/
inductive Frame where
  /-- `Connect`: `Register` -/
  | register
  /-- `OnWriteable`: `Update` -/
  | update
  /-- `OnWriteable`, `OnErrorable`, `OnAsyncConnectTimout`: `Disconnect` -/
  | disconnect
  /-- `Disconnect`: close the socket; and the `Connect` of `Reconnect` if there is one -/
  | close (reconnect : Bool)
  /-- `OnReadable`: keep what was not read of the `readSize` bytes shown on the connection `conn` -/
  | message (readSize : UInt64) (conn : Nat)

namespace TcpClient

variable {CacheSize : UInt32}

structure Run (CacheSize : UInt32) where
  client : TcpClient CacheSize
  stack : List Frame := []
  timers : Pending Bool := []
  used : List UInt32 := []
  /-- `OnConnected` was called for the socket that is open -/
  connected : Bool := false
  /-- `connect` was successful on the socket that is open -/
  established : Bool := false
  /-- successful calls of `connect` -/
  conn : Nat := 0
  received : Bytes := []
  consumed : Nat := 0
  /-- what each `OnMessage` was shown, and what it should have been -/
  messages : List (Bytes × Bytes) := []

inductive Label where
  | connect (fd : Option Nat) (ok : Bool)
  | connectTimeout (fd : Option Nat) (ok : Bool) (timerId : UInt32)
  | close
  | disconnect
  | reconnect
  | writeable (ok : Bool)
  | readable (recv : Recv)
  | errorable
  | timeout (timerId : UInt32)
  /-- the innermost callback returns; `readPosition` is that of `in`, the rest is for a `Connect` -/
  | ret (readPosition : UInt64) (fd : Option Nat) (ok : Bool)
  /-- the innermost callback throws -/
  | throw
  | otherSet (timerId : UInt32)
  | otherDrop (timerId : UInt32)

namespace Run

/-- The socket to connect with; `none` if `socket` fails.
mirrors include/TcpClient.hpp:31-47, 73-89 -/
def openSocket (u : Run CacheSize) (fd : Option Nat) : Option (Run CacheSize) :=
  match u.client.Socket with
  | some _ => some u
  | none => fd.map fun fd => { u with client := { u.client with Socket := some fd } }

/-- A connection is there: the cache starts empty.
mirrors include/TcpClient.hpp:53, 96 -/
def establish (u : Run CacheSize) : Run CacheSize :=
  { u with
    client := { u.client with Data := u.client.Data.reset }
    established := true
    conn := u.conn + 1
    received := []
    consumed := 0 }

/-- mirrors include/TcpClient.hpp:29-66 -/
def connect (u : Run CacheSize) (fd : Option Nat) (ok : Bool) : Run CacheSize :=
  match u.openSocket fd with
  | none => u
  | some u => if ok then { u.establish with connected := true, stack := .register :: u.stack } else u

/-- mirrors include/TcpClient.hpp:68-106 -/
def connectTimeout (u : Run CacheSize) (fd : Option Nat) (ok : Bool) (timerId : UInt32) : Run CacheSize :=
  match u.openSocket fd with
  | none => u
  | some u =>
    if ok then
      { u.establish with
        client := { u.establish.client with m_AsyncConnectTimerId := timerId }
        timers := (timerId, true) :: u.timers
        used := timerId :: u.used }
    else u

/-- mirrors include/TcpClient.hpp:136-140 -/
def close (u : Run CacheSize) : Run CacheSize :=
  { u with client := { u.client with Socket := none }, connected := false, established := false }

/-- mirrors include/TcpClient.hpp:144-148 -/
def clearTimer (u : Run CacheSize) : Run CacheSize :=
  if u.client.m_AsyncConnectTimerId ≠ 0 then
    { u with
      timers := u.timers.clear u.client.m_AsyncConnectTimerId
      client := { u.client with m_AsyncConnectTimerId := 0 } }
  else u

/-- mirrors include/TcpClient.hpp:142-157, 280-288 -/
def disconnect (u : Run CacheSize) (reconnect : Bool) : Run CacheSize :=
  { u.clearTimer with stack := .close reconnect :: u.stack }

/-- mirrors include/TcpClient.hpp:159-177 -/
def onWriteable (u : Run CacheSize) (ok : Bool) : Run CacheSize :=
  if ok then
    { u with
      timers := u.timers.clear u.client.m_AsyncConnectTimerId
      client := { u.client with m_AsyncConnectTimerId := 0 }
      connected := true
      stack := .update :: u.stack }
  else { u with stack := .disconnect :: u.stack }

/-- A full cache and a `recvmsg` that fails end in an exception that `Dispatch` ignores.
mirrors include/TcpClient.hpp:179-201 -/
def onReadable (u : Run CacheSize) (recv : Recv) : Option (Run CacheSize) :=
  if u.client.Data.dwRemainSize ≤ 0 then some (u.disconnect false)
  else
    match recv with
    | .fail => some u
    | .bytes [] => some (u.disconnect false)
    | .bytes chunk => do
      let c ← u.client.Data.receive chunk
      let received := u.received ++ chunk
      some { u with
        client := { u.client with Data := c }
        received := received
        messages := u.messages ++ [(c.shown, received.drop u.consumed)]
        stack := .message c.message.availableReadSize u.conn :: u.stack }

/-- mirrors include/TcpClient.hpp:216-220 -/
def onErrorable (u : Run CacheSize) : Run CacheSize := { u with stack := .disconnect :: u.stack }

/-- mirrors include/TcpClient.hpp:307-312 -/
def onAsyncConnectTimout (u : Run CacheSize) (timerId : UInt32) : Run CacheSize :=
  { u with
    timers := u.timers.clear timerId
    client := { u.client with m_AsyncConnectTimerId := 0 }
    stack := .disconnect :: u.stack }

/-- The function whose callback ran goes on. -/
def resume (u : Run CacheSize) (readPosition : UInt64) (fd : Option Nat) (ok : Bool) : Frame → Option (Run CacheSize)
  | .register => some u
  | .update => some u
  | .disconnect => some (u.disconnect false)
  | .close reconnect => some (if reconnect then u.close.connect fd ok else u.close)
  | .message readSize conn => do
    let c ← u.client.Data.leave readSize readPosition
    some { u with
      client := { u.client with Data := c }
      consumed := if conn = u.conn then u.consumed + readPosition.toNat else u.consumed }

def step (u : Run CacheSize) : Label → Option (Run CacheSize)
  | .connect fd ok => some (u.connect fd ok)
  | .connectTimeout fd ok timerId => some (u.connectTimeout fd ok timerId)
  | .close => some u.close
  | .disconnect => some (u.disconnect false)
  | .reconnect => some (u.disconnect true)
  | .writeable ok => some (u.onWriteable ok)
  | .readable recv => u.onReadable recv
  | .errorable => some u.onErrorable
  | .timeout timerId => some (u.onAsyncConnectTimout timerId)
  | .ret readPosition fd ok =>
    match u.stack with
    | [] => some u
    | f :: rest => { u with stack := rest }.resume readPosition fd ok f
  | .throw => some { u with stack := u.stack.tail }
  | .otherSet timerId => some { u with timers := (timerId, false) :: u.timers, used := timerId :: u.used }
  | .otherDrop timerId => some { u with timers := u.timers.clear timerId }

end Run

/-- `recvmsg` gets bytes from a connection only, and no more than it is given space. -/
def delivers (u : Run CacheSize) : Recv → Prop
  | .fail => True
  | .bytes chunk => u.established = true ∧ (chunk.length : Int) ≤ u.client.Data.dwRemainSize

/-- A read position is in the buffer. -/
def Frame.allows (readPosition : UInt64) : Frame → Prop
  | .message readSize _ => readPosition ≤ readSize
  | _ => True

/-- Ids are new and not zero; events and timers come when no function of the client runs. -/
def enabled (u : Run CacheSize) : Label → Prop
  | .connectTimeout _ _ timerId => timerId ∉ u.used ∧ timerId ≠ 0
  | .writeable _ => u.stack = []
  | .readable recv => u.stack = [] ∧ delivers u recv
  | .errorable => u.stack = []
  | .timeout timerId => u.stack = [] ∧ (timerId, true) ∈ u.timers
  | .ret readPosition _ _ => u.stack ≠ [] ∧ ∀ f ∈ u.stack.head?, Frame.allows readPosition f
  | .throw => u.stack ≠ []
  | .otherSet timerId => timerId ∉ u.used ∧ timerId ≠ 0
  | .otherDrop timerId => (timerId, false) ∈ u.timers
  | _ => True

instance (u : Run CacheSize) : (recv : Recv) → Decidable (delivers u recv)
  | .fail => inferInstanceAs (Decidable True)
  | .bytes _ => inferInstanceAs (Decidable (_ ∧ _))

instance (readPosition : UInt64) : (f : Frame) → Decidable (Frame.allows readPosition f)
  | .message .. => inferInstanceAs (Decidable (_ ≤ _))
  | .register | .update | .disconnect | .close _ => inferInstanceAs (Decidable True)

instance (u : Run CacheSize) : (l : Label) → Decidable (enabled u l)
  | .connectTimeout .. | .readable _ | .timeout _ | .otherSet _ => inferInstanceAs (Decidable (_ ∧ _))
  | .writeable _ | .errorable => inferInstanceAs (Decidable (_ = []))
  | .ret .. => inferInstanceAs (Decidable (_ ∧ ∀ _ ∈ _, _))
  | .throw => inferInstanceAs (Decidable (_ ≠ []))
  | .otherDrop _ => inferInstanceAs (Decidable (_ ∈ _))
  | .connect .. | .close | .disconnect | .reconnect => inferInstanceAs (Decidable True)

/-- The constructor.
mirrors include/TcpClient.hpp:223-233 -/
def new (cache : TcpChannelCache CacheSize) : TcpClient CacheSize where
  Socket := none
  Data := cache.reset
  m_AsyncConnectTimerId := 0

def client (CacheSize : UInt32) : LTS (Run CacheSize) Label where
  init u := ∃ cache, u = { client := new cache }
  step u l u' := enabled u l ∧ u.step l = some u'

/-- A new client with a cache of four bytes. -/
def start : Run 4 := { client := new .fourBytes }

end TcpClient
end SimpleSvr.L5
