import SimpleSvr.Core.LTS
import SimpleSvr.L2Machine.Pending
import SimpleSvr.L4Routing.LoadBalance

/-!
# The connection pool (`ConnectionPool.hpp`)

Records of connections live in `mem`; a client pointer and the pointer to its
record are the same address, and no address is handed out twice. A record is
attached while its ACTIVE flag is set, else it waits in the list of its address
with, as a rule, an idle timer that deletes it.

The timers belong to a `Timer` that other pools of the same client type use as
well: `none` in `timers` is a timer of theirs. `none` as a result is an access
to a record that is gone, or through `end()`.

`Disconnect` and the destructor of the client are the client's; they do not
reach into the pool.
-/
namespace SimpleSvr.L5
open SimpleSvr.L2 (Pending)
open SimpleSvr.L4 (SockAddr)

abbrev Rec := Nat

def CONNECTIONPOOL_KEEPCONNECTION : UInt32 := 0
def CONNECTIONINFO_FLAGS_ACTIVE : UInt32 := 1

/-- mirrors include/ConnectionPool.hpp:38-57 -/
structure ConnectionInfo where
  stAddress : SockAddr
  IdleConnTimerId : UInt32
  dwFlags : UInt32

/-- mirrors include/ConnectionPool.hpp:303-311 -/
structure ConnectionPool where
  m_ConnectionCount : UInt32 := 0
  m_MaxConnection : UInt32
  m_IdleConnectionTimeout : UInt32
  m_stConnectionMap : OrdMap SockAddr (List Rec) := .empty
  mem : OrdMap Rec ConnectionInfo := .empty
  brk : Rec := 0
  timers : Pending (Option Rec) := []

namespace ConnectionInfo

def active (info : ConnectionInfo) : Bool :=
  info.dwFlags &&& CONNECTIONINFO_FLAGS_ACTIVE == CONNECTIONINFO_FLAGS_ACTIVE

def activate (info : ConnectionInfo) : ConnectionInfo :=
  { info with dwFlags := info.dwFlags ||| CONNECTIONINFO_FLAGS_ACTIVE }

def deactivate (info : ConnectionInfo) : ConnectionInfo :=
  { info with dwFlags := info.dwFlags &&& ~~~CONNECTIONINFO_FLAGS_ACTIVE }

theorem or_one_and_one (x : UInt32) : (x ||| 1) &&& 1 = 1 := by
  apply UInt32.toBitVec_inj.mp
  ext i hi
  simp only [UInt32.toBitVec_and, UInt32.toBitVec_or, UInt32.toBitVec_one, BitVec.getElem_and, BitVec.getElem_or]
  cases (1#32)[i] <;> simp

@[simp] theorem active_activate (info : ConnectionInfo) : info.activate.active = true := by
  simp only [active, activate, CONNECTIONINFO_FLAGS_ACTIVE, or_one_and_one, beq_self_eq_true]

@[simp] theorem active_deactivate (info : ConnectionInfo) : info.deactivate.active = false := by
  have h : info.dwFlags &&& ~~~1 &&& 1 = 0 := by
    rw [UInt32.and_assoc, UInt32.not_and_self, UInt32.and_zero]
  simp only [active, deactivate, CONNECTIONINFO_FLAGS_ACTIVE, h]
  decide

end ConnectionInfo

namespace ConnectionPool

/-- The constructor of a record sets no timer id: `garbage` is what memory holds.
mirrors include/ConnectionPool.hpp:291-301 -/
def NewConnInfo (p : ConnectionPool) (addr : SockAddr) (garbage : UInt32) : ConnectionPool × Option Rec :=
  if p.m_ConnectionCount ≥ p.m_MaxConnection then (p, none)
  else
    ({ p with
        mem := p.mem.insert p.brk { stAddress := addr, IdleConnTimerId := garbage, dwFlags := 0 }
        brk := p.brk + 1
        m_ConnectionCount := p.m_ConnectionCount + 1 }, some p.brk)

/-- The two branches of `Attach` that create a record.
mirrors include/ConnectionPool.hpp:166-171 -/
def attachNew (p : ConnectionPool) (stAddr : SockAddr) (garbage : UInt32) : ConnectionPool × Option Rec :=
  match p.NewConnInfo stAddr garbage with
  | (p, none) => (p, none)
  | (p, some r) => ({ p with mem := p.mem.modify r ConnectionInfo.activate }, some r)

/-- The record whose client is returned; `none` within is -1.
mirrors include/ConnectionPool.hpp:161-198 -/
def Attach (p : ConnectionPool) (stAddr : SockAddr) (garbage : UInt32) : Option (ConnectionPool × Option Rec) :=
  match p.m_stConnectionMap.find stAddr with
  | none => some (p.attachNew stAddr garbage)
  | some [] => some (p.attachNew stAddr garbage)
  | some (r :: _) => do
    let info ← p.mem.find r
    some ({ p with
      m_stConnectionMap := p.m_stConnectionMap.modify stAddr List.tail
      timers := p.timers.clear info.IdleConnTimerId
      mem := p.mem.modify r ConnectionInfo.activate }, some r)

/-- The idle timer of a record that is detached, with the id that `SetTimeout` returns.
mirrors include/ConnectionPool.hpp:210-214 -/
def setIdleTimer (p : ConnectionPool) (r : Rec) (timerId : UInt32) : ConnectionPool :=
  if p.m_IdleConnectionTimeout ≠ CONNECTIONPOOL_KEEPCONNECTION then
    { p with
      timers := (timerId, some r) :: p.timers
      mem := p.mem.modify r fun info => { info with IdleConnTimerId := timerId } }
  else p

/-- The first record of an address is put in a new list.
mirrors include/ConnectionPool.hpp:216-225 -/
def pushIdle (p : ConnectionPool) (stAddress : SockAddr) (r : Rec) : ConnectionPool :=
  match p.m_stConnectionMap.find stAddress with
  | none => { p with m_stConnectionMap := p.m_stConnectionMap.insert stAddress [r] }
  | some _ => { p with m_stConnectionMap := p.m_stConnectionMap.modify stAddress (r :: ·) }

/-- mirrors include/ConnectionPool.hpp:200-226 -/
def Detach (p : ConnectionPool) (r : Rec) (timerId : UInt32) : Option ConnectionPool := do
  let info ← p.mem.find r
  if info.active = false then some p
  else
    let p := { p with mem := p.mem.modify r ConnectionInfo.deactivate }
    some ((p.setIdleTimer r timerId).pushIdle info.stAddress r)

/-- mirrors include/ConnectionPool.hpp:228-238 -/
def Erase (p : ConnectionPool) (r : Rec) : Option ConnectionPool := do
  let _ ← p.mem.find r
  some { p with mem := p.mem.erase r, m_ConnectionCount := p.m_ConnectionCount - 1 }

/-- mirrors include/ConnectionPool.hpp:240-257 -/
def OnTimeout (p : ConnectionPool) (r : Rec) : Option ConnectionPool := do
  let info ← p.mem.find r
  let _ ← p.m_stConnectionMap.find info.stAddress
  some { p with
    m_stConnectionMap := p.m_stConnectionMap.modify info.stAddress (List.erase · r)
    mem := p.mem.erase r
    m_ConnectionCount := if p.m_ConnectionCount > 0 then p.m_ConnectionCount - 1 else p.m_ConnectionCount }

/-- mirrors include/ConnectionPool.hpp:259-262 -/
def SetMaxConnection (p : ConnectionPool) (max : UInt32) : ConnectionPool := { p with m_MaxConnection := max }

/-- mirrors include/ConnectionPool.hpp:264-267 -/
def SetIdleTimeout (p : ConnectionPool) (timeout : UInt32) : ConnectionPool :=
  { p with m_IdleConnectionTimeout := timeout }

/-- The timer of a record comes due. -/
def fire (p : ConnectionPool) (timerId : UInt32) (r : Rec) : Option ConnectionPool :=
  { p with timers := p.timers.clear timerId }.OnTimeout r

end ConnectionPool
end SimpleSvr.L5
