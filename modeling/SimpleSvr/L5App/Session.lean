import SimpleSvr.Core.LTS
import SimpleSvr.Core.OrdMap
import SimpleSvr.L2Machine.Pending
import Mathlib.Order.Nat

/-!
# Sessions (`Session.hpp`)

Each session is a node of `m_stSessionMap` in `mem`; a pointer to the node, to
its data and to its `SessionInfo` are the same address, and no address is handed
out twice. The timer's data is that pointer.

The timers belong to a `Timer` that other objects with the same data type use as
well: `none` in `timers` is a timer of theirs. `none` as a result is an access to
a node that is gone.

`OnSessionTimeout` is taken apart at its calls of the callbacks, since a callback
may call the session: `Expiry` is its frame.
-/
namespace SimpleSvr.L5
open SimpleSvr.L2 (Pending)

abbrev Token := UInt32
abbrev Addr := Nat
abbrev Callback := Nat

variable {DataT : Type}

instance instLinearOrderUInt32 : LinearOrder UInt32 where
  le_refl := UInt32.le_refl
  le_trans _ _ _ := UInt32.le_trans
  lt_iff_le_not_ge _ _ := Std.lt_iff_le_and_not_ge
  le_antisymm _ _ := UInt32.le_antisymm
  le_total := UInt32.le_total
  toDecidableLE := inferInstance
  toDecidableEq := inferInstance
  toDecidableLT := inferInstance

/-- mirrors include/Session.hpp:20-26 -/
structure SessionInfo (DataT : Type) where
  stSessionData : DataT
  dwSequence : Token
  dwTimerId : UInt32

/-- mirrors include/Session.hpp:35-39, 114-121 -/
structure Session (DataT : Type) where
  m_dwSessionTimeout : UInt32 := 200
  m_dwSequence : Token := 0
  m_stSessionMap : OrdMap Token Addr := .empty
  m_stTimeoutCallback : List Callback := []
  mem : OrdMap Addr (SessionInfo DataT) := .empty
  brk : Addr := 0
  timers : Pending (Option Addr) := []

/-- `OnSessionTimeout(pInfo)` before its iterator's next step. -/
structure Expiry where
  pInfo : Addr
  iter : Nat

namespace Session

/-- mirrors include/Session.hpp:41-47 -/
def GetSessionData (s : Session DataT) (dwToken : Token) : Option Addr := s.m_stSessionMap.find dwToken

/-- `m_stSessionMap.insert`: a node that is there stays. -/
def insertInfo (s : Session DataT) (stInfo : SessionInfo DataT) : Session DataT × Addr :=
  match s.m_stSessionMap.find stInfo.dwSequence with
  | some pInfo => (s, pInfo)
  | none =>
    ({ s with
        m_stSessionMap := s.m_stSessionMap.insert stInfo.dwSequence s.brk
        mem := s.mem.insert s.brk stInfo
        brk := s.brk + 1 }, s.brk)

/-- `garbage` is what the local variable holds before it is set; `timerId` is what `SetTimeout` returns.
mirrors include/Session.hpp:54-69 -/
def Allocate (s : Session DataT) (pData : Option DataT) (garbage : SessionInfo DataT) (timerId : UInt32) :
    Session DataT × Token :=
  let s := { s with m_dwSequence := s.m_dwSequence + 1 }
  let stInfo := { garbage with
    dwSequence := s.m_dwSequence
    stSessionData := pData.getD garbage.stSessionData }
  let (s, pInfo) := s.insertInfo stInfo
  ({ s with
      timers := (timerId, some pInfo) :: s.timers
      mem := s.mem.modify pInfo fun info => { info with dwTimerId := timerId } }, s.m_dwSequence)

/-- `m_stSessionMap.erase` -/
def erase (s : Session DataT) (dwToken : Token) : Session DataT :=
  match s.m_stSessionMap.find dwToken with
  | none => s
  | some pInfo => { s with m_stSessionMap := s.m_stSessionMap.erase dwToken, mem := s.mem.erase pInfo }

/-- mirrors include/Session.hpp:71-79 -/
def Delete (s : Session DataT) (dwToken : Token) : Option (Session DataT) :=
  match s.m_stSessionMap.find dwToken with
  | none => some s
  | some pInfo => do
    let info ← s.mem.find pInfo
    some ({ s with timers := s.timers.clear info.dwTimerId }.erase dwToken)

/-- mirrors include/Session.hpp:81-84 -/
def SetSessionTimeout (s : Session DataT) (dwTimeout : UInt32) : Session DataT :=
  { s with m_dwSessionTimeout := dwTimeout }

/-- mirrors include/Session.hpp:97-100 -/
def RegisterCallback (s : Session DataT) (callback : Callback) : Session DataT :=
  { s with m_stTimeoutCallback := s.m_stTimeoutCallback ++ [callback] }

/-- What the user does with the pointer from `GetSessionData`. -/
def put (s : Session DataT) (dwToken : Token) (data : DataT) : Session DataT :=
  match s.GetSessionData dwToken with
  | none => s
  | some pInfo => { s with mem := s.mem.modify pInfo fun info => { info with stSessionData := data } }

/-- The test and the call of the loop: the callback that gets the pointer to the data.
mirrors include/Session.hpp:104-108 -/
def nextCallback (s : Session DataT) (e : Expiry) : Option Callback := s.m_stTimeoutCallback[e.iter]?

/-- After the loop.
mirrors include/Session.hpp:111 -/
def endTimeout (s : Session DataT) (e : Expiry) : Option (Session DataT) := do
  let info ← s.mem.find e.pInfo
  some (s.erase info.dwSequence)

end Session
end SimpleSvr.L5
