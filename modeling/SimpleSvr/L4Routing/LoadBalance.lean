import SimpleSvr.Core.Bytes
import SimpleSvr.Core.Double
import SimpleSvr.Core.OrdMap
import Mathlib.Order.Basic
import Mathlib.Order.OrderDual
import Mathlib.Order.Nat

/-!
# Load balancing (`LoadBalance.hpp`)

Every service point has a quota of requests. `Route` draws a seed from the
quotas that are left and walks the map with it; when none is left, or the
policy's period is over, it first refills every point from its current quota.
`m_dwTotalQuotas` is maintained beside the map, in wrapping `uint32_t`.

`rand()` and the clock are arguments. The seed is computed in `double`
(`seed`); `exactSeed` is the same without rounding, for what is said of it.
-/
namespace SimpleSvr.L4

/-- The 16 bytes of a `sockaddr_in`. -/
structure SockAddr where
  bytes : Bytes
  size : bytes.length = 16
  deriving DecidableEq

theorem SockAddr.ofBe_injective : Function.Injective fun a : SockAddr => OrderDual.toDual (ofBe a.bytes) := by
  intro a b h
  have hab : ofBe a.bytes = ofBe b.bytes := h
  have ha := be_ofBe a.bytes
  have hb := be_ofBe b.bytes
  rw [a.size] at ha
  rw [b.size] at hb
  cases a
  cases b
  simp_all

/-- `memcmp(&v1, &v2, 16) > 0` puts `v1` first: it compares the bytes as one number.
mirrors include/LoadBalance.hpp:72-81 -/
instance : LinearOrder SockAddr := LinearOrder.lift' _ SockAddr.ofBe_injective

/-- mirrors include/LoadBalance.hpp:29-39 -/
structure ServicePoint where
  stAddress : SockAddr
  dwSendCount : UInt32 := 0
  dwRecvCount : UInt32 := 0
  dwMaxQuotas : UInt32
  dwCurrentQuotas : UInt32
  dwRealQuotas : UInt32

/-- The template parameter `PolicyT`. -/
structure Policy where
  ResetTime : UInt32
  Reset : ServicePoint → ServicePoint

/-- The quotas that `quotas` of `Reset` are after `dwMaxQuotas / parts` more, capped. -/
def raised (point : ServicePoint) (parts : Nat) : UInt32 :=
  let quotas := UInt32.ofNat (point.dwCurrentQuotas.toNat + point.dwMaxQuotas.toNat / parts)
  if quotas > point.dwMaxQuotas then point.dwMaxQuotas else quotas

/-- The doubles of the source are compared and truncated where exact arithmetic is: a quotient
of two `uint32_t` that is not 0.03 is further from it than the rounding.
mirrors include/LoadBalance.hpp:41-70 -/
def RoutePolicy : Policy where
  ResetTime := 10
  Reset point :=
    let lost := (point.dwSendCount - point.dwRecvCount).toNat
    let dwCurrentQuotas :=
      if point.dwSendCount ≠ 0 then
        if lost * 100 > point.dwSendCount.toNat * 3 then 1
        else if lost * 2000 < point.dwSendCount.toNat then raised point 5
        else raised point 20
      else point.dwCurrentQuotas
    { point with dwCurrentQuotas, dwRecvCount := 0, dwSendCount := 0 }

/-- mirrors include/LoadBalance.hpp:305-311 -/
structure LoadBalance where
  m_dwTotalQuotas : UInt32
  m_LastTimestamp : Int
  m_stServicesMap : OrdMap SockAddr ServicePoint

def RAND_MAX : Nat := 2147483647

namespace LoadBalance

/-- The constructor leaves `m_LastTimestamp` to what is in memory.
mirrors include/LoadBalance.hpp:87-90 -/
def new (m_LastTimestamp : Int) : LoadBalance :=
  { m_dwTotalQuotas := 0, m_LastTimestamp, m_stServicesMap := .empty }

/-- mirrors include/LoadBalance.hpp:92-96 -/
def Clear (lb : LoadBalance) : LoadBalance := { lb with m_dwTotalQuotas := 0, m_stServicesMap := .empty }

/-- `insert` keeps a point that is there.
mirrors include/LoadBalance.hpp:98-110 -/
def AddServicePoint (lb : LoadBalance) (addr : SockAddr) (dwQuotas : UInt32) : LoadBalance :=
  let point : ServicePoint :=
    { stAddress := addr, dwMaxQuotas := dwQuotas, dwCurrentQuotas := dwQuotas, dwRealQuotas := dwQuotas }
  { lb with
    m_dwTotalQuotas := lb.m_dwTotalQuotas + dwQuotas
    m_stServicesMap := lb.m_stServicesMap.insert addr point }

/-! ## Configuration files -/

def isDigit (c : UInt8) : Bool := 48 ≤ c && c ≤ 57

/-- `[ \t]` -/
def isBlank (c : UInt8) : Bool := c == 32 || c == 9

/-- `std::isspace` of the classic locale. -/
def isSpace (c : UInt8) : Bool := c == 32 || (9 ≤ c && c ≤ 13)

def trim (s : Bytes) : Bytes := ((s.dropWhile isSpace).reverse.dropWhile isSpace).reverse

/-- The groups of `^([0-9\.]+)[ \t]+([0-9]+)[ \t]+([0-9]+)$`. No character can start two
neighbouring parts, so each part is as long as it can be. -/
def matchLine (s : Bytes) : Option (Bytes × Bytes × Bytes) :=
  let (ip, s) := s.span fun c => isDigit c || c == 46
  let (sep₁, s) := s.span isBlank
  let (port, s) := s.span isDigit
  let (sep₂, s) := s.span isBlank
  let (quotas, s) := s.span isDigit
  if ip ≠ [] ∧ sep₁ ≠ [] ∧ port ≠ [] ∧ sep₂ ≠ [] ∧ quotas ≠ [] ∧ s = [] then some (ip, port, quotas) else none

/-- `strtoul` of decimal digits saturates at `ULONG_MAX`. -/
def strtoul (s : Bytes) : Nat := min (s.foldl (fun n c => n * 10 + (c.toNat - 48)) 0) (2 ^ 64 - 1)

/-- A `sockaddr_in` of the family `PF_INET`. -/
def sockAddr (s_addr : UInt32) (port : Nat) : SockAddr where
  bytes := host 2 2 ++ be 2 port ++ host 4 s_addr.toNat ++ be 8 0
  size := by simp [host]

/-- One line: nothing after its comment is gone, or a point, or no match.
mirrors include/LoadBalance.hpp:146-162 -/
def parseLine (inet_addr : Bytes → UInt32) (sLine : Bytes) : Option (SockAddr × UInt32) :=
  let sLine := trim (sLine.takeWhile (· != 35))
  if sLine = [] then none
  else (matchLine sLine).map fun what =>
    (sockAddr (inet_addr what.1) (strtoul what.2.1), UInt32.ofNat (strtoul what.2.2))

/-- The points that a file configures, in its order; `\n` is 10. -/
def parse (inet_addr : Bytes → UInt32) (strContent : Bytes) : List (SockAddr × UInt32) :=
  (strContent.splitOn 10).filterMap (parseLine inet_addr)

/-- `none`: the file could not be opened or read. The body of the loop is that of `AddServicePoint`.
mirrors include/LoadBalance.hpp:112-175 -/
def LoadConfigure (inet_addr : Bytes → UInt32) (lb : LoadBalance) (strContent : Option Bytes) (now : Int) :
    LoadBalance × Bool :=
  match strContent with
  | none => (lb, false)
  | some strContent =>
    let lb := (parse inet_addr strContent).foldl (fun lb l => lb.AddServicePoint l.1 l.2) lb.Clear
    ({ lb with m_LastTimestamp := now }, lb.m_dwTotalQuotas != 0)

/-! ## Routing -/

/-- mirrors include/LoadBalance.hpp:206-220 -/
def refill (P : Policy) (lb : LoadBalance) (bResetCurrentQuotas : Bool) (now : Int) : LoadBalance :=
  let m_stServicesMap := lb.m_stServicesMap.mapVals fun _ point =>
    let point := if bResetCurrentQuotas then P.Reset point else point
    { point with dwRealQuotas := point.dwCurrentQuotas }
  { m_dwTotalQuotas := m_stServicesMap.entries.foldl (fun total e => total + e.2.dwRealQuotas) 0
    m_LastTimestamp := if bResetCurrentQuotas then now else lb.m_LastTimestamp
    m_stServicesMap }

/-- Refill where the period is over or nothing is left.
mirrors include/LoadBalance.hpp:200-220 -/
def refresh (P : Policy) (lb : LoadBalance) (now : Int) : LoadBalance :=
  let bResetCurrentQuotas := decide (now - lb.m_LastTimestamp > P.ResetTime.toNat)
  if lb.m_dwTotalQuotas = 0 ∨ bResetCurrentQuotas then lb.refill P bResetCurrentQuotas now else lb

/-- mirrors include/LoadBalance.hpp:227-243 -/
def pick (dwSeed : UInt32) : List (SockAddr × ServicePoint) → Option (SockAddr × ServicePoint)
  | [] => none
  | e :: l => if dwSeed ≤ e.2.dwRealQuotas then some e else pick (dwSeed - e.2.dwRealQuotas) l

/-- `(uint32_t)floor((double)n * rand() / RAND_MAX)`, before it is made a `uint32_t`. -/
def draw (n rand : Nat) : Nat := (Double.ofNat n * Double.ofNat rand / Double.ofNat RAND_MAX).floor

/-- mirrors include/LoadBalance.hpp:226 -/
def seed (lb : LoadBalance) (rand : Nat) : UInt32 := UInt32.ofNat (draw (lb.m_dwTotalQuotas + 1).toNat rand)

/-- The seed, if nothing were rounded. -/
def exactSeed (lb : LoadBalance) (rand : Nat) : UInt32 :=
  UInt32.ofNat ((lb.m_dwTotalQuotas + 1).toNat * rand / RAND_MAX)

/-- The point that `e` is an entry of takes a request.
mirrors include/LoadBalance.hpp:235-237 -/
def take (lb : LoadBalance) (e : SockAddr × ServicePoint) : LoadBalance :=
  { lb with
    m_dwTotalQuotas := lb.m_dwTotalQuotas - 1
    m_stServicesMap := lb.m_stServicesMap.modify e.1 fun point =>
      { point with dwSendCount := point.dwSendCount + 1, dwRealQuotas := point.dwRealQuotas - 1 } }

/-- `Route` with this seed. `none`: `*pstAddress` is not written.
mirrors include/LoadBalance.hpp:197-244 -/
def RouteBy (seed : LoadBalance → Nat → UInt32) (P : Policy) (lb : LoadBalance) (now : Int) (rand : Nat) :
    LoadBalance × Option SockAddr :=
  let lb := lb.refresh P now
  match pick (seed lb rand) lb.m_stServicesMap.entries with
  | none => (lb, none)
  | some e => (lb.take e, some e.2.stAddress)

def Route (P : Policy) (lb : LoadBalance) (now : Int) (rand : Nat) : LoadBalance × Option SockAddr :=
  RouteBy seed P lb now rand

/-- mirrors include/LoadBalance.hpp:246-255 -/
def EraseServicePoint (lb : LoadBalance) (addr : SockAddr) : LoadBalance :=
  match lb.m_stServicesMap.find addr with
  | none => lb
  | some point =>
    { lb with
      m_dwTotalQuotas := lb.m_dwTotalQuotas - point.dwRealQuotas
      m_stServicesMap := lb.m_stServicesMap.erase addr }

/-- mirrors include/LoadBalance.hpp:257-267 -/
def Failure (lb : LoadBalance) (addr : SockAddr) : LoadBalance :=
  match lb.m_stServicesMap.find addr with
  | none => lb
  | some point =>
    { lb with
      m_dwTotalQuotas := lb.m_dwTotalQuotas - point.dwRealQuotas
      m_stServicesMap := lb.m_stServicesMap.modify addr fun point =>
        { point with dwRealQuotas := 0, dwCurrentQuotas := 1 } }

/-- mirrors include/LoadBalance.hpp:269-277 -/
def Success (lb : LoadBalance) (addr : SockAddr) : LoadBalance :=
  { lb with
    m_stServicesMap := lb.m_stServicesMap.modify addr fun point =>
      { point with dwRecvCount := point.dwRecvCount + 1 } }

end LoadBalance
end SimpleSvr.L4
