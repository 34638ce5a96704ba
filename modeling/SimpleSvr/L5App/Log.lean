import SimpleSvr.Core.Bytes

/-!
# The log (`Log.cc`)

A `SimpleLog` appends to a file named after the hour. `Flush` is a public call,
the callback of a timer and a step of `Close`, and sets the timer again each
time; `Close` leaves `m_File` as it is. `Write` prints to the file that is open
and then lets `ShiftLog` open that of the hour, where it does not exist yet.

What stands outside is data of the calls: the clock, and what `fopen` and
`access` return. `localtime_r` and the pool's id are parameters. Streams are
numbered as they are opened, so that a stream that was closed is told from any
other.
-/
namespace SimpleSvr.L5

/-- The fields of a `tm` that a name is made of. -/
structure Tm where
  tm_year : Nat
  tm_mon : Nat
  tm_mday : Nat
  tm_hour : Nat
  deriving DecidableEq

structure Host where
  localtime_r : Nat → Tm
  /-- `Pool::Instance().GetID()` -/
  id : UInt32

namespace SimpleLog

/-- `%u` -/
def digits (n : Nat) : Bytes := (Nat.toDigits 10 n).map fun c => UInt8.ofNat c.toNat

/-- `%0wd` -/
def pad (w n : Nat) : Bytes := List.replicate (w - (digits n).length) 48 ++ digits n

/-- `%04d%02d%02d%02d` -/
def stamp (now_tm : Tm) : Bytes :=
  pad 4 (now_tm.tm_year + 1900) ++ pad 2 (now_tm.tm_mon + 1) ++ pad 2 now_tm.tm_mday ++ pad 2 now_tm.tm_hour

/-- `%s/log%04d%02d%02d%02d.log%u` -/
def fileName (host : Host) (m_Path : Bytes) (now_tm : Tm) : Bytes :=
  m_Path ++ [47, 108, 111, 103] ++ stamp now_tm ++ [46, 108, 111, 103] ++ digits host.id.toNat

/-- The name for `now`, in a buffer of 259.
mirrors src/Log.cc:82-95, 144-157 -/
def logName (host : Host) (m_Path : Bytes) (now : Nat) : Bytes :=
  (fileName host m_Path (host.localtime_r (now / 3600 * 3600))).take 258

end SimpleLog

/-- mirrors include/Log.hpp:73-75 -/
structure SimpleLog where
  /-- a stream, or NULL -/
  m_File : Option Nat
  m_Path : Bytes
  /-- the flush timers of this object that are set -/
  pending : Nat
  /-- the names in the directory -/
  files : List Bytes
  /-- ghost: what each stream was opened as -/
  streams : List Bytes
  /-- ghost: every `fclose`, the last one first -/
  closed : List Nat
  /-- ghost: a closed stream, or the object after its destruction, was used -/
  misused : Bool
  /-- ghost: `Close` was called after the last `Initialize` -/
  shut : Bool
  /-- ghost: destroyed -/
  gone : Bool
  /-- ghost: every message, by its file and time -/
  appended : List (Bytes × Nat)

namespace SimpleLog

/-- mirrors src/Log.cc:66-69 -/
def new (files : List Bytes) : SimpleLog :=
  { m_File := none, m_Path := [], pending := 0, files, streams := [], closed := [], misused := false, shut := false,
    gone := false, appended := [] }

/-- `m_File = fopen(name, "a")` -/
def fopen (log : SimpleLog) (name : Bytes) (opened : Bool) : SimpleLog :=
  if opened then
    { log with
      m_File := some log.streams.length
      streams := log.streams ++ [name]
      files := if name ∈ log.files then log.files else name :: log.files }
  else { log with m_File := none }

/-- `m_File` is passed to a function of the library. NULL is no stream: `fflush(NULL)` flushes all there are. -/
def use (log : SimpleLog) : SimpleLog :=
  match log.m_File with
  | none => log
  | some f => { log with misused := log.misused || log.closed.contains f }

/-- `fclose(m_File)`; the pointer stays. -/
def fclose (log : SimpleLog) : SimpleLog :=
  match log.m_File with
  | none => log
  | some f => { log with closed := f :: log.closed }

/-- The timer calls `Flush` once.
mirrors src/Log.cc:113-118 -/
def Flush (log : SimpleLog) : SimpleLog := { log.use with pending := log.pending + 1 }

/-- mirrors src/Log.cc:76-102 -/
def Initialize (host : Host) (log : SimpleLog) (path : Bytes) (now : Nat) (opened : Bool) : SimpleLog :=
  let m_Path := if path = [] then [46] else path
  let log := { log with m_Path, shut := false }.fopen (logName host m_Path now) opened
  if opened then { log with pending := log.pending + 1 } else log

/-- mirrors src/Log.cc:104-111 -/
def Close (log : SimpleLog) : SimpleLog :=
  let log := { log with shut := true }
  match log.m_File with
  | none => log
  | some _ => log.Flush.fclose

/-- `access` succeeds for a file that is there, unless it is denied.
mirrors src/Log.cc:142-164 -/
def ShiftLog (host : Host) (log : SimpleLog) (now : Nat) (denied opened : Bool) : SimpleLog :=
  let name := logName host log.m_Path now
  if name ∈ log.files ∧ ¬denied then log else log.fclose.fopen name opened

/-- `tv` is the time of the message, `now` that of `ShiftLog`.
mirrors src/Log.cc:120-140 -/
def Write (host : Host) (log : SimpleLog) (tv now : Nat) (denied opened : Bool) : SimpleLog :=
  match log.m_File with
  | none => log
  | some f =>
    { log.use with appended := log.appended ++ [((log.streams[f]?).getD [], tv)] }.ShiftLog host now denied opened

/-- A timer runs out: `Flush`, on the object or on what was left of it. -/
def expire (log : SimpleLog) : SimpleLog :=
  { log with pending := log.pending - 1, misused := log.misused || log.gone }.Flush

/-- mirrors src/Log.cc:71-74 -/
def destroy (log : SimpleLog) : SimpleLog := { log.Close with gone := true }

end SimpleLog
end SimpleSvr.L5
