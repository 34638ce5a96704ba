import SimpleSvr.Core.File
import SimpleSvr.L1Encoding.IOBuffer
import Mathlib.Algebra.Ring.Int.Defs

/-!
# The binary log (`Binlog.hpp`)

A log file is a 4096-byte head followed by blocks of `dwBlockSize` bytes. A
block starts with an 8-byte block head; a record is
`SMAGIC + dwDataLen + cData + EMAGIC` and never crosses a block: `Write` pads
the current block and starts the next one when a record does not fit. `Next`
reads block by block through a cache and skips to the next block where the
bytes make no sense.

The file and the descriptors are a `Sys`. Every system call is given its
outcome (`WriteCalls`, `ReadCalls`, ...), so a result about all outcomes is a result
about a failing system too; `Next` makes at most one `fstat` and one `pread` in
each turn of its loop. `uint32_t` arithmetic is `u32` of the arithmetic on
`Nat`; `int dwRealSize` is an `Int` brought back into range by `toInt32`.
`none` is a crash: a division by zero in `Write`, an access outside the block
cache in `Next`.

Not modelled: `Release`, `GetFileInfo`, the NULL iterator (`Next` returns -1
for it at once), and running out of memory in `GetIterator`.
-/
namespace SimpleSvr.L3
open L1

/-! ## Constants and heads -/

def smagic : UInt8 := 0x03
def emagic : UInt8 := 0x0a
def blockheadMagic : UInt8 := 0xEF
def headVersion : UInt16 := 0x0101
def headSize : Nat := 4096
def blockheadSize : Nat := 8

/-- `"#BINLOG#"` -/
def headMagic : Bytes := [0x23, 0x42, 0x49, 0x4E, 0x4C, 0x4F, 0x47, 0x23]

/-- mirrors include/Binlog.hpp:35-39 -/
structure BinlogBlockHead where
  cMagic : UInt8
  dwCreateTime : UInt32
  deriving DecidableEq, Repr

/-- mirrors include/Binlog.hpp:41-48 -/
structure BinlogHead where
  cMagic : Bytes
  wVersion : UInt16
  wDataOffset : UInt16
  dwBlockSize : UInt32
  dwCreateTime : UInt32
  deriving DecidableEq, Repr

/-- mirrors src/Binlog.cc:28-34; `stHead` is what the fields held before. -/
def getHead (io : IOBuffer) (stHead : BinlogHead) : Except IOError BinlogHead := do
  let (io, cMagic) ← io.read 8
  let (io, wVersion) ← io.getUInt16
  let (io, wDataOffset) ← io.getUInt16
  let (io, dwBlockSize) ← io.getUInt32
  let (_, dwCreateTime) ← io.getUInt32
  return { cMagic := cMagic.getD stHead.cMagic, wVersion, wDataOffset, dwBlockSize, dwCreateTime }

/-- mirrors src/Binlog.cc:36-42 -/
def putHead (io : IOBuffer) (stHead : BinlogHead) : Except IOError IOBuffer := do
  let (io, _) ← io.write stHead.cMagic 8
  let io ← io.putUInt16 stHead.wVersion
  let io ← io.putUInt16 stHead.wDataOffset
  let io ← io.putUInt32 stHead.dwBlockSize
  io.putUInt32 stHead.dwCreateTime

/-- mirrors src/Binlog.cc:44-48 -/
def getBlockHead (io : IOBuffer) : Except IOError BinlogBlockHead := do
  let (io, cMagic) ← io.getUInt8
  let (_, dwCreateTime) ← io.getUInt32
  return { cMagic, dwCreateTime }

/-- mirrors src/Binlog.cc:50-54 -/
def putBlockHead (io : IOBuffer) (stBlockHead : BinlogBlockHead) : Except IOError IOBuffer := do
  let io ← io.putUInt8 stBlockHead.cMagic
  io.putUInt32 stBlockHead.dwCreateTime

/-- `ioLogBuf >> cMagicS >> dwLogSize`
mirrors src/Binlog.cc:378 -/
def getLogHead (io : IOBuffer) : Except IOError (IOBuffer × UInt32) := do
  let (io, _) ← io.getUInt8
  io.getUInt32

/-- A zeroed local array of `n` bytes. -/
def zeroed (n : Nat) : IOBuffer := IOBuffer.new (List.replicate n 0) (UInt64.ofNat n) 0

/-- The bytes of a local array after it was filled through `io`. -/
def arrayOf (r : Except IOError IOBuffer) (n : Nat) : Bytes :=
  match r with
  | .ok io => io.buffer.getD []
  | .error _ => List.replicate n 0

/-- `cFileHeadBuf` -/
def fileHeadBuf (stHead : BinlogHead) : Bytes := arrayOf (putHead (zeroed headSize) stHead) headSize

/-- `cBlockHeadBuf` -/
def blockHeadBuf (time : UInt32) : Bytes :=
  arrayOf (putBlockHead (zeroed blockheadSize) { cMagic := blockheadMagic, dwCreateTime := time })
    blockheadSize

/-! ## Machine integers -/

/-- Conversion to `uint32_t`. -/
def u32 (x : Nat) : Nat := x % 2 ^ 32

/-- Conversion to `int`. -/
def toInt32 (x : Nat) : Int := if x % 2 ^ 32 < 2 ^ 31 then x % 2 ^ 32 else x % 2 ^ 32 - 2 ^ 32

/-- `(uint32_t)` of an `int`. -/
def ofInt32 (i : Int) : Nat := (i % 2 ^ 32).toNat

/-! ## Opening, creating, closing -/

/-- `fdBinlog` is -1 until a log is opened.
mirrors include/Binlog.hpp:128-129 -/
structure Binlog where
  fdBinlog : Int
  stHead : BinlogHead

/-- Outcomes of `open` (the new descriptor, `none` for an error) and `pread`, and
the bytes a short `pread` leaves in the local array. -/
structure OpenCalls where
  newFd : Option Int
  pread : Outcome
  stale : Nat → UInt8

structure CreateCalls where
  newFd : Option Int
  ftruncate : Bool
  time : UInt32
  write : Outcome

structure WriteCalls where
  fstat : Bool
  lseek : Bool
  writev : Outcome
  time : UInt32

/-- The `fstat` and the `pread` of one turn of `Next`'s loop. -/
structure ReadCalls where
  fstat : Bool
  pread : Outcome

/-- `cBlockBuffer` is the cache's memory, `cLogBuffer` an index into it.
mirrors include/Binlog.hpp:56-89 -/
structure BinlogIterator where
  dwBlockIndex : Nat
  dwOffset : Nat
  dwBlockSize : Nat
  cBlockBuffer : Bytes
  dwRealSize : Int
  stBlockHead : BinlogBlockHead
  cLogBuffer : Nat
  dwLogSize : Nat
  dwLogOffset : Nat
  deriving DecidableEq, Repr

/-- `GetBuffer` and `GetSize`. -/
def BinlogIterator.payload (it : BinlogIterator) : Bytes :=
  (it.cBlockBuffer.drop it.cLogBuffer).take it.dwLogSize

inductive Result where
  | ret (it : BinlogIterator) (v : Int)
  | throws (it : BinlogIterator)
  | fault
  deriving DecidableEq, Repr

inductive Turn where
  | again (it : BinlogIterator)
  | done (r : Result)
  deriving DecidableEq, Repr

namespace Binlog

/-- mirrors src/Binlog.cc:61-87 -/
def openLog (b : Binlog) (sys : Sys) (io : OpenCalls) : Binlog × Sys × Int :=
  let sys := if b.fdBinlog = -1 then sys else sys.close b.fdBinlog
  let (sys, fd) := sys.openFile io.newFd true
  let b := { b with fdBinlog := fd }
  if fd = -1 then (b, sys, -1)
  else
    match sys.pread fd io.pread headSize 0 with
    | none => (b, sys.close fd, -1)
    | some got =>
      let buffer := got ++ ((List.range headSize).drop got.length).map io.stale
      match getHead (IOBuffer.new buffer (UInt64.ofNat headSize) (UInt64.ofNat headSize)) b.stHead with
      | .error _ => (b, sys, -1)    -- not reached: the array holds the whole head
      | .ok stHead =>
        let b := { b with stHead }
        if stHead.cMagic ≠ headMagic ∨ stHead.wVersion ≠ headVersion then (b, sys.close fd, -1)
        else (b, sys, 0)

/-- mirrors src/Binlog.cc:89-117 -/
def createLog (b : Binlog) (sys : Sys) (io : CreateCalls) (dwBlockSize : UInt32) : Binlog × Sys × Int :=
  let sys := if b.fdBinlog = -1 then sys else sys.close b.fdBinlog
  let (sys, fd) := sys.openFile io.newFd false
  let b := { b with fdBinlog := fd }
  if fd = -1 then (b, sys, -1)
  else
    let sys := sys.truncate fd io.ftruncate
    let stHead : BinlogHead :=
      { cMagic := headMagic, wVersion := headVersion, wDataOffset := UInt16.ofNat headSize, dwBlockSize,
        dwCreateTime := io.time }
    let (sys, r) := sys.write fd io.write (fileHeadBuf stHead)
    ({ b with stHead }, sys, if r = none then -1 else 0)

/-- mirrors src/Binlog.cc:119-122 -/
def close (b : Binlog) (sys : Sys) : Sys := sys.close b.fdBinlog

/-! ## Write -/

/-- mirrors include/Binlog.hpp:122-126 -/
def getLogSize (size : Nat) : Nat := (1 + 4 + size + 1) % 2 ^ 64

/-- `dwRemainSize`: what is left of the current block (`%` takes the sign of
`st_size - wDataOffset`). -/
def remainSize (stHead : BinlogHead) (stSize : Nat) : Nat :=
  (((stHead.dwBlockSize.toNat : Int) -
    ((stSize : Int) - stHead.wDataOffset.toNat).tmod stHead.dwBlockSize.toNat) % 2 ^ 32).toNat

/-- What `writev` is given for the record itself. -/
def record (buffer : Bytes) : Bytes :=
  [smagic] ++ be 4 (buffer.length % 2 ^ 32) ++ buffer ++ [emagic]

/-- `writev`, and what `Write` returns after it.
mirrors src/Binlog.cc:215-218 -/
def writevAt (b : Binlog) (sys : Sys) (io : WriteCalls) (bytes : Bytes) (offset : Nat) : Sys × Int :=
  match sys.write b.fdBinlog io.writev bytes with
  | (sys, none) => (sys, -1)
  | (sys, some _) => (sys, offset)

/-- The offset on success, -1 on failure.
mirrors src/Binlog.cc:135-219 -/
def write (b : Binlog) (sys : Sys) (io : WriteCalls) (buffer : Bytes) : Option (Sys × Int) :=
  if b.fdBinlog = -1 then some (sys, -1)
  else
    let dwBlockSize := b.stHead.dwBlockSize.toNat
    let dwRealSize := u32 (getLogSize buffer.length)
    if dwRealSize > dwBlockSize then some (sys, -1)
    else
      match sys.size b.fdBinlog io.fstat with
      | none => some (sys, -1)
      | some stSize =>
        if dwBlockSize = 0 then none    -- SIGFPE
        else
          let dwRemainSize := remainSize b.stHead stSize
          if dwRemainSize = dwBlockSize then
            some (writevAt b sys io (blockHeadBuf io.time ++ record buffer) (stSize + blockheadSize))
          else if dwRemainSize < dwRealSize then
            match sys.seekCur b.fdBinlog io.lseek dwRemainSize with
            | none => some (sys, -1)
            | some sys =>
              some (writevAt b sys io (blockHeadBuf io.time ++ record buffer)
                (stSize + u32 (dwRemainSize + blockheadSize)))
          else some (writevAt b sys io (record buffer) stSize)

/-! ## Iterators -/

/-- `malloc` returns `mem`.
mirrors src/Binlog.cc:221-230,250-258 -/
def getIterator (b : Binlog) (mem : Nat → UInt8) : BinlogIterator where
  dwBlockIndex := 0
  dwOffset := 0
  dwBlockSize := b.stHead.dwBlockSize.toNat
  cBlockBuffer := (List.range b.stHead.dwBlockSize.toNat).map mem
  dwRealSize := 0
  stBlockHead := { cMagic := 0, dwCreateTime := 0 }
  cLogBuffer := 0
  dwLogSize := 0
  dwLogOffset := 0

/-- `wDataOffset + dwBlockSize * dwBlockIndex`, in `uint32_t`. -/
def blockOffset (b : Binlog) (idx : Nat) : Nat :=
  u32 (b.stHead.wDataOffset.toNat + b.stHead.dwBlockSize.toNat * idx)

/-- `pIter->dwOffset = m_stHead.dwBlockSize;` -/
def skipBlock (b : Binlog) (it : BinlogIterator) : BinlogIterator :=
  { it with dwOffset := b.stHead.dwBlockSize.toNat }

/-- The `pread` into the block cache with the checks behind it. `done` is what
follows when at least a block head was read. -/
def preadBlock (b : Binlog) (sys : Sys) (io : ReadCalls) (it : BinlogIterator)
    (done : BinlogIterator → Turn) : Turn :=
  match sys.pread b.fdBinlog io.pread b.stHead.dwBlockSize.toNat (blockOffset b it.dwBlockIndex) with
  | none => .done (.ret { it with dwRealSize := -1 } (-1))
  | some got =>
    if it.cBlockBuffer.length < got.length then .done .fault
    else
      let it := { it with
        cBlockBuffer := got ++ it.cBlockBuffer.drop got.length, dwRealSize := toInt32 got.length }
      if it.dwRealSize = -1 then .done (.ret it (-1))
      else if it.dwRealSize = 0 then .done (.ret it 0)
      else if it.dwRealSize < blockheadSize then .done (.ret it (-1))
      else done it

/-- An exception that leaves `Next`, or an access outside the cache. -/
def escape (it : BinlogIterator) : IOError → Turn
  | .fault => .done .fault
  | _ => .done (.throws it)

/-- The block head check: an unknown head skips the block. -/
def checkBlockHead (b : Binlog) (it : BinlogIterator) (done : BinlogIterator → Turn) : Turn :=
  let real := UInt64.ofInt it.dwRealSize
  match getBlockHead (IOBuffer.new it.cBlockBuffer real real) with
  | .error e => escape it e
  | .ok stBlockHead =>
    let it := { it with stBlockHead }
    if stBlockHead.cMagic ≠ blockheadMagic then .again (skipBlock b it) else done it

/-- The body of the inner loop.
mirrors src/Binlog.cc:282-354 -/
def refill (b : Binlog) (sys : Sys) (io : ReadCalls) (it : BinlogIterator) : Turn :=
  let dwBlockSize := b.stHead.dwBlockSize.toNat
  if it.dwOffset ≥ dwBlockSize then
    -- read next block
    preadBlock b sys io { it with dwBlockIndex := u32 (it.dwBlockIndex + 1) } fun it =>
      checkBlockHead b it fun it => .again { it with dwOffset := blockheadSize }
  else if it.dwRealSize > 0 ∧ ofInt32 it.dwRealSize < dwBlockSize then
    -- block cache is not full, reload block cache
    match sys.size b.fdBinlog io.fstat with
    | none => .done (.ret it (-1))
    | some stSize =>
      if u32 (blockOffset b it.dwBlockIndex + it.dwOffset) ≥ stSize then .done (.ret it 0)
      else preadBlock b sys io it .again
  else
    -- load block cache
    preadBlock b sys io it fun it =>
      checkBlockHead b it fun it =>
        .again { it with dwOffset := if it.dwOffset < blockheadSize then blockheadSize else it.dwOffset }

/-- `dwLogBuffSize`: what was loaded behind `dwOffset`, in `uint32_t`. -/
def logBuffSize (it : BinlogIterator) : Nat := u32 (ofInt32 it.dwRealSize + 2 ^ 32 - it.dwOffset)

/-- `ioLogBuf` -/
def logBuf (it : BinlogIterator) : IOBuffer :=
  IOBuffer.new (it.cBlockBuffer.drop it.dwOffset) (UInt64.ofNat (logBuffSize it)) (UInt64.ofNat (logBuffSize it))

/-- `GetBuffer`, `GetSize` and `GetOffset` from now on.
mirrors src/Binlog.cc:387-389 -/
def setLog (b : Binlog) (it : BinlogIterator) (ioLogBuf : IOBuffer) (dwLogSize : UInt32) : BinlogIterator :=
  { it with
    dwLogSize := dwLogSize.toNat
    cLogBuffer := it.dwOffset + ioLogBuf.readPosition.toNat
    dwLogOffset := u32 (blockOffset b it.dwBlockIndex + it.dwOffset) }

/-- The end of a record of `dwLogSize` bytes.
mirrors src/Binlog.cc:391-401,404 -/
def takeLog (b : Binlog) (it : BinlogIterator) (ioLogBuf : IOBuffer) (dwLogSize : UInt32) : Turn :=
  match (ioLogBuf.readSeek (UInt64.ofNat dwLogSize.toNat)).getUInt8 with
  | .error e => escape it e
  | .ok (_, cMagicE) =>
    if cMagicE ≠ emagic then .again (skipBlock b it)
    else
      .done (.ret { it with dwOffset := u32 (it.dwOffset + u32 (6 + dwLogSize.toNat)) }
        (toInt32 (u32 (it.dwLogSize + 6))))

/-- The record at `dwOffset`, which lies inside what was loaded.
mirrors src/Binlog.cc:357-389 -/
def parseLog (b : Binlog) (it : BinlogIterator) : Turn :=
  match it.cBlockBuffer[it.dwOffset]? with
  | none => .done .fault
  | some c =>
    if c ≠ smagic then .again (skipBlock b it)
    else if logBuffSize it < 6 then .again (skipBlock b it)
    else
      match getLogHead (logBuf it) with
      | .error e => escape it e
      | .ok (ioLogBuf, dwLogSize) =>
        if logBuffSize it < u32 (6 + dwLogSize.toNat) then .again (skipBlock b it)
        else takeLog b (setLog b it ioLogBuf dwLogSize) ioLogBuf dwLogSize

/-- One turn: of the inner loop while the cache is used up, else of the outer
one. -/
def turn (b : Binlog) (sys : Sys) (io : ReadCalls) (it : BinlogIterator) : Turn :=
  if it.dwOffset ≥ ofInt32 it.dwRealSize then refill b sys io it else parseLog b it

/-- At most `n` turns; `io k` is what the system calls of turn `k` do. -/
def turns (b : Binlog) (sys : Sys) (io : Nat → ReadCalls) : Nat → BinlogIterator → Option Result
  | 0, _ => none
  | n + 1, it =>
    match turn b sys (io 0) it with
    | .again it => turns b sys (fun k => io (k + 1)) n it
    | .done r => some r

/-- `Next`, cut off after `n` turns.
mirrors src/Binlog.cc:273-405 -/
def next (b : Binlog) (sys : Sys) (io : Nat → ReadCalls) (n : Nat) (it : BinlogIterator) : Option Result :=
  if it.dwBlockSize < b.stHead.dwBlockSize.toNat then some (.ret it (-1)) else turns b sys io n it

end Binlog
end SimpleSvr.L3
