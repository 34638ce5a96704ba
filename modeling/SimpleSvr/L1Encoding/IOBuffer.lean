import SimpleSvr.Core.Bytes

/-!
# Byte buffers (`IOBuffer.hpp`)

An `IOBuffer` reads and writes through two cursors over memory it may not own.
`buffer` is the memory that is really there (`none` is a NULL pointer);
`bufferSize` and `availableReadSize` are what the buffer was told. Cursor
arithmetic is `size_t` (it wraps at 2^64). `fault` is an access outside the
memory; the other two errors are the `OverflowIOException`s of `>>` and `<<`.

`>>` and `<<` on integers swap to network order, so on the wire an integer is
its big-endian encoding: the family is `get n` / `put n`, and each member is
that at its own width.
-/
namespace SimpleSvr.L1

inductive IOError where
  | noSpaceToRead
  | noSpaceToWrite
  | fault
  deriving DecidableEq, Repr

/-- mirrors include/IOBuffer.hpp:121-125 -/
structure IOBuffer where
  buffer : Option Bytes
  bufferSize : UInt64
  readPosition : UInt64 := 0
  availableReadSize : UInt64 := 0
  writePosition : UInt64 := 0
  deriving DecidableEq, Repr

namespace IOBuffer

/-- The constructor over memory that the buffer does not own.
mirrors src/IOBuffer.cc:65-83 -/
def new (buffer : Bytes) (size availableReadSize : UInt64) : IOBuffer :=
  { buffer := some buffer, bufferSize := size, availableReadSize }

/-! ## Memory -/

/-- Read `n` bytes of memory at `pos`. -/
def load (io : IOBuffer) (pos n : Nat) : Except IOError Bytes :=
  match io.buffer with
  | none => .error .fault
  | some m => if pos + n ≤ m.length then .ok ((m.drop pos).take n) else .error .fault

/-- Overwrite memory at `pos`. -/
def store (io : IOBuffer) (pos : Nat) (bytes : Bytes) : Except IOError IOBuffer :=
  match io.buffer with
  | none => .error .fault
  | some m =>
    if pos + bytes.length ≤ m.length then
      .ok { io with buffer := some (m.take pos ++ bytes ++ m.drop (pos + bytes.length)) }
    else .error .fault

/-! ## Raw transfers and seeks -/

/-- mirrors src/IOBuffer.cc:93-101; the returned count is the second component. -/
def write (io : IOBuffer) (bytes : Bytes) (size : UInt64) : Except IOError (IOBuffer × UInt64) :=
  if io.writePosition + size > io.bufferSize then .ok (io, 0)
  else do
    let io ← io.store io.writePosition.toNat (bytes.take size.toNat)
    .ok ({ io with writePosition := io.writePosition + size }, size)

/-- mirrors src/IOBuffer.cc:112-120; `none`: nothing was copied. -/
def read (io : IOBuffer) (size : UInt64) : Except IOError (IOBuffer × Option Bytes) :=
  if io.readPosition + size > io.availableReadSize then .ok (io, none)
  else do
    let bytes ← io.load io.readPosition.toNat size.toNat
    .ok ({ io with readPosition := io.readPosition + size }, some bytes)

/-- mirrors include/IOBuffer.hpp:106-111 -/
def readSeek (io : IOBuffer) (offset : UInt64) : IOBuffer :=
  let r := io.readPosition + offset
  { io with readPosition := if r > io.availableReadSize then io.availableReadSize else r }

/-! ## Typed transfers -/

/-- `>>` for an `n`-byte integer.
mirrors src/IOBuffer.cc:195-279 -/
def get (n : Nat) (io : IOBuffer) : Except IOError (IOBuffer × Nat) :=
  if io.buffer = none ∨ io.readPosition + UInt64.ofNat n > io.availableReadSize then
    .error .noSpaceToRead
  else do
    let bytes ← io.load io.readPosition.toNat n
    .ok ({ io with readPosition := io.readPosition + UInt64.ofNat n }, ofBe bytes)

/-- `<<` for an `n`-byte integer.
mirrors src/IOBuffer.cc:298-382 -/
def put (n : Nat) (io : IOBuffer) (v : Nat) : Except IOError IOBuffer :=
  if io.writePosition + UInt64.ofNat n > io.bufferSize then .error .noSpaceToWrite
  else do
    let io ← io.store io.writePosition.toNat (be n v)
    .ok { io with writePosition := io.writePosition + UInt64.ofNat n }

/-- mirrors src/IOBuffer.cc:205-213 -/
def getUInt8 (io : IOBuffer) : Except IOError (IOBuffer × UInt8) :=
  (io.get 1).map fun p => (p.1, UInt8.ofNat p.2)

/-- mirrors src/IOBuffer.cc:226-235 -/
def getUInt16 (io : IOBuffer) : Except IOError (IOBuffer × UInt16) :=
  (io.get 2).map fun p => (p.1, UInt16.ofNat p.2)

/-- mirrors src/IOBuffer.cc:248-257 -/
def getUInt32 (io : IOBuffer) : Except IOError (IOBuffer × UInt32) :=
  (io.get 4).map fun p => (p.1, UInt32.ofNat p.2)

/-- mirrors src/IOBuffer.cc:308-316 -/
def putUInt8 (io : IOBuffer) (v : UInt8) : Except IOError IOBuffer := io.put 1 v.toNat

/-- mirrors src/IOBuffer.cc:329-338 -/
def putUInt16 (io : IOBuffer) (v : UInt16) : Except IOError IOBuffer := io.put 2 v.toNat

/-- mirrors src/IOBuffer.cc:351-360 -/
def putUInt32 (io : IOBuffer) (v : UInt32) : Except IOError IOBuffer := io.put 4 v.toNat

/-! ## Buffers over known memory -/

/-- A buffer told the size of its memory, with `pre` written so far. -/
def writing (pre rest : Bytes) : IOBuffer where
  buffer := some (pre ++ rest)
  bufferSize := UInt64.ofNat (pre.length + rest.length)
  writePosition := UInt64.ofNat pre.length

/-- A buffer that may be read up to the end of `rest`, with `pre` read so far;
the memory goes on with `extra`. -/
def reading (pre rest extra : Bytes) : IOBuffer where
  buffer := some (pre ++ rest ++ extra)
  bufferSize := UInt64.ofNat (pre.length + rest.length)
  readPosition := UInt64.ofNat pre.length
  availableReadSize := UInt64.ofNat (pre.length + rest.length)

variable {pre rest extra bytes : Bytes} {n v : Nat}

theorem new_writing (rest : Bytes) : new rest (UInt64.ofNat rest.length) 0 = writing [] rest := by
  simp [new, writing]

theorem new_reading (rest extra : Bytes) :
    new (rest ++ extra) (UInt64.ofNat rest.length) (UInt64.ofNat rest.length) = reading [] rest extra := by
  simp [new, reading]

theorem ofNat_not_gt {x y : Nat} (h : x ≤ y) (hy : y < 2 ^ 64) :
    ¬UInt64.ofNat x > UInt64.ofNat y := by
  rw [gt_iff_lt, UInt64.lt_iff_toNat_lt, UInt64.toNat_ofNat', UInt64.toNat_ofNat',
    Nat.mod_eq_of_lt hy, Nat.mod_eq_of_lt (Nat.lt_of_le_of_lt h hy)]
  exact Nat.not_lt.mpr h

theorem toNat_ofNat_lt {x : Nat} (h : x < 2 ^ 64) : (UInt64.ofNat x).toNat = x := by
  rw [UInt64.toNat_ofNat', Nat.mod_eq_of_lt h]

theorem store_writing (hn : bytes.length ≤ rest.length) :
    (writing pre rest).store pre.length bytes =
      .ok { writing pre rest with buffer := some (pre ++ bytes ++ rest.drop bytes.length) } := by
  have hlen : pre.length + bytes.length ≤ (pre ++ rest).length := by simp; omega
  simp only [store, writing, if_pos hlen, List.take_left', List.drop_append, List.drop_eq_nil_of_le
    (Nat.le_add_right pre.length bytes.length), List.nil_append, Nat.add_sub_cancel_left]

/-- After `bytes` more, the buffer is the same with a longer `pre`. -/
theorem writing_advance (hn : bytes.length ≤ rest.length) :
    ({ writing pre rest with
        buffer := some (pre ++ bytes ++ rest.drop bytes.length),
        writePosition := UInt64.ofNat pre.length + UInt64.ofNat bytes.length } : IOBuffer) =
      writing (pre ++ bytes) (rest.drop bytes.length) := by
  have hsize : pre.length + rest.length = pre.length + bytes.length + (rest.length - bytes.length) := by
    omega
  simp only [writing, List.length_append, List.length_drop, UInt64.ofNat_add]
  rw [← UInt64.ofNat_add pre.length rest.length, hsize]
  simp only [UInt64.ofNat_add]

theorem put_writing (hn : n ≤ rest.length) (hs : pre.length + rest.length < 2 ^ 64) :
    (writing pre rest).put n v = .ok (writing (pre ++ be n v) (rest.drop n)) := by
  have hlen : (be n v).length ≤ rest.length := by rw [length_be]; exact hn
  have hstore := @store_writing pre rest (be n v) hlen
  have hadv := @writing_advance pre rest (be n v) hlen
  rw [length_be] at hstore hadv
  have hpos : (writing pre rest).writePosition.toNat = pre.length := toNat_ofNat_lt (by omega)
  have hfit : ¬(writing pre rest).writePosition + UInt64.ofNat n > (writing pre rest).bufferSize := by
    show ¬UInt64.ofNat pre.length + UInt64.ofNat n > _
    rw [← UInt64.ofNat_add]
    exact ofNat_not_gt (by omega) hs
  rw [put, if_neg hfit, hpos, hstore, ← hadv]
  rfl

theorem write_writing (hn : bytes.length ≤ rest.length) (hs : pre.length + rest.length < 2 ^ 64) :
    (writing pre rest).write bytes (UInt64.ofNat bytes.length) =
      .ok (writing (pre ++ bytes) (rest.drop bytes.length), UInt64.ofNat bytes.length) := by
  have hpos : (writing pre rest).writePosition.toNat = pre.length := toNat_ofNat_lt (by omega)
  have hfit : ¬(writing pre rest).writePosition + UInt64.ofNat bytes.length > (writing pre rest).bufferSize := by
    show ¬UInt64.ofNat pre.length + UInt64.ofNat bytes.length > _
    rw [← UInt64.ofNat_add]
    exact ofNat_not_gt (by omega) hs
  rw [write, if_neg hfit, hpos, toNat_ofNat_lt (by omega), List.take_length, store_writing hn,
    ← writing_advance hn]
  rfl

theorem load_reading (pre bytes rest extra : Bytes) :
    (reading pre (bytes ++ rest) extra).load pre.length bytes.length = .ok bytes := by
  have hlen : pre.length + bytes.length ≤ (pre ++ (bytes ++ rest) ++ extra).length := by simp
  simp [load, reading]

theorem reading_advance (pre bytes rest extra : Bytes) :
    ({ reading pre (bytes ++ rest) extra with
        readPosition := UInt64.ofNat pre.length + UInt64.ofNat bytes.length } : IOBuffer) =
      reading (pre ++ bytes) rest extra := by
  simp [reading, UInt64.ofNat_add, List.append_assoc, UInt64.add_assoc]

theorem reading_fits (hs : pre.length + (bytes ++ rest).length < 2 ^ 64) :
    ¬(reading pre (bytes ++ rest) extra).readPosition + UInt64.ofNat bytes.length >
      (reading pre (bytes ++ rest) extra).availableReadSize := by
  show ¬UInt64.ofNat pre.length + UInt64.ofNat bytes.length > _
  rw [← UInt64.ofNat_add]
  exact ofNat_not_gt (by simp) hs

theorem get_reading (hs : pre.length + (bytes ++ rest).length < 2 ^ 64) (hn : bytes.length = n) :
    (reading pre (bytes ++ rest) extra).get n = .ok (reading (pre ++ bytes) rest extra, ofBe bytes) := by
  subst hn
  have hpos : (reading pre (bytes ++ rest) extra).readPosition.toNat = pre.length :=
    toNat_ofNat_lt (by omega)
  have hcond : ¬((reading pre (bytes ++ rest) extra).buffer = none ∨
      (reading pre (bytes ++ rest) extra).readPosition + UInt64.ofNat bytes.length >
        (reading pre (bytes ++ rest) extra).availableReadSize) := by
    rintro (h | h)
    · cases h
    · exact reading_fits hs h
  rw [get, if_neg hcond, hpos, load_reading, ← reading_advance]
  rfl

theorem getUInt8_reading (c : UInt8) (hs : pre.length + 1 + rest.length < 2 ^ 64) :
    (reading pre (c :: rest) extra).getUInt8 = .ok (reading (pre ++ [c]) rest extra, c) := by
  have h := @get_reading pre rest extra [c] 1 (by simp; omega) rfl
  rw [getUInt8, show c :: rest = [c] ++ rest from rfl, h]
  simp [Except.map, ofBe]

theorem getUInt16_reading (v : UInt16) (hs : pre.length + 2 + rest.length < 2 ^ 64) :
    (reading pre (be 2 v.toNat ++ rest) extra).getUInt16 =
      .ok (reading (pre ++ be 2 v.toNat) rest extra, v) := by
  rw [getUInt16, get_reading (by simp; omega) (length_be 2 _), ofBe_be]
  simp [Except.map, Nat.mod_eq_of_lt v.toNat_lt]

theorem getUInt32_reading (v : UInt32) (hs : pre.length + 4 + rest.length < 2 ^ 64) :
    (reading pre (be 4 v.toNat ++ rest) extra).getUInt32 =
      .ok (reading (pre ++ be 4 v.toNat) rest extra, v) := by
  rw [getUInt32, get_reading (by simp; omega) (length_be 4 _), ofBe_be]
  simp [Except.map, Nat.mod_eq_of_lt v.toNat_lt]

theorem readSeek_reading (hs : pre.length + (bytes ++ rest).length < 2 ^ 64) :
    (reading pre (bytes ++ rest) extra).readSeek (UInt64.ofNat bytes.length) =
      reading (pre ++ bytes) rest extra := by
  rw [readSeek, if_neg (reading_fits hs), ← reading_advance]
  rfl

theorem read_reading (hs : pre.length + (bytes ++ rest).length < 2 ^ 64) :
    (reading pre (bytes ++ rest) extra).read (UInt64.ofNat bytes.length) =
      .ok (reading (pre ++ bytes) rest extra, some bytes) := by
  have hpos : (reading pre (bytes ++ rest) extra).readPosition.toNat = pre.length :=
    toNat_ofNat_lt (by omega)
  rw [List.length_append] at hs
  rw [read, if_neg (reading_fits (by simpa using hs)), hpos, toNat_ofNat_lt (by omega), load_reading,
    ← reading_advance]
  rfl

/-- What a successful `>>` says about the cursor. -/
theorem get_ok {io io' : IOBuffer} (h : io.get n = .ok (io', v)) :
    io'.readPosition = io.readPosition + UInt64.ofNat n ∧ io'.availableReadSize = io.availableReadSize ∧
      ¬io.readPosition + UInt64.ofNat n > io.availableReadSize := by
  unfold get at h
  split at h
  · cases h
  · next hc =>
    cases hl : io.load io.readPosition.toNat n with
    | error e => rw [hl] at h; cases h
    | ok bytes =>
      rw [hl] at h
      cases h
      exact ⟨rfl, rfl, fun hgt => hc (.inr hgt)⟩

theorem getUInt8_ok {io io' : IOBuffer} {c : UInt8} (h : io.getUInt8 = .ok (io', c)) :
    io'.readPosition = io.readPosition + 1 ∧ io'.availableReadSize = io.availableReadSize ∧
      ¬io.readPosition + 1 > io.availableReadSize := by
  unfold getUInt8 at h
  cases hg : io.get 1 with
  | error e => rw [hg] at h; cases h
  | ok r =>
    rw [hg] at h
    cases h
    exact get_ok hg

theorem getUInt32_ok {io io' : IOBuffer} {x : UInt32} (h : io.getUInt32 = .ok (io', x)) :
    io'.readPosition = io.readPosition + 4 ∧ io'.availableReadSize = io.availableReadSize := by
  unfold getUInt32 at h
  cases hg : io.get 4 with
  | error e => rw [hg] at h; cases h
  | ok r =>
    rw [hg] at h
    cases h
    exact ⟨(get_ok hg).1, (get_ok hg).2.1⟩

end IOBuffer
end SimpleSvr.L1
