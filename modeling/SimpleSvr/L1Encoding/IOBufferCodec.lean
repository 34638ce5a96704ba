import SimpleSvr.L1Encoding.IOBuffer

/-!
# The typed operators of `IOBuffer`

`>>` and `<<` for the nine types the source overloads. A `Val` is a variable of
one of them, with its value. `extract` and `insert` keep the state that a throw
leaves behind: the buffer, and for `>>` the variable.

`encode` is the wire format, `Ty.need` the size that a wire format announces for
itself. Over known memory both operators are these two functions
(`insert_writing`, `extract_reading`), and what follows about sequences is by
induction on the sequence.
-/
namespace SimpleSvr

namespace L1

/-! ## Byte order -/

/-- `htonl` and `ntohl`: the bytes of the word in the other order. -/
def htonl (x : UInt32) : UInt32 := UInt32.ofNat (ofHost (be 4 x.toNat))

/-- `htonll` and `ntohll` have one body.
mirrors include/IOBuffer.hpp:18-26 -/
def htonll (val : UInt64) : UInt64 :=
  (htonl (0xFFFFFFFF &&& val).toUInt32).toUInt64 <<< 32 |||
    (htonl ((0xFFFFFFFF00000000 &&& val) >>> 32).toUInt32).toUInt64

theorem be_htonl (x : UInt32) : be 4 (htonl x).toNat = (be 4 x.toNat).reverse := by
  have hlt : ofHost (be 4 x.toNat) < 2 ^ 32 := by
    have := ofBe_lt (be 4 x.toNat).reverse
    rwa [List.length_reverse, length_be] at this
  rw [htonl, UInt32.toNat_ofNat', Nat.mod_eq_of_lt hlt]
  have h := be_ofBe (be 4 x.toNat).reverse
  rwa [List.length_reverse, length_be] at h

/-- The two halves of a word, swapped and exchanged. -/
theorem toNat_htonll (val : UInt64) :
    (htonll val).toNat = (htonl val.toUInt32).toNat * 2 ^ 32 + (htonl (val >>> 32).toUInt32).toNat := by
  have hlo : (0xFFFFFFFF &&& val).toUInt32 = val.toUInt32 := by
    apply UInt32.toNat_inj.mp
    rw [UInt64.toNat_toUInt32, UInt64.toNat_and, UInt64.toNat_toUInt32, Nat.and_comm]
    have hm : (0xFFFFFFFF : UInt64).toNat = 2 ^ 32 - 1 := rfl
    rw [hm, Nat.and_two_pow_sub_one_eq_mod, Nat.mod_mod]
  have hhi : ((0xFFFFFFFF00000000 &&& val) >>> 32).toUInt32 = (val >>> 32).toUInt32 := by
    have hs : (0xFFFFFFFF00000000 &&& val) >>> 32 = val >>> 32 := by
      rw [UInt64.shiftRight_and]
      apply UInt64.toNat_inj.mp
      have hm : ((0xFFFFFFFF00000000 : UInt64) >>> 32).toNat = 2 ^ 32 - 1 := by decide
      rw [UInt64.toNat_and, hm, Nat.and_comm, Nat.and_two_pow_sub_one_eq_mod]
      have hv := val.toNat_lt
      have : (val >>> 32).toNat = val.toNat / 2 ^ 32 := by
        rw [UInt64.toNat_shiftRight, Nat.shiftRight_eq_div_pow]
        rfl
      rw [this]
      omega
    rw [hs]
  have ha := (htonl val.toUInt32).toNat_lt
  have hb := (htonl (val >>> 32).toUInt32).toNat_lt
  rw [htonll, hlo, hhi, UInt64.toNat_or, UInt64.toNat_shiftLeft, UInt32.toNat_toUInt64, UInt32.toNat_toUInt64]
  have h32 : (32 : UInt64).toNat % 64 = 32 := rfl
  rw [h32, Nat.shiftLeft_eq, Nat.mod_eq_of_lt (by omega), Nat.mul_comm, ← Nat.two_pow_add_eq_or_of_lt hb]

/-- Stored in host order, a swapped word is the word in network order. -/
theorem host_htonll (val : UInt64) : host 8 (htonll val).toNat = be 8 val.toNat := by
  have hb := (htonl (val >>> 32).toUInt32).toNat_lt
  have hdiv : ((htonl val.toUInt32).toNat * 2 ^ 32 + (htonl (val >>> 32).toUInt32).toNat) / 256 ^ 4 =
      (htonl val.toUInt32).toNat := by omega
  have hmod : be 4 ((htonl val.toUInt32).toNat * 2 ^ 32 + (htonl (val >>> 32).toUInt32).toNat) =
      be 4 (htonl (val >>> 32).toUInt32).toNat := by
    rw [← be_mod, ← be_mod 4 (htonl _).toNat]
    congr 1
    omega
  have hhi : (val >>> 32).toUInt32.toNat = val.toNat / 256 ^ 4 := by
    have hv := val.toNat_lt
    rw [UInt64.toNat_toUInt32, UInt64.toNat_shiftRight, Nat.shiftRight_eq_div_pow]
    show val.toNat / 2 ^ 32 % 2 ^ 32 = _
    omega
  have hlo : be 4 val.toUInt32.toNat = be 4 val.toNat := by
    rw [UInt64.toNat_toUInt32]
    exact be_mod 4 val.toNat
  rw [host, toNat_htonll, be_add 4 4, hdiv, hmod, be_htonl, be_htonl, List.reverse_append,
    List.reverse_reverse, List.reverse_reverse, hhi, hlo, ← be_add 4 4]

theorem ntohll_ofHost {l : Bytes} (hl : l.length = 8) :
    htonll (UInt64.ofNat (ofHost l)) = UInt64.ofNat (ofBe l) := by
  have hlt : ofHost l < 2 ^ 64 := by
    have := ofBe_lt l.reverse
    rwa [List.length_reverse, hl] at this
  have hr : be 8 (ofHost l) = l.reverse := by
    have := be_ofBe l.reverse
    rwa [List.length_reverse, hl] at this
  have h := host_htonll (UInt64.ofNat (ofHost l))
  rw [UInt64.toNat_ofNat', Nat.mod_eq_of_lt hlt, hr, host, List.reverse_inj] at h
  have h8 := ofBe_be 8 (htonll (UInt64.ofNat (ofHost l))).toNat
  have hval : (htonll (UInt64.ofNat (ofHost l))).toNat < 256 ^ 8 := UInt64.toNat_lt _
  rw [h, Nat.mod_eq_of_lt hval] at h8
  rw [h8, UInt64.ofNat_toNat]

/-! ## Values -/

inductive Ty where
  | char
  | uchar
  | int16
  | uint16
  | int32
  | uint32
  | int64
  | uint64
  | string
  deriving DecidableEq, Repr

inductive Val where
  | char (v : Int8)
  | uchar (v : UInt8)
  | int16 (v : Int16)
  | uint16 (v : UInt16)
  | int32 (v : Int32)
  | uint32 (v : UInt32)
  | int64 (v : Int64)
  | uint64 (v : UInt64)
  | string (v : Bytes)
  deriving DecidableEq, Repr

def Val.ty : Val → Ty
  | .char _ => .char
  | .uchar _ => .uchar
  | .int16 _ => .int16
  | .uint16 _ => .uint16
  | .int32 _ => .int32
  | .uint32 _ => .uint32
  | .int64 _ => .int64
  | .uint64 _ => .uint64
  | .string _ => .string

/-- The bits of an integer; for a string, the length that its prefix is made of. -/
def Val.bits : Val → Nat
  | .char v => v.toUInt8.toNat
  | .uchar v => v.toNat
  | .int16 v => v.toUInt16.toNat
  | .uint16 v => v.toNat
  | .int32 v => v.toUInt32.toNat
  | .uint32 v => v.toNat
  | .int64 v => v.toUInt64.toNat
  | .uint64 v => v.toNat
  | .string v => v.length

/-- `sizeof`; for a string, that of its length prefix. -/
def Ty.width : Ty → Nat
  | .char | .uchar => 1
  | .int16 | .uint16 | .string => 2
  | .int32 | .uint32 => 4
  | .int64 | .uint64 => 8

/-- The bytes of a value on the wire; a string goes behind the low 16 bits of its length. -/
def Val.encode (v : Val) : Bytes :=
  match v with
  | .string s => be 2 s.length ++ s
  | v => be v.ty.width v.bits

/-- The value of an integer type with these bits. -/
def Ty.ofBits (x : Nat) : Ty → Val
  | .char => .char (UInt8.ofNat x).toInt8
  | .uchar => .uchar (UInt8.ofNat x)
  | .int16 => .int16 (UInt16.ofNat x).toInt16
  | .uint16 => .uint16 (UInt16.ofNat x)
  | .int32 => .int32 (UInt32.ofNat x).toInt32
  | .uint32 => .uint32 (UInt32.ofNat x)
  | .int64 => .int64 (UInt64.ofNat x).toInt64
  | .uint64 => .uint64 (UInt64.ofNat x)
  | .string => .string []

/-- The value that `l` encodes. -/
def Ty.decode (t : Ty) (l : Bytes) : Val :=
  if t = .string then .string (l.drop 2) else t.ofBits (ofBe l)

/-- The size that the encoding at the head of `b` announces. -/
def Ty.need (t : Ty) (b : Bytes) : Nat :=
  if t = .string ∧ 2 ≤ b.length then 2 + ofBe (b.take 2) else t.width

/-- The size that the encodings of `ts` at the head of `b` announce. -/
def announced : List Ty → Bytes → Nat
  | [], _ => 0
  | t :: ts, b => t.need b + announced ts (b.drop (t.need b))

namespace IOBuffer

/-! ## The operators -/

/-- mirrors src/IOBuffer.cc:195-203 -/
def getChar (io : IOBuffer) : Except IOError (IOBuffer × Int8) :=
  io.getUInt8.map fun p => (p.1, p.2.toInt8)

/-- mirrors src/IOBuffer.cc:215-224 -/
def getInt16 (io : IOBuffer) : Except IOError (IOBuffer × Int16) :=
  io.getUInt16.map fun p => (p.1, p.2.toInt16)

/-- mirrors src/IOBuffer.cc:237-246 -/
def getInt32 (io : IOBuffer) : Except IOError (IOBuffer × Int32) :=
  io.getUInt32.map fun p => (p.1, p.2.toInt32)

/-- mirrors src/IOBuffer.cc:270-279 -/
def getUInt64 (io : IOBuffer) : Except IOError (IOBuffer × UInt64) :=
  if io.buffer = none ∨ io.readPosition + 8 > io.availableReadSize then .error .noSpaceToRead
  else do
    let bytes ← io.load io.readPosition.toNat 8
    .ok ({ io with readPosition := io.readPosition + 8 }, htonll (UInt64.ofNat (ofHost bytes)))

/-- mirrors src/IOBuffer.cc:259-268 -/
def getInt64 (io : IOBuffer) : Except IOError (IOBuffer × Int64) :=
  io.getUInt64.map fun p => (p.1, p.2.toInt64)

/-- The two checks of a string come before the cursor and the variable change.
mirrors src/IOBuffer.cc:281-296 -/
def getString (io : IOBuffer) (val : Bytes) : IOBuffer × Bytes × Option IOError :=
  if io.buffer = none ∨ io.readPosition + 2 > io.availableReadSize then (io, val, some .noSpaceToRead)
  else
    match io.load io.readPosition.toNat 2 with
    | .error e => (io, val, some e)
    | .ok head =>
      let len := UInt64.ofNat (ofBe head)
      if io.readPosition + 2 + len > io.availableReadSize then (io, val, some .noSpaceToRead)
      else
        let io := { io with readPosition := io.readPosition + 2 }
        match io.load io.readPosition.toNat len.toNat with
        | .error e => (io, val, some e)
        | .ok val => ({ io with readPosition := io.readPosition + len }, val, none)

/-- mirrors src/IOBuffer.cc:298-306 -/
def putChar (io : IOBuffer) (v : Int8) : Except IOError IOBuffer := io.putUInt8 v.toUInt8

/-- mirrors src/IOBuffer.cc:318-327 -/
def putInt16 (io : IOBuffer) (v : Int16) : Except IOError IOBuffer := io.putUInt16 v.toUInt16

/-- mirrors src/IOBuffer.cc:340-349 -/
def putInt32 (io : IOBuffer) (v : Int32) : Except IOError IOBuffer := io.putUInt32 v.toUInt32

/-- mirrors src/IOBuffer.cc:373-382 -/
def putUInt64 (io : IOBuffer) (v : UInt64) : Except IOError IOBuffer :=
  if io.writePosition + 8 > io.bufferSize then .error .noSpaceToWrite
  else do
    let io ← io.store io.writePosition.toNat (host 8 (htonll v).toNat)
    .ok { io with writePosition := io.writePosition + 8 }

/-- mirrors src/IOBuffer.cc:362-371 -/
def putInt64 (io : IOBuffer) (v : Int64) : Except IOError IOBuffer := io.putUInt64 v.toUInt64

/-- The prefix is `htons` of the length, which keeps its low 16 bits.
mirrors src/IOBuffer.cc:384-395 -/
def putString (io : IOBuffer) (val : Bytes) : IOBuffer × Option IOError :=
  if io.writePosition + 2 + UInt64.ofNat val.length > io.bufferSize then (io, some .noSpaceToWrite)
  else
    match io.store io.writePosition.toNat (be 2 (UInt16.ofNat val.length).toNat) with
    | .error e => (io, some e)
    | .ok io =>
      let io := { io with writePosition := io.writePosition + 2 }
      match io.store io.writePosition.toNat val with
      | .error e => (io, some e)
      | .ok io => ({ io with writePosition := io.writePosition + UInt64.ofNat val.length }, none)

/-- An integer is assigned after the only check, so a throw leaves the buffer and the variable. -/
def assign {α : Type} (io : IOBuffer) (mk : α → Val) (v : α) :
    Except IOError (IOBuffer × α) → IOBuffer × Val × Option IOError
  | .ok (io', v') => (io', mk v', none)
  | .error e => (io, mk v, some e)

/-- `io >> val` for a variable of any of the types: what it leaves, and what it throws. -/
def extract (io : IOBuffer) : Val → IOBuffer × Val × Option IOError
  | .char v => io.assign .char v io.getChar
  | .uchar v => io.assign .uchar v io.getUInt8
  | .int16 v => io.assign .int16 v io.getInt16
  | .uint16 v => io.assign .uint16 v io.getUInt16
  | .int32 v => io.assign .int32 v io.getInt32
  | .uint32 v => io.assign .uint32 v io.getUInt32
  | .int64 v => io.assign .int64 v io.getInt64
  | .uint64 v => io.assign .uint64 v io.getUInt64
  | .string v => ((io.getString v).1, .string (io.getString v).2.1, (io.getString v).2.2)

/-- The only check of an integer comes before the store. -/
def stored (io : IOBuffer) : Except IOError IOBuffer → IOBuffer × Option IOError
  | .ok io' => (io', none)
  | .error e => (io, some e)

/-- `io << val` for a value of any of the types. -/
def insert (io : IOBuffer) : Val → IOBuffer × Option IOError
  | .char v => io.stored (io.putChar v)
  | .uchar v => io.stored (io.putUInt8 v)
  | .int16 v => io.stored (io.putInt16 v)
  | .uint16 v => io.stored (io.putUInt16 v)
  | .int32 v => io.stored (io.putInt32 v)
  | .uint32 v => io.stored (io.putUInt32 v)
  | .int64 v => io.stored (io.putInt64 v)
  | .uint64 v => io.stored (io.putUInt64 v)
  | .string v => io.putString v

/-- `io >> a >> b >> …`: a throw ends the chain. -/
def extractAll (io : IOBuffer) : List Val → IOBuffer × List Val × Option IOError
  | [] => (io, [], none)
  | v :: vs =>
    match io.extract v with
    | (io, v, some e) => (io, v :: vs, some e)
    | (io, v, none) => ((io.extractAll vs).1, v :: (io.extractAll vs).2.1, (io.extractAll vs).2.2)

/-- `io << a << b << …`. -/
def insertAll (io : IOBuffer) : List Val → IOBuffer × Option IOError
  | [] => (io, none)
  | v :: vs =>
    match io.insert v with
    | (io, some e) => (io, some e)
    | (io, none) => io.insertAll vs

end IOBuffer

/-! ## The wire format -/

@[simp] theorem Ty.ty_ofBits (t : Ty) (x : Nat) : (t.ofBits x).ty = t := by cases t <;> rfl

@[simp] theorem Ty.ty_decode (t : Ty) (l : Bytes) : (t.decode l).ty = t := by
  unfold Ty.decode
  split
  · next h => rw [h]; rfl
  · exact t.ty_ofBits _

theorem Ty.width_le (t : Ty) : t.width ≤ 8 := by cases t <;> decide

theorem Ty.need_int {t : Ty} (h : t ≠ .string) (b : Bytes) : t.need b = t.width := by
  rw [Ty.need, if_neg fun hc => h hc.1]

theorem Ty.need_le (t : Ty) (b : Bytes) : t.need b ≤ 2 ^ 16 + 1 := by
  unfold Ty.need
  split
  · next h =>
    have hlt := ofBe_lt (b.take 2)
    rw [List.length_take_of_le h.2] at hlt
    omega
  · have := t.width_le
    omega

/-- A string that is there has its prefix there. -/
theorem Ty.need_string {b : Bytes} (h : Ty.string.need b ≤ b.length) :
    2 ≤ b.length ∧ Ty.string.need b = 2 + ofBe (b.take 2) := by
  by_cases h2 : 2 ≤ b.length
  · exact ⟨h2, if_pos ⟨rfl, h2⟩⟩
  · rw [Ty.need, if_neg fun hc => h2 hc.2] at h
    exact absurd h h2

theorem Val.encode_int {v : Val} (h : v.ty ≠ .string) : v.encode = be v.ty.width v.bits := by
  cases v with
  | string s => exact absurd rfl h
  | _ => rfl

theorem Val.length_encode_int {v : Val} (h : v.ty ≠ .string) : v.encode.length = v.ty.width := by
  rw [Val.encode_int h, length_be]

theorem Val.length_encode_string (s : Bytes) : (Val.string s).encode.length = 2 + s.length := by
  simp [Val.encode]

/-- What a value's encoding announces is its length, unless the prefix lost bits of it. -/
theorem Val.need_encode {v : Val} (h : ∀ s, v = .string s → s.length < 2 ^ 16) (rest : Bytes) :
    v.ty.need (v.encode ++ rest) = v.encode.length := by
  cases v with
  | string s =>
    have hlt : s.length < 256 ^ 2 := h s rfl
    have htake : (be 2 s.length ++ s ++ rest).take 2 = be 2 s.length := by
      rw [List.append_assoc]
      exact List.take_left' (length_be 2 _)
    have hlen : 2 ≤ (be 2 s.length ++ s ++ rest).length := by
      rw [List.length_append, List.length_append, length_be]
      omega
    show Ty.string.need (be 2 s.length ++ s ++ rest) = _
    rw [Ty.need, if_pos ⟨rfl, hlen⟩, htake, ofBe_be, Nat.mod_eq_of_lt hlt]
    simp [Val.encode]
  | _ => rw [Ty.need_int (by intro h; cases h), Val.length_encode_int (by intro h; cases h)]

theorem Val.bits_lt {v : Val} (h : v.ty ≠ .string) : v.bits < 256 ^ v.ty.width := by
  cases v with
  | string s => exact absurd rfl h
  | char v => exact v.toUInt8.toNat_lt
  | uchar v => exact v.toNat_lt
  | int16 v => exact v.toUInt16.toNat_lt
  | uint16 v => exact v.toNat_lt
  | int32 v => exact v.toUInt32.toNat_lt
  | uint32 v => exact v.toNat_lt
  | int64 v => exact v.toUInt64.toNat_lt
  | uint64 v => exact v.toNat_lt

theorem Val.ofBits_bits {v : Val} (h : v.ty ≠ .string) : v.ty.ofBits v.bits = v := by
  cases v with
  | string s => exact absurd rfl h
  | _ => simp [Val.ty, Val.bits, Ty.ofBits]

theorem Val.decode_encode (v : Val) : v.ty.decode v.encode = v := by
  by_cases h : v.ty = .string
  · cases v with
    | string s =>
      show Val.string ((be 2 s.length ++ s).drop 2) = _
      rw [List.drop_left' (length_be 2 _)]
    | _ => cases h
  · rw [Ty.decode, if_neg h, Val.encode_int h, ofBe_be, Nat.mod_eq_of_lt (Val.bits_lt h), Val.ofBits_bits h]

theorem be_ofBe_len {n : Nat} {l : Bytes} (h : l.length = n) : be n (ofBe l) = l := by
  rw [← h]
  exact be_ofBe l

theorem Ty.bits_ofBits {t : Ty} (h : t ≠ .string) (x : Nat) : (t.ofBits x).bits = x % 256 ^ t.width := by
  cases t with
  | string => exact absurd rfl h
  | _ => simp [Ty.ofBits, Val.bits, Ty.width]

theorem Ty.encode_decode_int {t : Ty} (h : t ≠ .string) {l : Bytes} (hl : l.length = t.width) :
    (t.decode l).encode = l := by
  have hty : (t.ofBits (ofBe l)).ty ≠ .string := by rwa [Ty.ty_ofBits]
  rw [Ty.decode, if_neg h, Val.encode_int hty, Ty.ty_ofBits, Ty.bits_ofBits h, be_mod, be_ofBe_len hl]

/-- Whatever stands at the head of `b` is the encoding of what it decodes to. -/
theorem Ty.encode_decode {t : Ty} {b : Bytes} (h : t.need b ≤ b.length) :
    (t.decode (b.take (t.need b))).encode = b.take (t.need b) := by
  by_cases ht : t = .string
  · subst ht
    obtain ⟨h2, hn⟩ := Ty.need_string h
    have hlen : (b.take 2).length = 2 := List.length_take_of_le h2
    have hdrop : ((b.take (2 + ofBe (b.take 2))).drop 2).length = ofBe (b.take 2) := by
      simp only [List.length_drop, List.length_take]
      omega
    rw [hn]
    show be 2 ((b.take (2 + ofBe (b.take 2))).drop 2).length ++ (b.take (2 + ofBe (b.take 2))).drop 2 = _
    rw [hdrop, be_ofBe_len hlen]
    conv_rhs => rw [← List.take_append_drop 2 (b.take (2 + ofBe (b.take 2))), List.take_take]
    rw [Nat.min_eq_left (by omega)]
  · rw [Ty.need_int ht] at h ⊢
    exact Ty.encode_decode_int ht (List.length_take_of_le h)

/-- A decoded string is one that a prefix can announce. -/
theorem Ty.decode_short {t : Ty} {b s : Bytes} (h : t.decode (b.take (t.need b)) = .string s) :
    s.length < 2 ^ 16 := by
  have ht : t = .string := by
    have := congrArg Val.ty h
    rwa [Ty.ty_decode] at this
  subst ht
  have hs : s = (b.take (Ty.string.need b)).drop 2 := (Val.string.inj h).symm
  have hle := Ty.string.need_le b
  rw [hs, List.length_drop, List.length_take]
  omega

/-! ## The operators over known memory -/

namespace IOBuffer

variable {pre rest extra : Bytes} {n : Nat}

theorem ofNat_gt {x y : Nat} (h : y < x) (hx : x < 2 ^ 64) : UInt64.ofNat x > UInt64.ofNat y := by
  rw [gt_iff_lt, UInt64.lt_iff_toNat_lt, toNat_ofNat_lt hx, toNat_ofNat_lt (by omega)]
  exact h

theorem get_short (h : rest.length < n) (hs : pre.length + n < 2 ^ 64) :
    (reading pre rest extra).get n = .error .noSpaceToRead := by
  have hgt : (reading pre rest extra).readPosition + UInt64.ofNat n >
      (reading pre rest extra).availableReadSize := by
    show UInt64.ofNat pre.length + UInt64.ofNat n > _
    rw [← UInt64.ofNat_add]
    exact ofNat_gt (by omega) hs
  rw [get, if_pos (.inr hgt)]

/-- `ReadSeek` does not go past what may be read. -/
theorem readSeek_clamped {k : Nat} (hk : rest.length ≤ k) (hs : pre.length + k < 2 ^ 64) :
    (reading pre rest extra).readSeek (UInt64.ofNat k) = reading (pre ++ rest) [] extra := by
  have hpos : (reading pre rest extra).readPosition + UInt64.ofNat k = UInt64.ofNat (pre.length + k) := by
    rw [UInt64.ofNat_add]
    rfl
  unfold readSeek
  simp only [hpos]
  by_cases hlt : rest.length = k
  · subst hlt
    simp [reading]
  · have hgt : UInt64.ofNat (pre.length + k) > (reading pre rest extra).availableReadSize :=
      ofNat_gt (by omega) hs
    rw [if_pos hgt]
    simp [reading]

theorem put_short (h : rest.length < n) (hs : pre.length + n < 2 ^ 64) (v : Nat) :
    (writing pre rest).put n v = .error .noSpaceToWrite := by
  have hgt : (writing pre rest).writePosition + UInt64.ofNat n > (writing pre rest).bufferSize := by
    show UInt64.ofNat pre.length + UInt64.ofNat n > _
    rw [← UInt64.ofNat_add]
    exact ofNat_gt (by omega) hs
  rw [put, if_pos hgt]

theorem putUInt64_eq (io : IOBuffer) (v : UInt64) : io.putUInt64 v = io.put 8 v.toNat := by
  rw [putUInt64, host_htonll]
  rfl

theorem load_length {io : IOBuffer} {pos : Nat} {bytes : Bytes} (h : io.load pos n = .ok bytes) :
    bytes.length = n := by
  unfold load at h
  split at h
  · cases h
  · next m =>
    split at h
    · next hle =>
      cases h
      rw [List.length_take, List.length_drop]
      omega
    · cases h

theorem getUInt64_eq (io : IOBuffer) : io.getUInt64 = (io.get 8).map fun p => (p.1, UInt64.ofNat p.2) := by
  have h8 : UInt64.ofNat 8 = 8 := rfl
  rw [getUInt64, get, h8]
  by_cases hc : io.buffer = none ∨ io.readPosition + 8 > io.availableReadSize
  · rw [if_pos hc, if_pos hc]
    rfl
  · rw [if_neg hc, if_neg hc]
    cases hl : io.load io.readPosition.toNat 8 with
    | error e => rfl
    | ok bytes =>
      show Except.ok (_, htonll (UInt64.ofNat (ofHost bytes))) = Except.ok (_, UInt64.ofNat (ofBe bytes))
      rw [ntohll_ofHost (load_length hl)]

/-- The eight integer types differ in `sizeof` and in how they read the bits. -/
theorem extract_int (io : IOBuffer) {v : Val} (hv : v.ty ≠ .string) :
    io.extract v = match io.get v.ty.width with
      | .ok (io', x) => (io', v.ty.ofBits x, none)
      | .error e => (io, v, some e) := by
  cases v with
  | string s => exact absurd rfl hv
  | char v =>
    show io.assign .char v ((((io.get 1).map _)).map _) = _
    cases h : io.get 1 <;> simp only [Val.ty, Ty.width, h] <;> rfl
  | uchar v =>
    show io.assign .uchar v ((io.get 1).map _) = _
    cases h : io.get 1 <;> simp only [Val.ty, Ty.width, h] <;> rfl
  | int16 v =>
    show io.assign .int16 v ((((io.get 2).map _)).map _) = _
    cases h : io.get 2 <;> simp only [Val.ty, Ty.width, h] <;> rfl
  | uint16 v =>
    show io.assign .uint16 v ((io.get 2).map _) = _
    cases h : io.get 2 <;> simp only [Val.ty, Ty.width, h] <;> rfl
  | int32 v =>
    show io.assign .int32 v ((((io.get 4).map _)).map _) = _
    cases h : io.get 4 <;> simp only [Val.ty, Ty.width, h] <;> rfl
  | uint32 v =>
    show io.assign .uint32 v ((io.get 4).map _) = _
    cases h : io.get 4 <;> simp only [Val.ty, Ty.width, h] <;> rfl
  | int64 v =>
    show io.assign .int64 v (io.getUInt64.map _) = _
    rw [getUInt64_eq]
    cases h : io.get 8 <;> simp only [Val.ty, Ty.width, h] <;> rfl
  | uint64 v =>
    show io.assign .uint64 v io.getUInt64 = _
    rw [getUInt64_eq]
    cases h : io.get 8 <;> simp only [Val.ty, Ty.width, h] <;> rfl

theorem insert_int (io : IOBuffer) {v : Val} (hv : v.ty ≠ .string) :
    io.insert v = io.stored (io.put v.ty.width v.bits) := by
  cases v with
  | string s => exact absurd rfl hv
  | int64 v => exact congrArg io.stored (putUInt64_eq io _)
  | uint64 v => exact congrArg io.stored (putUInt64_eq io _)
  | _ => rfl

theorem getString_reading {p s : Bytes} (val : Bytes) (hp : p.length = 2) (hlen : s.length = ofBe p)
    (hs : pre.length + (p ++ (s ++ rest)).length < 2 ^ 63) :
    (reading pre (p ++ (s ++ rest)) extra).getString val = (reading (pre ++ (p ++ s)) rest extra, s, none) := by
  have hlens : (p ++ (s ++ rest)).length = 2 + (s.length + rest.length) := by
    rw [List.length_append, List.length_append, hp]
  have hpos : (reading pre (p ++ (s ++ rest)) extra).readPosition.toNat = pre.length :=
    toNat_ofNat_lt (by omega)
  have hfit : ¬(reading pre (p ++ (s ++ rest)) extra).readPosition + 2 >
      (reading pre (p ++ (s ++ rest)) extra).availableReadSize := by
    have := @reading_fits pre (s ++ rest) extra p (by omega)
    rwa [hp] at this
  have hload : (reading pre (p ++ (s ++ rest)) extra).load pre.length 2 = .ok p := by
    have := load_reading pre p (s ++ rest) extra
    rwa [hp] at this
  have hadv : ({ reading pre (p ++ (s ++ rest)) extra with
      readPosition := (reading pre (p ++ (s ++ rest)) extra).readPosition + 2 } : IOBuffer) =
      reading (pre ++ p) (s ++ rest) extra := by
    have := reading_advance pre p (s ++ rest) extra
    rwa [hp] at this
  have hpos' : ((reading pre (p ++ (s ++ rest)) extra).readPosition + 2).toNat = (pre ++ p).length := by
    show (UInt64.ofNat pre.length + UInt64.ofNat 2).toNat = _
    rw [← UInt64.ofNat_add, toNat_ofNat_lt (by omega), List.length_append, hp]
  have hfit' : ¬(reading pre (p ++ (s ++ rest)) extra).readPosition + 2 + UInt64.ofNat s.length >
      (reading pre (p ++ (s ++ rest)) extra).availableReadSize := by
    show ¬UInt64.ofNat pre.length + 2 + UInt64.ofNat s.length > UInt64.ofNat (pre.length + _)
    have h2 : (2 : UInt64) = UInt64.ofNat 2 := rfl
    rw [h2, ← UInt64.ofNat_add, ← UInt64.ofNat_add]
    exact ofNat_not_gt (by omega) (by omega)
  unfold getString
  rw [if_neg (fun h => h.elim (fun h => nomatch h) hfit), hpos, hload]
  simp only []
  rw [← hlen, if_neg hfit', hadv, hpos', toNat_ofNat_lt (by omega), load_reading]
  simp [reading, hp, UInt64.ofNat_add, UInt64.add_assoc]

/-- `>>` takes the encoding at the head of what is left to read. -/
theorem extract_reading (hs : pre.length + rest.length < 2 ^ 63) (v : Val)
    (h : v.ty.need rest ≤ rest.length) :
    (reading pre rest extra).extract v =
      (reading (pre ++ rest.take (v.ty.need rest)) (rest.drop (v.ty.need rest)) extra,
        v.ty.decode (rest.take (v.ty.need rest)), none) := by
  by_cases hv : v.ty = .string
  · cases v with
    | string s =>
      obtain ⟨h2, hn⟩ := Ty.need_string h
      -- the bytes consumed are the two of the prefix and as many as they announce
      obtain ⟨p, t, rest', hp, ht, rfl⟩ : ∃ p t rest' : Bytes, p.length = 2 ∧ t.length = ofBe p ∧
          rest = p ++ (t ++ rest') := by
        refine ⟨rest.take 2, (rest.drop 2).take (ofBe (rest.take 2)), (rest.drop 2).drop (ofBe (rest.take 2)),
          List.length_take_of_le h2, ?_, by rw [List.take_append_drop, List.take_append_drop]⟩
        apply List.length_take_of_le
        rw [List.length_drop]
        have hle : Ty.string.need rest ≤ rest.length := h
        omega
      have htake : (p ++ (t ++ rest')).take 2 = p := List.take_left' hp
      have hneed : Ty.string.need (p ++ (t ++ rest')) = (p ++ t).length := by
        rw [hn, htake, List.length_append, hp, ht]
      have hcut : (p ++ (t ++ rest')).take (Ty.string.need (p ++ (t ++ rest'))) = p ++ t := by
        rw [hneed, ← List.append_assoc, List.take_left' rfl]
      have hleft : (p ++ (t ++ rest')).drop (Ty.string.need (p ++ (t ++ rest'))) = rest' := by
        rw [hneed, ← List.append_assoc, List.drop_left' rfl]
      have hdec : Ty.string.decode (p ++ t) = .string t := by
        show Val.string ((p ++ t).drop 2) = _
        rw [List.drop_left' hp]
      have hget := @getString_reading pre rest' extra p t s hp ht hs
      have hty : (Val.string s).ty = .string := rfl
      rw [hty, hcut, hleft, hdec, extract, hget]
    | _ => cases hv
  · rw [Ty.need_int hv] at h ⊢
    have hsplit := rest.take_append_drop v.ty.width
    have hg := @get_reading pre (rest.drop v.ty.width) extra (rest.take v.ty.width) v.ty.width
      (by rw [hsplit]; omega) (List.length_take_of_le h)
    rw [hsplit] at hg
    rw [extract_int _ hv, hg, Ty.decode, if_neg hv]

theorem getString_short (val : Bytes) (hs : pre.length + rest.length < 2 ^ 63)
    (h : rest.length < Ty.string.need rest) :
    (reading pre rest extra).getString val = (reading pre rest extra, val, some .noSpaceToRead) := by
  have hgt {n : Nat} (hn : rest.length < n) (hb : n ≤ 2 ^ 16 + 1) :
      (reading pre rest extra).readPosition + UInt64.ofNat n > (reading pre rest extra).availableReadSize := by
    show UInt64.ofNat pre.length + UInt64.ofNat n > _
    rw [← UInt64.ofNat_add]
    exact ofNat_gt (by omega) (by omega)
  unfold getString
  by_cases h2 : rest.length < 2
  · rw [if_pos (.inr (hgt h2 (by decide)))]
  · -- the prefix is there: the second check looks at the length in it
    have hneed : Ty.string.need rest = 2 + ofBe (rest.take 2) := if_pos ⟨rfl, by omega⟩
    have hle := Ty.string.need_le rest
    have hlen : (rest.take 2).length = 2 := List.length_take_of_le (by omega)
    have hsplit := rest.take_append_drop 2
    have hfit := @reading_fits pre (rest.drop 2) extra (rest.take 2) (by rw [hsplit]; omega)
    have hload := load_reading pre (rest.take 2) (rest.drop 2) extra
    have hpos : (reading pre rest extra).readPosition.toNat = pre.length := toNat_ofNat_lt (by omega)
    rw [hsplit, hlen] at hfit hload
    have hgt' := hgt h hle
    rw [hneed, UInt64.ofNat_add, ← UInt64.add_assoc] at hgt'
    rw [if_neg (fun h => h.elim (fun h => nomatch h) hfit), hpos, hload]
    exact if_pos hgt'

/-- A `>>` that does not fit changes nothing. -/
theorem extract_short (hs : pre.length + rest.length < 2 ^ 63) (v : Val)
    (h : rest.length < v.ty.need rest) :
    (reading pre rest extra).extract v = (reading pre rest extra, v, some .noSpaceToRead) := by
  by_cases hv : v.ty = .string
  · cases v with
    | string s => rw [extract, getString_short s hs h]
    | _ => cases hv
  · rw [Ty.need_int hv] at h
    have := v.ty.width_le
    rw [extract_int _ hv, get_short h (by omega)]

theorem be_ofNat16 (n : Nat) : be 2 (UInt16.ofNat n).toNat = be 2 n := by
  rw [UInt16.toNat_ofNat']
  exact be_mod 2 n

theorem putString_writing (s : Bytes) (hs : pre.length + rest.length < 2 ^ 63) (h : 2 + s.length ≤ rest.length) :
    (writing pre rest).putString s = (writing (pre ++ (be 2 s.length ++ s)) (rest.drop (2 + s.length)), none) := by
  have hlen : (be 2 s.length).length ≤ rest.length := by rw [length_be]; omega
  have hfit : ¬(writing pre rest).writePosition + 2 + UInt64.ofNat s.length > (writing pre rest).bufferSize := by
    show ¬UInt64.ofNat pre.length + UInt64.ofNat 2 + UInt64.ofNat s.length > _
    rw [← UInt64.ofNat_add, ← UInt64.ofNat_add]
    exact ofNat_not_gt (by omega) (by omega)
  have hpos : (writing pre rest).writePosition.toNat = pre.length := toNat_ofNat_lt (by omega)
  have hmid : IOBuffer.mk (some (pre ++ be 2 s.length ++ rest.drop 2)) (writing pre rest).bufferSize
      (writing pre rest).readPosition (writing pre rest).availableReadSize ((writing pre rest).writePosition + 2) =
      writing (pre ++ be 2 s.length) (rest.drop 2) := by
    have hadv := @writing_advance pre rest (be 2 s.length) hlen
    rw [length_be] at hadv
    exact hadv
  have hpos' : ((writing pre rest).writePosition + 2).toNat = (pre ++ be 2 s.length).length := by
    show (UInt64.ofNat pre.length + UInt64.ofNat 2).toNat = _
    rw [← UInt64.ofNat_add, toNat_ofNat_lt (by omega), List.length_append, length_be]
  have hlen' : s.length ≤ (rest.drop 2).length := by rw [List.length_drop]; omega
  have hend := @writing_advance (pre ++ be 2 s.length) (rest.drop 2) s hlen'
  rw [List.drop_drop, List.append_assoc pre] at hend
  unfold putString
  rw [if_neg hfit, be_ofNat16, hpos, store_writing hlen, length_be]
  simp only []
  rw [hmid, hpos', store_writing hlen', List.drop_drop, List.append_assoc pre, ← hend]
  rfl

/-- What a store that does not fault does. -/
theorem store_ok {io io' : IOBuffer} {pos : Nat} {bytes : Bytes} (h : io.store pos bytes = .ok io') :
    ∃ m, io.buffer = some m ∧ pos + bytes.length ≤ m.length ∧
      io' = { io with buffer := some (m.take pos ++ bytes ++ m.drop (pos + bytes.length)) } := by
  unfold store at h
  split at h
  · cases h
  · next m hm =>
    split at h
    · next hle =>
      cases h
      exact ⟨m, hm, hle, rfl⟩
    · cases h

theorem length_overwrite {m bytes : Bytes} {pos : Nat} (h : pos + bytes.length ≤ m.length) :
    (m.take pos ++ bytes ++ m.drop (pos + bytes.length)).length = m.length := by
  rw [List.length_append, List.length_append, List.length_take, List.length_drop]
  omega

/-- Where the length wraps the check, the copy faults. -/
theorem putString_short (s : Bytes) (hs : pre.length + rest.length < 2 ^ 63) (h : rest.length < 2 + s.length) :
    ((writing pre rest).putString s).2 ≠ none := by
  unfold putString
  split
  · exact Option.some_ne_none _
  · cases h₁ : (writing pre rest).store (writing pre rest).writePosition.toNat (be 2 (UInt16.ofNat s.length).toNat) with
    | error e => exact Option.some_ne_none _
    | ok io₁ =>
      obtain ⟨m, hm, hle, rfl⟩ := store_ok h₁
      cases hm
      simp only []
      split
      · exact Option.some_ne_none _
      · next h₂ =>
        obtain ⟨m, hm, hle', -⟩ := store_ok h₂
        cases hm
        have hpos : ((writing pre rest).writePosition + 2).toNat = pre.length + 2 := by
          show (UInt64.ofNat pre.length + UInt64.ofNat 2).toNat = _
          rw [← UInt64.ofNat_add, toNat_ofNat_lt (by omega)]
        rw [length_overwrite hle, List.length_append] at hle'
        omega

/-- `<<` appends the encoding. -/
theorem insert_writing (hs : pre.length + rest.length < 2 ^ 63) (v : Val) (h : v.encode.length ≤ rest.length) :
    (writing pre rest).insert v = (writing (pre ++ v.encode) (rest.drop v.encode.length), none) := by
  by_cases hv : v.ty = .string
  · cases v with
    | string s =>
      rw [Val.length_encode_string] at h ⊢
      exact putString_writing s hs h
    | _ => cases hv
  · rw [Val.length_encode_int hv] at h
    rw [insert_int _ hv, put_writing h (by omega), Val.length_encode_int hv, Val.encode_int hv]
    rfl

/-- A `<<` that does not fit fails. -/
theorem insert_short (hs : pre.length + rest.length < 2 ^ 63) (v : Val) (h : rest.length < v.encode.length) :
    ((writing pre rest).insert v).2 ≠ none := by
  by_cases hv : v.ty = .string
  · cases v with
    | string s =>
      rw [Val.length_encode_string] at h
      exact putString_short s hs h
    | _ => cases hv
  · rw [Val.length_encode_int hv] at h
    have := v.ty.width_le
    rw [insert_int _ hv, put_short h (by omega)]
    exact Option.some_ne_none _

end IOBuffer

end L1
end SimpleSvr
