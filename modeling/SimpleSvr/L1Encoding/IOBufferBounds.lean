import SimpleSvr.L1Encoding.IOBufferCodec
import SimpleSvr.Core.LTS

/-!
# The bounds of an `IOBuffer`

Every transfer is checked as `position + size > limit` in `size_t`. The sum may
wrap: where it wraps to at most the limit the check lets the transfer through
(`Wraps`), and it leaves the memory. That is the only way out: a step faults
exactly when it wraps (`perform_lands`), and a run that never wraps keeps the
cursors in order and every access inside (`bounds_run`).
-/
namespace SimpleSvr.L1.IOBuffer

/-! ## The other operations -/

/-- The write at a position; the cursor stays.
mirrors src/IOBuffer.cc:103-110 -/
def writeAt (io : IOBuffer) (bytes : Bytes) (size pos : UInt64) : Except IOError (IOBuffer × UInt64) :=
  if pos + size > io.bufferSize then .ok (io, 0)
  else do
    let io ← io.store pos.toNat (bytes.take size.toNat)
    .ok (io, size)

/-- mirrors src/IOBuffer.cc:122-129 -/
def readAt (io : IOBuffer) (size pos : UInt64) : Except IOError (Option Bytes) :=
  if pos + size > io.availableReadSize then .ok none
  else do
    let bytes ← io.load pos.toNat size.toNat
    .ok (some bytes)

/-- mirrors include/IOBuffer.hpp:113-118 -/
def writeSeek (io : IOBuffer) (offset : UInt64) : IOBuffer :=
  let w := io.writePosition + offset
  { io with writePosition := if w > io.bufferSize then io.bufferSize else w }

inductive Op where
  | read (size : UInt64)
  | readAt (size pos : UInt64)
  | write (bytes : Bytes) (size : UInt64)
  | writeAt (bytes : Bytes) (size pos : UInt64)
  | readSeek (offset : Int64)
  | writeSeek (offset : Int64)
  | extract (val : Val)
  | insert (val : Val)

/-- `failed` is a returned 0 or an exception. -/
inductive Status where
  | done
  | failed
  | fault
  deriving DecidableEq, Repr

def thrown : Option IOError → Status
  | none => .done
  | some .fault => .fault
  | some _ => .failed

def count (n : UInt64) : Status := if n = 0 then .failed else .done

def perform (io : IOBuffer) : Op → IOBuffer × Status
  | .read size =>
    match io.read size with
    | .error _ => (io, .fault)
    | .ok (io', none) => (io', .failed)
    | .ok (io', some _) => (io', count size)
  | .readAt size pos =>
    match io.readAt size pos with
    | .error _ => (io, .fault)
    | .ok none => (io, .failed)
    | .ok (some _) => (io, count size)
  | .write bytes size =>
    match io.write bytes size with
    | .error _ => (io, .fault)
    | .ok (io', n) => (io', count n)
  | .writeAt bytes size pos =>
    match io.writeAt bytes size pos with
    | .error _ => (io, .fault)
    | .ok (io', n) => (io', count n)
  | .readSeek offset => (io.readSeek offset.toUInt64, .done)
  | .writeSeek offset => (io.writeSeek offset.toUInt64, .done)
  | .extract val => ((io.extract val).1, thrown (io.extract val).2.2)
  | .insert val => ((io.insert val).1, thrown (io.insert val).2)

/-- The caller's bytes are there. -/
def Op.sourced : Op → Prop
  | .write bytes size | .writeAt bytes size _ => size.toNat ≤ bytes.length
  | _ => True

/-! ## Checks -/

/-- `pos + size` wraps, to a sum that the check against `limit` lets through. -/
def Wraps (pos size limit : Nat) : Prop := 2 ^ 64 ≤ pos + size ∧ (pos + size) % 2 ^ 64 ≤ limit

instance (pos size limit : Nat) : Decidable (Wraps pos size limit) :=
  inferInstanceAs (Decidable (_ ∧ _))

/-- The bytes between the read cursor and the end of what may be read. -/
def unread (io : IOBuffer) : Bytes :=
  ((io.buffer.getD []).drop io.readPosition.toNat).take (io.availableReadSize.toNat - io.readPosition.toNat)

/-- The step's sum of position and size wraps past its check. -/
def Op.wraps (io : IOBuffer) : Op → Prop
  | .read size => Wraps io.readPosition.toNat size.toNat io.availableReadSize.toNat
  | .readAt size pos => Wraps pos.toNat size.toNat io.availableReadSize.toNat
  | .write _ size => Wraps io.writePosition.toNat size.toNat io.bufferSize.toNat
  | .writeAt _ size pos => Wraps pos.toNat size.toNat io.bufferSize.toNat
  | .readSeek _ | .writeSeek _ => False
  | .extract val => Wraps io.readPosition.toNat (val.ty.need io.unread) io.availableReadSize.toNat
  | .insert val => Wraps io.writePosition.toNat val.encode.length io.bufferSize.toNat

instance (io : IOBuffer) : (op : Op) → Decidable (op.wraps io)
  | .read _ | .readAt _ _ | .write _ _ | .writeAt _ _ _ | .extract _ | .insert _ =>
    inferInstanceAs (Decidable (Wraps _ _ _))
  | .readSeek _ | .writeSeek _ => inferInstanceAs (Decidable False)

/-- The order of the cursors, over memory of the size that the buffer was told. -/
structure Bounded (io : IOBuffer) : Prop where
  memory : ∃ m, io.buffer = some m ∧ m.length = io.bufferSize.toNat
  read_le : io.readPosition ≤ io.availableReadSize
  available_le : io.availableReadSize ≤ io.bufferSize
  write_le : io.writePosition ≤ io.bufferSize

/-- A step that wraps faults; any other keeps the bounds, and changes nothing where it fails. -/
structure Lands (io : IOBuffer) (wraps : Prop) (out : IOBuffer × Status) : Prop where
  fault : wraps → out.2 = .fault
  inside : ¬wraps → out.2 ≠ .fault
  bounded : ¬wraps → Bounded out.1
  failed : out.2 = .failed → out.1 = io

variable {io : IOBuffer} {m : Bytes}

/-- A check refuses, or lets through what fits, or is wrapped past. -/
theorem check_cases (pos limit : UInt64) (size : Nat) :
    (pos + UInt64.ofNat size > limit ∧ ¬Wraps pos.toNat size limit.toNat) ∨
    (¬pos + UInt64.ofNat size > limit ∧ pos.toNat + size ≤ limit.toNat ∧ ¬Wraps pos.toNat size limit.toNat) ∨
    (¬pos + UInt64.ofNat size > limit ∧ 2 ^ 64 ≤ pos.toNat + size ∧ Wraps pos.toNat size limit.toNat) := by
  have hl := limit.toNat_lt
  have hp := pos.toNat_lt
  simp only [Wraps, gt_iff_lt, UInt64.lt_iff_toNat_lt, UInt64.toNat_add, UInt64.toNat_ofNat']
  omega

theorem load_in {pos n : Nat} (hm : io.buffer = some m) (h : pos + n ≤ m.length) :
    io.load pos n = .ok ((m.drop pos).take n) := by
  simp only [load, hm, if_pos h]

theorem load_out {pos n : Nat} (hm : io.buffer = some m) (h : m.length < pos + n) :
    io.load pos n = .error .fault := by
  simp only [load, hm, if_neg (Nat.not_le.mpr h)]

theorem store_in {pos : Nat} {bytes : Bytes} (hm : io.buffer = some m) (h : pos + bytes.length ≤ m.length) :
    io.store pos bytes =
      .ok { io with buffer := some (m.take pos ++ bytes ++ m.drop (pos + bytes.length)) } := by
  simp only [store, hm, if_pos h]

theorem store_out {pos : Nat} {bytes : Bytes} (hm : io.buffer = some m) (h : m.length < pos + bytes.length) :
    io.store pos bytes = .error .fault := by
  simp only [store, hm, if_neg (Nat.not_le.mpr h)]

theorem Bounded.readTo (h : Bounded io) {r : UInt64} (hr : r ≤ io.availableReadSize) :
    Bounded { io with readPosition := r } :=
  { h with read_le := hr }

theorem Bounded.writeTo (h : Bounded io) {w : UInt64} (hw : w ≤ io.bufferSize) :
    Bounded { io with writePosition := w } :=
  { h with write_le := hw }

theorem Bounded.overwrite (h : Bounded io) {pos : Nat} {bytes : Bytes} (hm : io.buffer = some m)
    (hle : pos + bytes.length ≤ m.length) :
    Bounded { io with buffer := some (m.take pos ++ bytes ++ m.drop (pos + bytes.length)) } := by
  obtain ⟨m', hm', hlen⟩ := h.memory
  rw [hm] at hm'
  cases hm'
  exact { h with memory := ⟨_, rfl, (length_overwrite hle).trans hlen⟩ }

theorem Lands.refused {w : Prop} (h : Bounded io) (hw : ¬w) : Lands io w (io, .failed) :=
  ⟨fun h => absurd h hw, fun _ => nofun, fun _ => h, fun _ => rfl⟩

theorem Lands.faulted {w : Prop} {io' : IOBuffer} (hw : w) : Lands io w (io', .fault) :=
  ⟨fun _ => rfl, fun h => absurd hw h, fun h => absurd hw h, nofun⟩

theorem Lands.moved {w : Prop} {io' : IOBuffer} (hw : ¬w) (h : Bounded io') : Lands io w (io', .done) :=
  ⟨fun h => absurd h hw, fun _ => nofun, fun _ => h, nofun⟩

/-- A count of 0 is a transfer of nothing. -/
theorem Lands.counted {w : Prop} {io' : IOBuffer} {n : UInt64} (hw : ¬w) (h : Bounded io')
    (h0 : n = 0 → io' = io) : Lands io w (io', count n) := by
  unfold count
  split
  · next hn =>
    obtain rfl := h0 hn
    exact .refused h hw
  · exact .moved hw h

/-! ## The operations land -/

/-- A read that its check lets through is of bytes that are there, or is wrapped past the check. -/
theorem load_cases (h : Bounded io) (pos : UInt64) (n : Nat) :
    (pos + UInt64.ofNat n > io.availableReadSize ∧ ¬Wraps pos.toNat n io.availableReadSize.toNat) ∨
    (¬pos + UInt64.ofNat n > io.availableReadSize ∧ (∃ bytes, io.load pos.toNat n = .ok bytes) ∧
      ¬Wraps pos.toNat n io.availableReadSize.toNat) ∨
    (¬pos + UInt64.ofNat n > io.availableReadSize ∧ io.load pos.toNat n = .error .fault ∧
      Wraps pos.toNat n io.availableReadSize.toNat) := by
  obtain ⟨m, hm, hlen⟩ := h.memory
  have havail := UInt64.le_iff_toNat_le.mp h.available_le
  have hsize := io.bufferSize.toNat_lt
  rcases check_cases pos io.availableReadSize n with hgt | ⟨hle, hfit, hw⟩ | ⟨hle, hbeyond, hw⟩
  · exact .inl hgt
  · exact .inr (.inl ⟨hle, ⟨_, load_in hm (by omega)⟩, hw⟩)
  · exact .inr (.inr ⟨hle, load_out hm (by omega), hw⟩)

/-- A write that its check lets through stays inside and writes nothing when there is nothing to write, or
is wrapped past the check. -/
theorem store_cases (h : Bounded io) (pos : UInt64) (bytes : Bytes) :
    (pos + UInt64.ofNat bytes.length > io.bufferSize ∧ ¬Wraps pos.toNat bytes.length io.bufferSize.toNat) ∨
    (¬pos + UInt64.ofNat bytes.length > io.bufferSize ∧
      (∃ io', io.store pos.toNat bytes = .ok io' ∧ Bounded io' ∧ io' = { io with buffer := io'.buffer } ∧
        (bytes = [] → io' = io)) ∧ ¬Wraps pos.toNat bytes.length io.bufferSize.toNat) ∨
    (¬pos + UInt64.ofNat bytes.length > io.bufferSize ∧ io.store pos.toNat bytes = .error .fault ∧
      Wraps pos.toNat bytes.length io.bufferSize.toNat) := by
  obtain ⟨m, hm, hlen⟩ := h.memory
  have hsize := io.bufferSize.toNat_lt
  rcases check_cases pos io.bufferSize bytes.length with hgt | ⟨hle, hfit, hw⟩ | ⟨hle, hbeyond, hw⟩
  · exact .inl hgt
  · have hin : pos.toNat + bytes.length ≤ m.length := by omega
    refine .inr (.inl ⟨hle, ⟨_, store_in hm hin, h.overwrite hm hin, rfl, fun hnil => ?_⟩, hw⟩)
    rw [hnil, List.append_nil, List.length_nil, Nat.add_zero, List.take_append_drop, ← hm]
  · exact .inr (.inr ⟨hle, store_out hm (by omega), hw⟩)

theorem read_lands (h : Bounded io) (size : UInt64) :
    Lands io ((Op.read size).wraps io) (io.perform (.read size)) := by
  have hc := load_cases h io.readPosition size.toNat
  rw [UInt64.ofNat_toNat] at hc
  rw [perform, read]
  rcases hc with ⟨hgt, hw⟩ | ⟨hle, ⟨bytes, hload⟩, hw⟩ | ⟨hle, hload, hw⟩
  · rw [if_pos hgt]
    exact .refused h hw
  · rw [if_neg hle, hload]
    apply Lands.counted hw
    · exact h.readTo (UInt64.not_lt.mp hle)
    · intro h0
      rw [h0, UInt64.add_zero]
  · rw [if_neg hle, hload]
    exact .faulted hw

theorem readAt_lands (h : Bounded io) (size pos : UInt64) :
    Lands io ((Op.readAt size pos).wraps io) (io.perform (.readAt size pos)) := by
  have hc := load_cases h pos size.toNat
  rw [UInt64.ofNat_toNat] at hc
  rw [perform, readAt]
  rcases hc with ⟨hgt, hw⟩ | ⟨hle, ⟨bytes, hload⟩, hw⟩ | ⟨hle, hload, hw⟩
  · rw [if_pos hgt]
    exact .refused h hw
  · rw [if_neg hle, hload]
    apply Lands.counted hw
    · exact h
    · exact fun _ => rfl
  · rw [if_neg hle, hload]
    exact .faulted hw

/-- Of no bytes, none are copied. -/
theorem take_zero_of {bytes : Bytes} {size : UInt64} (h0 : size = 0) : bytes.take size.toNat = [] := by
  rw [h0]
  exact List.take_zero

theorem write_lands (h : Bounded io) {bytes : Bytes} {size : UInt64} (hs : size.toNat ≤ bytes.length) :
    Lands io ((Op.write bytes size).wraps io) (io.perform (.write bytes size)) := by
  have hc := store_cases h io.writePosition (bytes.take size.toNat)
  rw [List.length_take_of_le hs, UInt64.ofNat_toNat] at hc
  rw [perform, write]
  rcases hc with ⟨hgt, hw⟩ | ⟨hle, ⟨io', hstore, hb, hio, hnil⟩, hw⟩ | ⟨hle, hstore, hw⟩
  · rw [if_pos hgt]
    exact .refused h hw
  · rw [if_neg hle, hstore]
    apply Lands.counted hw
    · exact hb.writeTo (by rw [hio]; exact UInt64.not_lt.mp hle)
    · intro h0
      rw [hnil (take_zero_of h0), h0, UInt64.add_zero]
  · rw [if_neg hle, hstore]
    exact .faulted hw

theorem writeAt_lands (h : Bounded io) {bytes : Bytes} {size : UInt64} (pos : UInt64)
    (hs : size.toNat ≤ bytes.length) :
    Lands io ((Op.writeAt bytes size pos).wraps io) (io.perform (.writeAt bytes size pos)) := by
  have hc := store_cases h pos (bytes.take size.toNat)
  rw [List.length_take_of_le hs, UInt64.ofNat_toNat] at hc
  rw [perform, writeAt]
  rcases hc with ⟨hgt, hw⟩ | ⟨hle, ⟨io', hstore, hb, -, hnil⟩, hw⟩ | ⟨hle, hstore, hw⟩
  · rw [if_pos hgt]
    exact .refused h hw
  · rw [if_neg hle, hstore]
    apply Lands.counted hw
    · exact hb
    · exact fun h0 => hnil (take_zero_of h0)
  · rw [if_neg hle, hstore]
    exact .faulted hw

theorem readSeek_bounded (h : Bounded io) (offset : UInt64) : Bounded (io.readSeek offset) := by
  unfold readSeek
  apply h.readTo
  split
  · exact UInt64.le_refl _
  · next hle => exact UInt64.not_lt.mp hle

theorem writeSeek_bounded (h : Bounded io) (offset : UInt64) : Bounded (io.writeSeek offset) := by
  unfold writeSeek
  apply h.writeTo
  split
  · exact UInt64.le_refl _
  · next hle => exact UInt64.not_lt.mp hle

theorem Bounded.length_unread (h : Bounded io) :
    io.unread.length = io.availableReadSize.toNat - io.readPosition.toNat := by
  obtain ⟨m, hm, hlen⟩ := h.memory
  have havail := UInt64.le_iff_toNat_le.mp h.available_le
  rw [unread, hm, Option.getD_some, List.length_take, List.length_drop]
  omega

/-- The prefix of a string that fits announces what the two bytes at the cursor say. -/
theorem need_announced (h : Bounded io) (hm : io.buffer = some m)
    (hfit : io.readPosition.toNat + 2 ≤ io.availableReadSize.toNat) :
    Ty.string.need io.unread = 2 + ofBe ((m.drop io.readPosition.toNat).take 2) := by
  have hlen := h.length_unread
  rw [Ty.need, if_pos ⟨rfl, by omega⟩, unread, hm, Option.getD_some, List.take_take, Nat.min_eq_left (by omega)]

theorem need_short (h : Bounded io) (hfit : io.availableReadSize.toNat < io.readPosition.toNat + 2) :
    Ty.string.need io.unread = 2 := by
  have hlen := h.length_unread
  rw [Ty.need, if_neg (fun hc => by omega)]
  rfl

/-- A cursor behind the prefix of a string. -/
theorem toNat_behind_prefix {pos : UInt64} (h : pos.toNat + 2 < 2 ^ 64) : (pos + 2).toNat = pos.toNat + 2 := by
  have h2 : (2 : UInt64).toNat = 2 := rfl
  rw [UInt64.toNat_add, h2, Nat.mod_eq_of_lt h]

/-- The end of a string of `n` bytes. -/
theorem behind_string (pos : UInt64) (n : Nat) : pos + 2 + UInt64.ofNat n = pos + UInt64.ofNat (2 + n) := by
  rw [UInt64.ofNat_add, ← UInt64.add_assoc]
  rfl

theorem getString_lands (h : Bounded io) (s : Bytes) :
    Lands io (Wraps io.readPosition.toNat (Ty.string.need io.unread) io.availableReadSize.toNat)
      ((io.getString s).1, thrown (io.getString s).2.2) := by
  obtain ⟨m, hm, hlen⟩ := h.memory
  have havail := UInt64.le_iff_toNat_le.mp h.available_le
  have hread := UInt64.le_iff_toNat_le.mp h.read_le
  have hsize := io.bufferSize.toNat_lt
  have hnn : ¬io.buffer = none := by rw [hm]; exact Option.some_ne_none m
  rcases check_cases io.readPosition io.availableReadSize 2 with ⟨hgt, hw⟩ | ⟨hle, hfit, hw⟩ | ⟨hle, hbeyond, hw⟩
  · have hg : io.getString s = (io, s, some .noSpaceToRead) := if_pos (.inr hgt)
    have hshort : io.availableReadSize.toNat < io.readPosition.toNat + 2 := by
      simp only [gt_iff_lt, UInt64.lt_iff_toNat_lt, UInt64.toNat_add, UInt64.toNat_ofNat'] at hgt
      omega
    rw [hg, need_short h hshort]
    exact .refused h hw
  · have hload := load_in hm (show io.readPosition.toNat + 2 ≤ m.length by omega)
    have hle2 := Ty.string.need_le io.unread
    rw [need_announced h hm hfit] at hle2 ⊢
    generalize (m.drop io.readPosition.toNat).take 2 = head at hload hle2 ⊢
    have hassoc := behind_string io.readPosition (ofBe head)
    have hpos : (io.readPosition + 2).toNat = io.readPosition.toNat + 2 := toNat_behind_prefix (by omega)
    have hcount : (UInt64.ofNat (ofBe head)).toNat = ofBe head := toNat_ofNat_lt (by omega)
    rcases check_cases io.readPosition io.availableReadSize (2 + ofBe head) with
      ⟨hgt, hw'⟩ | ⟨hle', hfit', hw'⟩ | ⟨hle', hbeyond, hw'⟩
    · have hg : io.getString s = (io, s, some .noSpaceToRead) := by
        rw [getString, if_neg (fun hc => hc.elim hnn hle), hload]
        simp only []
        rw [if_pos (by rw [hassoc]; exact hgt)]
      rw [hg]
      exact .refused h hw'
    · have hg : ∃ t, io.getString s =
          ({ io with readPosition := io.readPosition + UInt64.ofNat (2 + ofBe head) }, t, none) := by
        rw [getString, if_neg (fun hc => hc.elim hnn hle), hload]
        simp only []
        have hload' := @load_in { io with readPosition := io.readPosition + 2 } m (io.readPosition + 2).toNat
          (UInt64.ofNat (ofBe head)).toNat hm (by omega)
        rw [if_neg (by rw [hassoc]; exact hle'), hload', ← hassoc]
        exact ⟨_, rfl⟩
      obtain ⟨t, hg⟩ := hg
      rw [hg]
      apply Lands.moved hw'
      exact h.readTo (UInt64.not_lt.mp hle')
    · have hg : ∃ io', io.getString s = (io', s, some .fault) := by
        rw [getString, if_neg (fun hc => hc.elim hnn hle), hload]
        simp only []
        have hload' := @load_out { io with readPosition := io.readPosition + 2 } m (io.readPosition + 2).toNat
          (UInt64.ofNat (ofBe head)).toNat hm (by omega)
        rw [if_neg (by rw [hassoc]; exact hle'), hload']
        exact ⟨_, rfl⟩
      obtain ⟨io', hg⟩ := hg
      rw [hg]
      exact .faulted hw'
  · have hg : io.getString s = (io, s, some .fault) := by
      rw [getString, if_neg (fun hc => hc.elim hnn hle), load_out hm (by omega)]
    rw [hg, need_short h (by omega)]
    exact .faulted hw

theorem extract_lands (h : Bounded io) (val : Val) :
    Lands io ((Op.extract val).wraps io) (io.perform (.extract val)) := by
  obtain ⟨m, hm, -⟩ := h.memory
  by_cases hv : val.ty = .string
  · cases val with
    | string s => exact getString_lands h s
    | _ => cases hv
  · have hneed := Ty.need_int hv io.unread
    have hnn : ¬io.buffer = none := by rw [hm]; exact Option.some_ne_none m
    rw [perform, Op.wraps, hneed, extract_int io hv, get]
    rcases load_cases h io.readPosition val.ty.width with ⟨hgt, hw⟩ | ⟨hle, ⟨bytes, hload⟩, hw⟩ | ⟨hle, hload, hw⟩
    · rw [if_pos (.inr hgt)]
      exact .refused h hw
    · rw [if_neg (fun hc => hc.elim hnn hle), hload]
      apply Lands.moved hw
      exact h.readTo (UInt64.not_lt.mp hle)
    · rw [if_neg (fun hc => hc.elim hnn hle), hload]
      exact .faulted hw

theorem putString_lands (h : Bounded io) (s : Bytes) :
    Lands io (Wraps io.writePosition.toNat (2 + s.length) io.bufferSize.toNat)
      ((io.putString s).1, thrown (io.putString s).2) := by
  obtain ⟨m, hm, hlen⟩ := h.memory
  have hsize := io.bufferSize.toNat_lt
  have hassoc := behind_string io.writePosition s.length
  have hbe : (be 2 (UInt16.ofNat s.length).toNat).length = 2 := length_be _ _
  have hpos (hle : io.writePosition.toNat + 2 ≤ m.length) :
      (io.writePosition + 2).toNat = io.writePosition.toNat + 2 := toNat_behind_prefix (by omega)
  -- the first store, where it does not fault
  have hfirst (hle : io.writePosition.toNat + 2 ≤ m.length) : ∃ m₁, m₁.length = m.length ∧
      io.store io.writePosition.toNat (be 2 (UInt16.ofNat s.length).toNat) = .ok { io with buffer := some m₁ } ∧
      Bounded { io with buffer := some m₁ } :=
    ⟨_, length_overwrite (by omega), store_in hm (by omega), h.overwrite hm (by omega)⟩
  rcases check_cases io.writePosition io.bufferSize (2 + s.length) with
    ⟨hgt, hw⟩ | ⟨hle, hfit, hw⟩ | ⟨hle, hbeyond, hw⟩
  · have hp : io.putString s = (io, some .noSpaceToWrite) := if_pos (by rw [hassoc]; exact hgt)
    rw [hp]
    exact .refused h hw
  · obtain ⟨m₁, hlen₁, hstore, hb₁⟩ := hfirst (by omega)
    have hpos := hpos (by omega)
    have hstore' := @store_in { io with buffer := some m₁, writePosition := io.writePosition + 2 } m₁
      (io.writePosition + 2).toNat s rfl (by omega)
    rw [putString, if_neg (by rw [hassoc]; exact hle), hstore]
    simp only [hstore']
    apply Lands.moved hw
    rw [hassoc]
    exact (hb₁.overwrite rfl (by omega)).writeTo (UInt64.not_lt.mp hle)
  · by_cases hroom : io.writePosition.toNat + 2 ≤ m.length
    · obtain ⟨m₁, hlen₁, hstore, hb₁⟩ := hfirst hroom
      have hpos := hpos hroom
      have hstore' := @store_out { io with buffer := some m₁, writePosition := io.writePosition + 2 } m₁
        (io.writePosition + 2).toNat s rfl (by omega)
      rw [putString, if_neg (by rw [hassoc]; exact hle), hstore]
      simp only [hstore']
      exact .faulted hw
    · rw [putString, if_neg (by rw [hassoc]; exact hle), store_out hm (by omega)]
      exact .faulted hw

theorem insert_lands (h : Bounded io) (val : Val) :
    Lands io ((Op.insert val).wraps io) (io.perform (.insert val)) := by
  by_cases hv : val.ty = .string
  · cases val with
    | string s =>
      rw [Op.wraps, Val.length_encode_string]
      exact putString_lands h s
    | _ => cases hv
  · have hc := store_cases h io.writePosition (be val.ty.width val.bits)
    rw [length_be] at hc
    rw [perform, Op.wraps, Val.length_encode_int hv, insert_int io hv, put]
    rcases hc with ⟨hgt, hw⟩ | ⟨hle, ⟨io', hstore, hb, hio, -⟩, hw⟩ | ⟨hle, hstore, hw⟩
    · rw [if_pos hgt]
      exact .refused h hw
    · rw [if_neg hle, hstore]
      apply Lands.moved hw
      exact hb.writeTo (by rw [hio]; exact UInt64.not_lt.mp hle)
    · rw [if_neg hle, hstore]
      exact .faulted hw

/-- What one step does. -/
theorem perform_lands (h : Bounded io) {op : Op} (hs : op.sourced) :
    Lands io (op.wraps io) (io.perform op) := by
  cases op with
  | read size => exact read_lands h size
  | readAt size pos => exact readAt_lands h size pos
  | write bytes size => exact write_lands h hs
  | writeAt bytes size pos => exact writeAt_lands h pos hs
  | readSeek offset => exact .moved id (readSeek_bounded h _)
  | writeSeek offset => exact .moved id (writeSeek_bounded h _)
  | extract val => exact extract_lands h val
  | insert val => exact insert_lands h val

/-! ## Runs -/

/-- A buffer in use: the last operation, the buffer it ran on and how it ended. -/
structure Use where
  io : IOBuffer
  before : IOBuffer
  status : Status

/-- The three constructors, over memory of the size they are told; nothing runs after a fault. -/
def uses : LTS Use Op where
  init u := (∃ mem size available, mem.length = size.toNat ∧ available ≤ size ∧
    u.io = new mem size available) ∧ u.before = u.io ∧ u.status = .done
  step u op u' := u.status ≠ .fault ∧ op.sourced ∧
    u' = { io := (u.io.perform op).1, before := u.io, status := (u.io.perform op).2 }

/-- The cursors are in order, nothing outside was accessed, and a failure changed nothing. -/
structure Holds (u : Use) : Prop where
  inside : u.status ≠ .fault
  bounded : Bounded u.io
  failed : u.status = .failed → u.io = u.before

theorem new_bounded {mem : Bytes} {size available : UInt64} (hmem : mem.length = size.toNat)
    (ha : available ≤ size) : Bounded (new mem size available) where
  memory := ⟨mem, rfl, hmem⟩
  read_le := UInt64.zero_le
  available_le := ha
  write_le := UInt64.zero_le

theorem holds_inductive : (uses.guard fun u op => ¬op.wraps u.io).Inductive Holds where
  init := by
    intro u ⟨⟨mem, size, available, hmem, ha, hio⟩, _, hst⟩
    refine ⟨by rw [hst]; exact nofun, by rw [hio]; exact new_bounded hmem ha, by rw [hst]; exact nofun⟩
  step := by
    intro u op u' hu ⟨hw, hst, hs, he⟩
    subst he
    have hl := perform_lands hu.bounded hs
    exact ⟨hl.inside hw, hl.bounded hw, hl.failed⟩

/-- A run whose steps do not wrap past a check stays in bounds; and a step that does leaves
the memory. -/
theorem bounds_run {u : Use} (hr : (uses.guard fun u op => ¬op.wraps u.io).Reachable u) :
    Holds u ∧ ∀ op u', uses.step u op u' → (Holds u' ↔ ¬op.wraps u.io) := by
  have hu := holds_inductive.reachable u hr
  refine ⟨hu, fun op u' hstep => ⟨fun hu' hw => ?_, fun hw => holds_inductive.step u op u' hu ⟨hw, hstep⟩⟩⟩
  obtain ⟨-, hs, he⟩ := hstep
  subst he
  exact hu'.inside ((perform_lands hu.bounded hs).fault hw)

/-- A buffer of four bytes that may read two. -/
def fourBytes : IOBuffer := new [1, 2, 3, 4] 4 2

theorem fourBytes_uses : uses.init { io := fourBytes, before := fourBytes, status := .done } :=
  ⟨⟨[1, 2, 3, 4], 4, 2, by decide, by decide, rfl⟩, rfl, rfl⟩

theorem uses_step {u : Use} {op : Op} (hst : u.status ≠ .fault) (hs : op.sourced) :
    uses.step u op { io := (u.io.perform op).1, before := u.io, status := (u.io.perform op).2 } :=
  ⟨hst, hs, rfl⟩

/-- Two bytes read and one string refused. -/
theorem bounds_run_four :
    Holds ⟨{ fourBytes with readPosition := 2 }, { fourBytes with readPosition := 2 }, .failed⟩ := by
  have h0 : (uses.guard fun u op => ¬op.wraps u.io).Reachable _ := .init fourBytes_uses
  have h1 := h0.allowed (@uses_step _ (.read 2) (by decide) trivial) (by decide)
  have h2 := h1.allowed (@uses_step _ (.extract (.string [])) (by decide) trivial) (by decide)
  exact (bounds_run h2).1

/-- Four bytes written at `(size_t)-4`: the sum is 0, and the copy goes below the buffer. -/
theorem write_below : ∃ u, uses.Reachable u ∧ ¬Holds u := by
  have hs : (Op.writeAt [1, 2, 3, 4] 4 (0 - 4)).sourced := Nat.le_refl 4
  refine ⟨_, .step (.init fourBytes_uses) (uses_step (by decide) hs), fun h => h.inside ?_⟩
  decide

end SimpleSvr.L1.IOBuffer
