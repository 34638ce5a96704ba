import SimpleSvr.L1Encoding.IOBufferCodec

/-!
# The dump of a buffer (`IOBuffer.cc`)

`Dump` writes what is in a buffer as text, sixteen bytes a line: the number of
the line, the bytes in hexadecimal, and the bytes that can be shown as text.

`dump_lossless`: the bytes are read back from the text, whatever they are, by
a scan that knows the columns and nothing of the buffer (`undump`). So buffers
with the same dump have the same contents.
-/
namespace SimpleSvr.L1

/-- The upper-case digits of `%X`. -/
def hexDigits : List Char :=
  ['0', '1', '2', '3', '4', '5', '6', '7', '8', '9', 'A', 'B', 'C', 'D', 'E', 'F']

def hexDigit (n : Nat) : Char := hexDigits.getD n '0'

def digit? (c : Char) : Option Nat := hexDigits.idxOf? c

/-- `%X` -/
def hexNumber (n : Nat) : List Char := (Nat.toDigits 16 n).map Char.toUpper

/-- `%02X ` of a byte -/
def byteColumn (c : UInt8) : List Char := [hexDigit (c.toNat / 16), hexDigit (c.toNat % 16), ' ']

/-- mirrors src/IOBuffer.cc:164-167 -/
def textColumn (c : UInt8) : Char := if c > 31 ∧ c < 127 then Char.ofNat c.toNat else '.'

/-- `%0nX0 | `, for `n` the left align.
mirrors src/IOBuffer.cc:149 -/
def lineStart (iLeftAlign iLineNum : Nat) : List Char :=
  (hexNumber iLineNum).leftpad iLeftAlign '0' ++ ['0', ' ', '|', ' ']

/-- The characters behind the bytes, and the end of the line.
mirrors src/IOBuffer.cc:171, 183 -/
def lineEnd (szStrBuffer : List Char) : List Char := ['|', ' '] ++ szStrBuffer ++ ['\n']

/-- mirrors src/IOBuffer.cc:187-193 -/
def GetLeftAlignSize (llNum : Int64) : Nat := (Nat.toDigits 16 llNum.toUInt64.toNat).length

namespace IOBuffer

/-- The loop, from byte `i` on; the second component is what is left in `szStrBuffer`, which is kept up to its
first NUL.
mirrors src/IOBuffer.cc:157-179 -/
def dumpFrom (iLeftAlign len : Nat) : Bytes → Nat → List Char → Nat → List Char × List Char
  | [], _, szStrBuffer, _ => ([], szStrBuffer)
  | c :: bytes, i, szStrBuffer, iLineNum =>
    let szStrBuffer := szStrBuffer ++ [textColumn c]
    if (i + 1) % 16 = 0 then
      if i + 1 ≥ len then (byteColumn c ++ lineEnd szStrBuffer, szStrBuffer)
      else
        let rest := dumpFrom iLeftAlign len bytes (i + 1) [] (iLineNum + 1)
        (byteColumn c ++ lineEnd szStrBuffer ++ lineStart iLeftAlign (iLineNum + 1) ++ rest.1, rest.2)
    else
      let rest := dumpFrom iLeftAlign len bytes (i + 1) szStrBuffer iLineNum
      (byteColumn c ++ rest.1, rest.2)

/-- The last line, if it is not full.
mirrors src/IOBuffer.cc:180-184 -/
def dumpLast (iMod : Nat) (szStrBuffer : List Char) : List Char :=
  if iMod ≠ 0 then List.replicate ((16 - iMod) * 3) ' ' ++ lineEnd szStrBuffer else []

/-- mirrors src/IOBuffer.cc:133-135 -/
def dumpSize (io : IOBuffer) : Nat :=
  if io.availableReadSize < io.writePosition then io.writePosition.toNat else io.availableReadSize.toNat

/-- The head of the columns, behind the left align. -/
def columns : List Char := "__|__0__1__2__3__4__5__6__7__8__9__A__B__C__D__E__F_|_________________\n".toList

/-- `none` is an access outside the memory, or more lines than an `int` counts.
mirrors src/IOBuffer.cc:131-185 -/
def Dump (io : IOBuffer) (str : List Char) : Option (List Char) :=
  let len := io.dumpSize
  if len = 0 then
    some (str ++ ('_' :: columns ++ "00 |                                                 |\n".toList))
  else if len / 16 + 1 ≥ 2 ^ 31 then none
  else
    match io.load 0 len with
    | .error _ => none
    | .ok bytes =>
      let iMod := len % 16
      let iLineCount : Int64 := Int64.ofNat (if iMod ≠ 0 then len / 16 + 1 else len / 16)
      let iLeftAlign := GetLeftAlignSize iLineCount
      let lines := dumpFrom iLeftAlign len bytes 0 [] 0
      some (str ++ (List.replicate iLeftAlign '_' ++ columns ++ (lineStart iLeftAlign 0 ++
        (lines.1 ++ dumpLast iMod lines.2))))

end IOBuffer

/-! ## Reading a dump -/

/-- Where a scan of a dump is: in the number of a line, at a byte, or in what is not scanned. -/
inductive Column where
  | number
  | bar
  | high
  | low (digit : Nat)
  | gap
  | text

/-- The bytes of a dump. -/
def undump : Column → List Char → Bytes
  | _, [] => []
  | .number, c :: cs => if c = '|' then undump .bar cs else undump .number cs
  | .bar, _ :: cs => undump .high cs
  | .high, c :: cs =>
    match digit? c with
    | some digit => undump (.low digit) cs
    | none => undump .text cs
  | .low digit, c :: cs =>
    match digit? c with
    | some digit' => UInt8.ofNat (16 * digit + digit') :: undump .gap cs
    | none => undump .text cs
  | .gap, _ :: cs => undump .high cs
  | .text, c :: cs => if c = '\n' then undump .number cs else undump .text cs

variable {cs rest : List Char}

theorem digit_hexDigit : ∀ n, n < 16 → digit? (hexDigit n) = some n := by decide

theorem undump_byte (c : UInt8) (rest : List Char) : undump .high (byteColumn c ++ rest) = c :: undump .high rest := by
  have hc := c.toNat_lt
  have hhigh := digit_hexDigit (c.toNat / 16) (by omega)
  have hlow := digit_hexDigit (c.toNat % 16) (by omega)
  have hbyte : UInt8.ofNat (16 * (c.toNat / 16) + c.toNat % 16) = c := by
    rw [Nat.div_add_mod, UInt8.ofNat_toNat]
  simp only [byteColumn, List.cons_append, List.nil_append, undump, hhigh, hlow, hbyte]

/-- What is not scanned, up to the next line. -/
theorem undump_text (h : '\n' ∉ cs) (rest : List Char) : undump .text (cs ++ '\n' :: rest) = undump .number rest := by
  induction cs with
  | nil => rfl
  | cons c cs ih =>
    have hc : c ≠ '\n' := fun heq => h (heq ▸ List.mem_cons_self)
    rw [List.cons_append, undump, if_neg hc]
    exact ih fun hm => h (List.mem_cons_of_mem _ hm)

theorem undump_number (h : '|' ∉ cs) (rest : List Char) : undump .number (cs ++ '|' :: rest) = undump .bar rest := by
  induction cs with
  | nil => rfl
  | cons c cs ih =>
    have hc : c ≠ '|' := fun heq => h (heq ▸ List.mem_cons_self)
    rw [List.cons_append, undump, if_neg hc]
    exact ih fun hm => h (List.mem_cons_of_mem _ hm)

/-! ## The columns -/

theorem bar_not_mem_hexNumber (n : Nat) : '|' ∉ hexNumber n := by
  have hdigit : ∀ d, d < 16 → '|' ≠ (Nat.digitChar d).toUpper := by decide
  induction n using Nat.strongRecOn with
  | ind n ih =>
    rw [hexNumber, Nat.toDigits_eq_if (by decide)]
    split
    · next hlt =>
      rw [List.map_singleton, List.mem_singleton]
      exact hdigit n hlt
    · next hle =>
      rw [List.map_append, List.map_singleton, List.mem_append, List.mem_singleton]
      rintro (hm | heq)
      · exact ih (n / 16) (by omega) hm
      · exact hdigit (n % 16) (by omega) heq

theorem undump_lineStart (iLeftAlign iLineNum : Nat) (rest : List Char) :
    undump .number (lineStart iLeftAlign iLineNum ++ rest) = undump .high rest := by
  have hnumber : '|' ∉ (hexNumber iLineNum).leftpad iLeftAlign '0' ++ ['0', ' '] := by
    rw [List.leftpad]
    simp [bar_not_mem_hexNumber, List.mem_replicate]
  have hsplit : lineStart iLeftAlign iLineNum ++ rest =
      ((hexNumber iLineNum).leftpad iLeftAlign '0' ++ ['0', ' ']) ++ '|' :: ' ' :: rest := by
    simp [lineStart]
  rw [hsplit, undump_number hnumber]
  rfl

theorem textColumn_ne (c : UInt8) : textColumn c ≠ '\n' := by
  have hshown : ∀ n, n < 127 → 31 < n → Char.ofNat n ≠ '\n' := by decide
  rw [textColumn]
  split
  · next hc => exact hshown c.toNat (UInt8.lt_iff_toNat_lt.mp hc.2) (UInt8.lt_iff_toNat_lt.mp hc.1)
  · decide

theorem undump_lineEnd (h : '\n' ∉ cs) (rest : List Char) :
    undump .high (lineEnd cs ++ rest) = undump .number rest := by
  have hbar : digit? '|' = none := by decide
  have hline : '\n' ∉ ' ' :: cs := by simpa using h
  have htext := undump_text hline rest
  have hsplit : lineEnd cs ++ rest = '|' :: (' ' :: cs ++ '\n' :: rest) := by simp [lineEnd]
  rw [hsplit, undump]
  simp only [hbar]
  exact htext

theorem undump_columns (n : Nat) (rest : List Char) :
    undump .text (List.replicate n '_' ++ IOBuffer.columns ++ rest) = undump .number rest := by
  have hline : '\n' ∉ List.replicate n '_' ++ IOBuffer.columns.dropLast := by
    have hcolumns : '\n' ∉ IOBuffer.columns.dropLast := by decide
    simp [hcolumns, List.mem_replicate]
  have hcolumns : IOBuffer.columns = IOBuffer.columns.dropLast ++ ['\n'] := by decide
  have htext := undump_text hline rest
  rw [hcolumns]
  simpa using htext

/-- A last line that is not full has no byte behind those that are there. -/
theorem undump_dumpLast {iMod : Nat} (hmod : iMod < 16) (h : '\n' ∉ cs) :
    undump .high (IOBuffer.dumpLast iMod cs) = [] := by
  rw [IOBuffer.dumpLast]
  split
  · have hblank : digit? ' ' = none := by decide
    obtain ⟨k, hk⟩ : ∃ k, (16 - iMod) * 3 = k + 1 := Nat.exists_eq_succ_of_ne_zero (by omega)
    have hline : '\n' ∉ List.replicate k ' ' ++ ['|', ' '] ++ cs := by simp [h, List.mem_replicate]
    have hsplit : List.replicate (k + 1) ' ' ++ lineEnd cs =
        ' ' :: (List.replicate k ' ' ++ ['|', ' '] ++ cs ++ '\n' :: []) := by
      simp [lineEnd, List.replicate_succ]
    rw [hk, hsplit, undump]
    simp only [hblank]
    exact undump_text hline []
  · rfl

/-- From byte `i` on, the text has the bytes that are left. -/
theorem undump_dumpFrom (iLeftAlign len : Nat) : ∀ (bytes : Bytes) (i : Nat) (szStrBuffer : List Char) (iLineNum : Nat),
    i + bytes.length = len → '\n' ∉ szStrBuffer →
    undump .high ((IOBuffer.dumpFrom iLeftAlign len bytes i szStrBuffer iLineNum).1 ++
      IOBuffer.dumpLast (len % 16) (IOBuffer.dumpFrom iLeftAlign len bytes i szStrBuffer iLineNum).2) = bytes
  | [], i, szStrBuffer, iLineNum, _, hno => undump_dumpLast (Nat.mod_lt _ (by decide)) hno
  | c :: bytes, i, szStrBuffer, iLineNum, hlen, hno => by
    have hno' : '\n' ∉ szStrBuffer ++ [textColumn c] := by
      simp [hno, (textColumn_ne c).symm]
    rw [List.length_cons] at hlen
    rw [IOBuffer.dumpFrom]
    by_cases hfull : (i + 1) % 16 = 0
    · by_cases hlast : i + 1 ≥ len
      · -- the last line is full
        have hbytes : bytes = [] := List.eq_nil_of_length_eq_zero (by omega)
        have hmod : len % 16 = 0 := by rw [show len = i + 1 by omega, hfull]
        have hrest : IOBuffer.dumpLast 0 (szStrBuffer ++ [textColumn c]) = [] := rfl
        simp only [if_pos hfull, if_pos hlast, hmod, hrest]
        rw [List.append_assoc, undump_byte, undump_lineEnd hno', hbytes]
        rfl
      · have ih := undump_dumpFrom iLeftAlign len bytes (i + 1) [] (iLineNum + 1) (by omega) List.not_mem_nil
        simp only [if_pos hfull, if_neg hlast, List.append_assoc]
        rw [undump_byte, undump_lineEnd hno', undump_lineStart, ih]
    · have ih := undump_dumpFrom iLeftAlign len bytes (i + 1) (szStrBuffer ++ [textColumn c]) iLineNum (by omega) hno'
      simp only [if_neg hfull, List.append_assoc]
      rw [undump_byte, ih]

/-- What is in a buffer is read back from its dump, and the dump is put behind what `str` has. -/
theorem dump_lossless (io : IOBuffer) (str : List Char) (bytes : Bytes) (hload : io.load 0 io.dumpSize = .ok bytes)
    (hlines : io.dumpSize / 16 + 1 < 2 ^ 31) :
    ∃ dump, io.Dump str = some (str ++ dump) ∧ undump .text dump = bytes := by
  have hlen := IOBuffer.load_length hload
  by_cases hempty : io.dumpSize = 0
  · have hbytes : bytes = [] := List.eq_nil_of_length_eq_zero (hlen.trans hempty)
    refine ⟨_, by rw [IOBuffer.Dump, if_pos hempty], ?_⟩
    rw [hbytes]
    decide
  · let iLineCount := if io.dumpSize % 16 ≠ 0 then io.dumpSize / 16 + 1 else io.dumpSize / 16
    let iLeftAlign := GetLeftAlignSize (Int64.ofNat iLineCount)
    let lines := IOBuffer.dumpFrom iLeftAlign io.dumpSize bytes 0 [] 0
    have hdump : io.Dump str = some (str ++ (List.replicate iLeftAlign '_' ++ IOBuffer.columns ++
        (lineStart iLeftAlign 0 ++ (lines.1 ++ IOBuffer.dumpLast (io.dumpSize % 16) lines.2)))) := by
      rw [IOBuffer.Dump, if_neg hempty, if_neg (Nat.not_le.mpr hlines), hload]
    refine ⟨_, hdump, ?_⟩
    rw [undump_columns, undump_lineStart]
    exact undump_dumpFrom iLeftAlign io.dumpSize bytes 0 [] 0 (by rw [hlen, Nat.zero_add]) List.not_mem_nil

/-- A line that is full and one that is not. -/
def seventeen : IOBuffer := .new (List.replicate 17 0x7C) 17 17

theorem dump_lossless_seventeen :
    ∃ dump, seventeen.Dump [] = some dump ∧ undump .text dump = List.replicate 17 0x7C :=
  dump_lossless seventeen [] (List.replicate 17 0x7C) rfl (by decide)

end SimpleSvr.L1
