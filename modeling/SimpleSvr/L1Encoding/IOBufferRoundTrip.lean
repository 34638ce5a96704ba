import SimpleSvr.L1Encoding.IOBufferCodec

/-!
# Sequences of typed values

What a chain of `<<` wrote, a chain of `>>` over the same types reads back
exactly when no string of the chain outgrew its 16-bit length prefix
(`codec_iff`): the writer checks the room for a long string, not that its length
fits, and keeps the low 16 bits (`long_string_lost`).

The reader is exact on every input (`decode_exact`): what it accepts is the
encoding of what it returns, and it throws at the first value that is not there
in full.
-/
namespace SimpleSvr.L1

/-- The bytes of an object in memory; `ptrdiff_t` measures it. -/
abbrev Object := { b : Bytes // b.length < 2 ^ 63 }

def encodeAll (vs : List Val) : Bytes := vs.flatMap Val.encode

@[simp] theorem encodeAll_cons (v : Val) (vs : List Val) : encodeAll (v :: vs) = v.encode ++ encodeAll vs := rfl

namespace IOBuffer

variable {pre rest extra : Bytes}

/-! ## Writing -/

theorem insertAll_writing (vs : List Val) (hs : pre.length + rest.length < 2 ^ 63)
    (h : (encodeAll vs).length ≤ rest.length) :
    (writing pre rest).insertAll vs =
      (writing (pre ++ encodeAll vs) (rest.drop (encodeAll vs).length), none) := by
  induction vs generalizing pre rest with
  | nil => simp [insertAll, encodeAll]
  | cons v vs ih =>
    rw [encodeAll_cons, List.length_append] at h
    have hv := @insert_writing pre rest hs v (by omega)
    have hrest : (rest.drop v.encode.length).length = rest.length - v.encode.length := List.length_drop
    have htail := @ih (pre ++ v.encode) (rest.drop v.encode.length)
      (by rw [List.length_append, hrest]; omega) (by omega)
    rw [insertAll, hv]
    simp only []
    rw [htail, List.drop_drop, List.append_assoc, encodeAll_cons, List.length_append]

theorem insertAll_short (vs : List Val) (hs : pre.length + rest.length < 2 ^ 63)
    (h : rest.length < (encodeAll vs).length) : ((writing pre rest).insertAll vs).2 ≠ none := by
  induction vs generalizing pre rest with
  | nil => simp [encodeAll] at h
  | cons v vs ih =>
    rw [encodeAll_cons, List.length_append] at h
    by_cases hv : v.encode.length ≤ rest.length
    · have hrest : (rest.drop v.encode.length).length = rest.length - v.encode.length := List.length_drop
      have htail := @ih (pre ++ v.encode) (rest.drop v.encode.length)
        (by rw [List.length_append, hrest]; omega) (by omega)
      rw [insertAll, insert_writing hs v hv]
      exact htail
    · have hfail := insert_short hs v (Nat.lt_of_not_le hv)
      rw [insertAll]
      split
      · exact Option.some_ne_none _
      · next heq =>
        rw [heq] at hfail
        exact absurd rfl hfail

/-! ## Reading -/

/-- What is there in full is decoded, and is the encoding of what was decoded;
the memory behind it does not matter. -/
theorem extractAll_reading (ts : List Val) (hs : pre.length + rest.length < 2 ^ 63)
    (h : announced (ts.map Val.ty) rest ≤ rest.length) :
    ∃ vs, vs.map Val.ty = ts.map Val.ty ∧ encodeAll vs = rest.take (announced (ts.map Val.ty) rest) ∧
      (∀ s, Val.string s ∈ vs → s.length < 2 ^ 16) ∧
      ∀ extra, (reading pre rest extra).extractAll ts =
        (reading (pre ++ encodeAll vs) (rest.drop (announced (ts.map Val.ty) rest)) extra, vs, none) := by
  induction ts generalizing pre rest with
  | nil => exact ⟨[], rfl, by simp [encodeAll, announced], by simp, by simp [extractAll, encodeAll, announced]⟩
  | cons t ts ih =>
    rw [List.map_cons, announced] at h ⊢
    have hrest : (rest.drop (t.ty.need rest)).length = rest.length - t.ty.need rest := List.length_drop
    have hlen : (rest.take (t.ty.need rest)).length = t.ty.need rest := List.length_take_of_le (by omega)
    obtain ⟨vs, hty, henc, hstr, hall⟩ := @ih (pre ++ rest.take (t.ty.need rest)) (rest.drop (t.ty.need rest))
      (by rw [List.length_append, hrest, hlen]; omega) (by omega)
    refine ⟨t.ty.decode (rest.take (t.ty.need rest)) :: vs, ?_, ?_, ?_, ?_⟩
    · rw [List.map_cons, hty, Ty.ty_decode]
    · rw [encodeAll_cons, Ty.encode_decode (by omega), henc, List.take_add]
    · intro s hmem
      rcases List.mem_cons.mp hmem with heq | hmem
      · exact Ty.decode_short heq.symm
      · exact hstr s hmem
    · intro extra
      rw [extractAll, extract_reading hs t (by omega)]
      simp only []
      rw [hall extra, List.drop_drop, encodeAll_cons, Ty.encode_decode (by omega), List.append_assoc]

/-- The throw comes at the first value that is not there in full. -/
theorem extractAll_short (ts : List Val) (hs : pre.length + rest.length < 2 ^ 63)
    (h : rest.length < announced (ts.map Val.ty) rest) :
    ∃ k v, ts[k]? = some v ∧ announced ((ts.take k).map Val.ty) rest ≤ rest.length ∧
      rest.length < announced ((ts.take k).map Val.ty) rest +
        v.ty.need (rest.drop (announced ((ts.take k).map Val.ty) rest)) ∧
      ∀ extra, (reading pre rest extra).extractAll ts =
        (((reading pre rest extra).extractAll (ts.take k)).1,
          ((reading pre rest extra).extractAll (ts.take k)).2.1 ++ ts.drop k, some .noSpaceToRead) := by
  induction ts generalizing pre rest with
  | nil => exact absurd h (Nat.not_lt_zero _)
  | cons t ts ih =>
    by_cases hfit : t.ty.need rest ≤ rest.length
    · rw [List.map_cons, announced] at h
      have hrest : (rest.drop (t.ty.need rest)).length = rest.length - t.ty.need rest := List.length_drop
      have hlen : (rest.take (t.ty.need rest)).length = t.ty.need rest := List.length_take_of_le hfit
      obtain ⟨k, v, hk, hle, hlt, hall⟩ := @ih (pre ++ rest.take (t.ty.need rest)) (rest.drop (t.ty.need rest))
        (by rw [List.length_append, hrest, hlen]; omega) (by omega)
      refine ⟨k + 1, v, hk, ?_, ?_, ?_⟩
      · rw [List.take_succ_cons, List.map_cons, announced]
        omega
      · rw [List.take_succ_cons, List.map_cons, announced, ← List.drop_drop]
        omega
      · intro extra
        rw [List.take_succ_cons, List.drop_succ_cons, extractAll, extractAll, extract_reading hs t hfit]
        simp only []
        rw [hall extra]
        rfl
    · have hlt : rest.length < t.ty.need rest := Nat.lt_of_not_le hfit
      refine ⟨0, t, rfl, Nat.zero_le _, ?_, ?_⟩
      · show rest.length < 0 + t.ty.need (rest.drop 0)
        rwa [Nat.zero_add, List.drop_zero]
      · intro extra
        rw [extractAll, extract_short hs t hlt]
        rfl

/-! ## Round trips -/

/-- An `IOBuffer` over the memory of `io`, told `size`, that may read what `io` wrote. -/
def reader (io : IOBuffer) (size : UInt64) : IOBuffer where
  buffer := io.buffer
  bufferSize := size
  availableReadSize := io.writePosition

/-- Reading does not look at the size of the buffer. -/
theorem get_resize (io : IOBuffer) (n : Nat) (size : UInt64) :
    ({ io with bufferSize := size } : IOBuffer).get n =
      (io.get n).map fun p => ({ p.1 with bufferSize := size }, p.2) := by
  by_cases hc : io.buffer = none ∨ io.readPosition + UInt64.ofNat n > io.availableReadSize
  · rw [get, get, if_pos hc, if_pos hc]
    rfl
  · rw [get, get, if_neg hc, if_neg hc]
    have hload : ({ io with bufferSize := size } : IOBuffer).load io.readPosition.toNat n =
        io.load io.readPosition.toNat n := rfl
    rw [hload]
    cases io.load io.readPosition.toNat n <;> rfl

theorem getString_resize (io : IOBuffer) (val : Bytes) (size : UInt64) :
    ({ io with bufferSize := size } : IOBuffer).getString val =
      ({ (io.getString val).1 with bufferSize := size }, (io.getString val).2) := by
  by_cases hc : io.buffer = none ∨ io.readPosition + 2 > io.availableReadSize
  · rw [getString, getString, if_pos hc, if_pos hc]
  · have hload (io : IOBuffer) (pos n : Nat) :
        ({ io with bufferSize := size } : IOBuffer).load pos n = io.load pos n := rfl
    rw [getString, getString, if_neg hc, if_neg hc, hload]
    cases io.load io.readPosition.toNat 2 with
    | error e => rfl
    | ok head =>
      simp only []
      by_cases hc' : io.readPosition + 2 + UInt64.ofNat (ofBe head) > io.availableReadSize
      · rw [if_pos hc', if_pos hc']
      · rw [if_neg hc', if_neg hc']
        have hload' := hload { io with readPosition := io.readPosition + 2 } (io.readPosition + 2).toNat
          (UInt64.ofNat (ofBe head)).toNat
        simp only [] at hload'
        rw [hload']
        split <;> rfl

theorem extract_resize (io : IOBuffer) (v : Val) (size : UInt64) :
    ({ io with bufferSize := size } : IOBuffer).extract v =
      ({ (io.extract v).1 with bufferSize := size }, (io.extract v).2) := by
  by_cases hv : v.ty = .string
  · cases v with
    | string s => rw [extract, extract, getString_resize]
    | _ => cases hv
  · rw [extract_int _ hv, extract_int _ hv, get_resize]
    cases io.get v.ty.width <;> rfl

theorem extractAll_resize (io : IOBuffer) (ts : List Val) (size : UInt64) :
    ({ io with bufferSize := size } : IOBuffer).extractAll ts =
      ({ (io.extractAll ts).1 with bufferSize := size }, (io.extractAll ts).2) := by
  induction ts generalizing io with
  | nil => rfl
  | cons t ts ih =>
    rw [extractAll, extractAll, extract_resize]
    obtain ⟨io', v, e⟩ := io.extract t
    cases e with
    | none => simp only [ih]
    | some e => rfl

/-- Writing `vs` into an empty buffer over `mem`, where it throws nothing, is undone by
reading variables of the same types. -/
def RoundTrips (mem : Object) (vs : List Val) : Prop :=
  ∀ io, (new mem.1 (UInt64.ofNat mem.1.length) 0).insertAll vs = (io, none) →
    ∀ (size : UInt64) (ts : List Val), ts.map Val.ty = vs.map Val.ty →
      ∃ io', (io.reader size).extractAll ts = (io', vs, none) ∧ io'.readPosition = io.writePosition

theorem announced_encodeAll {vs : List Val} (h : ∀ s, Val.string s ∈ vs → s.length < 2 ^ 16) (rest : Bytes) :
    announced (vs.map Val.ty) (encodeAll vs ++ rest) = (encodeAll vs).length := by
  induction vs with
  | nil => rfl
  | cons v vs ih =>
    have hneed := Val.need_encode (fun s hs => h s (hs ▸ List.mem_cons_self)) (encodeAll vs ++ rest)
    rw [List.map_cons, announced, encodeAll_cons, List.append_assoc, hneed, List.drop_left' rfl,
      ih fun s hs => h s (List.mem_cons_of_mem _ hs), List.length_append]

/-- Decoding determines the values: the encodings of two lists of one type sequence
without long strings differ unless the lists agree. -/
theorem encodeAll_inj {vs ws : List Val} (hty : vs.map Val.ty = ws.map Val.ty)
    (hv : ∀ s, Val.string s ∈ vs → s.length < 2 ^ 16) (hw : ∀ s, Val.string s ∈ ws → s.length < 2 ^ 16)
    (h : encodeAll vs = encodeAll ws) : vs = ws := by
  induction vs generalizing ws with
  | nil =>
    cases ws with
    | nil => rfl
    | cons w ws => simp at hty
  | cons v vs ih =>
    cases ws with
    | nil => simp at hty
    | cons w ws =>
      obtain ⟨hvw, htl⟩ := List.cons.inj hty
      have hnv := Val.need_encode (fun s hs => hv s (hs ▸ List.mem_cons_self)) (encodeAll vs)
      have hnw := Val.need_encode (fun s hs => hw s (hs ▸ List.mem_cons_self)) (encodeAll ws)
      rw [encodeAll_cons, encodeAll_cons] at h
      rw [h, hvw, hnw] at hnv
      obtain ⟨hhead, htail⟩ := List.append_inj h hnv.symm
      have heq : v = w := by rw [← Val.decode_encode v, hhead, hvw, Val.decode_encode]
      rw [heq, ih htl (fun s hs => hv s (List.mem_cons_of_mem _ hs))
        (fun s hs => hw s (List.mem_cons_of_mem _ hs)) htail]

/-- The buffer that reads what `writing` wrote. -/
theorem writing_reader (pre rest : Bytes) (size : UInt64) :
    (writing pre rest).reader size = { reading [] pre rest with bufferSize := size } := by
  simp [reader, writing, reading]

theorem short_strings_trip {mem : Object} {vs : List Val} (h : ∀ s, Val.string s ∈ vs → s.length < 2 ^ 16) :
    RoundTrips mem vs := by
  intro io hio size ts hty
  have hmem := mem.2
  have hs : ([] : Bytes).length + mem.1.length < 2 ^ 63 := by rw [List.length_nil]; omega
  rw [new_writing] at hio
  by_cases hfit : (encodeAll vs).length ≤ mem.1.length
  · rw [insertAll_writing vs hs hfit] at hio
    obtain rfl := (Prod.mk.inj hio).1
    have hann := announced_encodeAll h []
    rw [List.append_nil, ← hty] at hann
    obtain ⟨ws, hws, henc, hstr, hall⟩ := @extractAll_reading [] (encodeAll vs) ts
      (by rw [List.length_nil]; omega) (Nat.le_of_eq hann)
    rw [hann, List.take_length] at henc
    obtain rfl := encodeAll_inj (hws.trans hty) hstr h henc
    rw [List.nil_append, writing_reader, extractAll_resize, hall]
    refine ⟨_, rfl, ?_⟩
    simp [reading, writing]
  · exact absurd (congrArg Prod.snd hio) (insertAll_short vs hs (Nat.lt_of_not_le hfit))

/-- What is read back has only strings that a prefix can announce. -/
theorem long_string_lost {mem : Object} {vs : List Val} {s : Bytes} (hmem : Val.string s ∈ vs)
    (hlong : 2 ^ 16 ≤ s.length) (hfit : (encodeAll vs).length ≤ mem.1.length) : ¬RoundTrips mem vs := by
  intro hrt
  have hm := mem.2
  have hs : ([] : Bytes).length + mem.1.length < 2 ^ 63 := by rw [List.length_nil]; omega
  have hw := insertAll_writing vs hs hfit
  rw [List.nil_append, ← new_writing] at hw
  obtain ⟨io', hread, -⟩ := hrt _ hw 0 vs rfl
  have hs' : ([] : Bytes).length + (encodeAll vs).length < 2 ^ 63 := by rw [List.length_nil]; omega
  rw [writing_reader, extractAll_resize] at hread
  by_cases hann : announced (vs.map Val.ty) (encodeAll vs) ≤ (encodeAll vs).length
  · obtain ⟨ws, -, -, hstr, hall⟩ := extractAll_reading vs hs' hann
    rw [hall] at hread
    have hlt := hstr s ((Prod.mk.inj (Prod.mk.inj hread).2).1 ▸ hmem)
    omega
  · obtain ⟨k, v, -, -, -, hall⟩ := extractAll_short vs hs' (Nat.lt_of_not_le hann)
    rw [hall] at hread
    exact nomatch (Prod.mk.inj (Prod.mk.inj hread).2).2

/-- A chain of `<<` that throws nothing is undone by `>>` exactly when every string
is shorter than 2^16; a chain that the memory has no room for throws. -/
theorem codec_iff (mem : Object) (vs : List Val) :
    RoundTrips mem vs ↔
      (∀ s, Val.string s ∈ vs → s.length < 2 ^ 16) ∨ mem.1.length < (encodeAll vs).length := by
  constructor
  · intro hrt
    by_cases hfit : (encodeAll vs).length ≤ mem.1.length
    · left
      intro s hmem
      by_contra hlong
      exact long_string_lost hmem (Nat.le_of_not_lt hlong) hfit hrt
    · exact .inr (Nat.lt_of_not_le hfit)
  · rintro (h | h)
    · exact short_strings_trip h
    · intro io hio
      have hs : ([] : Bytes).length + mem.1.length < 2 ^ 63 := by
        rw [List.length_nil, Nat.zero_add]
        exact mem.2
      rw [new_writing] at hio
      exact absurd (congrArg Prod.snd hio) (insertAll_short vs hs h)

/-- 65536 characters that fit the buffer come back as the empty string. -/
theorem codec_long :
    ¬RoundTrips ⟨List.replicate 65538 0, by rw [List.length_replicate]; decide⟩
      [.string (List.replicate 65536 97)] := by
  apply long_string_lost List.mem_cons_self
  · rw [List.length_replicate]
    decide
  · have henc : (encodeAll [Val.string (List.replicate 65536 97)]).length = 65538 := by
      rw [encodeAll_cons, List.length_append, Val.length_encode_string, List.length_replicate]
      rfl
    exact Nat.le_of_eq (henc.trans List.length_replicate.symm)

/-! ## Arbitrary input -/

/-- A buffer that may read `b`, in memory that goes on with `extra`. -/
def source (b : Object) (extra : Bytes) (size : UInt64) : IOBuffer :=
  new (b.1 ++ extra) size (UInt64.ofNat b.1.length)

theorem source_eq (b : Object) (extra : Bytes) (size : UInt64) :
    source b extra size = { reading [] b.1 extra with bufferSize := size } := by
  simp [source, new, reading]

/-- Reading moves the cursor of `source`, and nothing else. -/
theorem source_advance (b : Object) (extra : Bytes) (size : UInt64) {n : Nat} (h : n ≤ b.1.length) :
    ({ reading (b.1.take n) (b.1.drop n) extra with bufferSize := size } : IOBuffer) =
      { source b extra size with readPosition := UInt64.ofNat n } := by
  have hlen : (b.1.take n).length = n := List.length_take_of_le h
  have hsum : n + (b.1.length - n) = b.1.length := by omega
  simp only [reading, source, new, List.take_append_drop, hlen, List.length_drop, hsum]

theorem source_read (b : Object) (ts : List Val) (h : announced (ts.map Val.ty) b.1 ≤ b.1.length) :
    ∃ vs, vs.map Val.ty = ts.map Val.ty ∧ encodeAll vs = b.1.take (announced (ts.map Val.ty) b.1) ∧
      ∀ extra size, (source b extra size).extractAll ts =
        ({ source b extra size with readPosition := UInt64.ofNat (announced (ts.map Val.ty) b.1) }, vs, none) := by
  have hs : ([] : Bytes).length + b.1.length < 2 ^ 63 := by
    rw [List.length_nil, Nat.zero_add]
    exact b.2
  obtain ⟨vs, hty, henc, -, hall⟩ := extractAll_reading ts hs h
  refine ⟨vs, hty, henc, fun extra size => ?_⟩
  rw [source_eq, extractAll_resize, hall, henc, ← source_eq, ← source_advance b extra size h]
  rfl

/-- Either every value is there: what comes out is written back as the bytes that were
consumed. Or the input is shorter than it announces itself: the first value that is not
there in full throws, and the cursor and the variables stand as before it. In both cases
only `b` decides, whatever the memory behind it. -/
theorem decode_exact (b : Object) (ts : List Val) :
    (announced (ts.map Val.ty) b.1 ≤ b.1.length ∧ ∃ vs n, vs.map Val.ty = ts.map Val.ty ∧
      (∀ extra size, (source b extra size).extractAll ts =
        ({ source b extra size with readPosition := UInt64.ofNat n }, vs, none)) ∧
      n ≤ b.1.length ∧ ∀ mem, mem.length = n → ∃ io, (new mem (UInt64.ofNat n) 0).insertAll vs = (io, none) ∧
        io.buffer = some (b.1.take n)) ∨
    (b.1.length < announced (ts.map Val.ty) b.1 ∧ ∃ k v vs n, ts[k]? = some v ∧
      b.1.length < n + v.ty.need (b.1.drop n) ∧
      ∀ extra size,
        (source b extra size).extractAll (ts.take k) =
          ({ source b extra size with readPosition := UInt64.ofNat n }, vs, none) ∧
        (source b extra size).extractAll ts =
          ({ source b extra size with readPosition := UInt64.ofNat n }, vs ++ ts.drop k, some .noSpaceToRead)) := by
  have hs : ([] : Bytes).length + b.1.length < 2 ^ 63 := by
    rw [List.length_nil, Nat.zero_add]
    exact b.2
  by_cases h : announced (ts.map Val.ty) b.1 ≤ b.1.length
  · left
    obtain ⟨vs, hty, henc, hall⟩ := source_read b ts h
    refine ⟨h, vs, _, hty, hall, h, fun mem hmem => ?_⟩
    have hlen : (encodeAll vs).length = mem.length := by rw [henc, List.length_take_of_le h, hmem]
    rw [← hmem, new_writing, insertAll_writing vs (by rw [List.length_nil]; omega) (Nat.le_of_eq hlen)]
    refine ⟨_, rfl, ?_⟩
    rw [writing, List.drop_eq_nil_of_le (Nat.le_of_eq hlen.symm), List.append_nil, List.nil_append, henc, hmem]
  · right
    have hlt := Nat.lt_of_not_le h
    obtain ⟨k, v, hk, hle, hshort, hall⟩ := extractAll_short ts hs hlt
    obtain ⟨vs, -, -, hread⟩ := source_read b (ts.take k) hle
    refine ⟨hlt, k, v, vs, _, hk, hshort, fun extra size => ⟨hread extra size, ?_⟩⟩
    have hprev := hread extra size
    rw [source_eq, extractAll_resize] at hprev
    obtain ⟨hio, hvs⟩ := Prod.mk.inj hprev
    rw [source_eq, extractAll_resize, hall, ← hio, hvs]

end IOBuffer
end SimpleSvr.L1
