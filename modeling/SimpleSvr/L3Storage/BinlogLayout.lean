import SimpleSvr.L3Storage.Binlog

/-!
# The layout of a log file

`chunk B n h r` is what a write of record `r` (under block head `h`) adds to a
data area of `n` bytes cut into blocks of `B`: the record alone when it fits
into the current block, a head and the record on a block boundary, and else
zeros up to the boundary first. `place` is where the record then starts.
`area` is the data area after a list of writes.

* `write_spec`: `Write` of a payload that fits into a block appends exactly a
  `chunk` and returns the `place`; with `O_APPEND` the zeros are missing.
* `write_rejects`: a payload whose truncated record size exceeds the block
  size is rejected.
* `writeAll_spec`: a list of such payloads adds its `area`.
* `area_at`: what a reader finds from the end of one record to the next.
-/
namespace SimpleSvr.L3.Binlog
open L1

/-! ## Heads as bytes -/

theorem length_record (p : Bytes) : (record p).length = p.length + 6 := by
  simp [record]; omega

theorem except_bind_ok {ε α β : Type} {x : Except ε α} {a : α} (f : α → Except ε β) (h : x = .ok a) :
    (x >>= f) = f a := by subst h; rfl

theorem zeroed_eq (n : Nat) : zeroed n = IOBuffer.writing [] (List.replicate n 0) := by
  rw [zeroed, ← IOBuffer.new_writing, List.length_replicate]

theorem blockHeadBuf_eq (time : UInt32) :
    blockHeadBuf time = [blockheadMagic] ++ be 4 time.toNat ++ [0, 0, 0] := by
  have h1 := @IOBuffer.put_writing [] (List.replicate 8 0) 1 blockheadMagic.toNat (by decide) (by decide)
  have h2 := @IOBuffer.put_writing ([] ++ be 1 blockheadMagic.toNat) ((List.replicate 8 0).drop 1) 4 time.toNat
    (by decide) (by decide)
  have hrun : putBlockHead (zeroed blockheadSize) { cMagic := blockheadMagic, dwCreateTime := time } =
      .ok (IOBuffer.writing ([] ++ be 1 blockheadMagic.toNat ++ be 4 time.toNat) [0, 0, 0]) := by
    rw [zeroed_eq]
    exact (except_bind_ok _ h1).trans h2
  rw [blockHeadBuf, hrun]
  rfl

theorem length_blockHeadBuf (time : UInt32) : (blockHeadBuf time).length = 8 := by
  rw [blockHeadBuf_eq]; simp

/-- The bytes of a file head that are not zero filling. -/
def headBytes (stHead : BinlogHead) : Bytes :=
  stHead.cMagic ++ be 2 stHead.wVersion.toNat ++ be 2 stHead.wDataOffset.toNat ++
    be 4 stHead.dwBlockSize.toNat ++ be 4 stHead.dwCreateTime.toNat

theorem length_headBytes {stHead : BinlogHead} (hm : stHead.cMagic.length = 8) :
    (headBytes stHead).length = 20 := by
  simp [headBytes, hm]

theorem putHead_writing {stHead : BinlogHead} {rest : Bytes} (hm : stHead.cMagic.length = 8)
    (hn : 20 ≤ rest.length) (hs : rest.length < 2 ^ 64) :
    putHead (IOBuffer.writing [] rest) stHead = .ok (IOBuffer.writing (headBytes stHead) (rest.drop 20)) := by
  have h1 : (IOBuffer.writing [] rest).write stHead.cMagic 8 =
      .ok (IOBuffer.writing stHead.cMagic (rest.drop 8), 8) := by
    have := @IOBuffer.write_writing [] rest stHead.cMagic (by omega) (by simpa)
    rwa [hm] at this
  have step : ∀ {pre : Bytes} {k n v : Nat}, k + n ≤ 20 → pre.length = k →
      (IOBuffer.writing pre (rest.drop k)).put n v = .ok (IOBuffer.writing (pre ++ be n v) (rest.drop (k + n))) := by
    intro pre k n v hk hpre
    have hl : (rest.drop k).length = rest.length - k := List.length_drop
    rw [IOBuffer.put_writing (by omega) (by omega), List.drop_drop]
  rw [putHead, except_bind_ok _ h1]
  simp only [IOBuffer.putUInt16, IOBuffer.putUInt32]
  rw [except_bind_ok _ (step (by decide) hm), except_bind_ok _ (step (by decide) (by simp [hm])),
    except_bind_ok _ (step (by decide) (by simp [hm])), step (by decide) (by simp [hm])]
  rfl

theorem fileHeadBuf_eq {stHead : BinlogHead} (hm : stHead.cMagic.length = 8) :
    fileHeadBuf stHead = headBytes stHead ++ List.replicate 4076 0 := by
  have hn : (List.replicate headSize (0 : UInt8)).length = 4096 := List.length_replicate
  rw [fileHeadBuf, zeroed_eq, putHead_writing hm (by omega) (by omega), List.drop_replicate]
  rfl

theorem length_fileHeadBuf {stHead : BinlogHead} (hm : stHead.cMagic.length = 8) :
    (fileHeadBuf stHead).length = 4096 := by
  rw [fileHeadBuf_eq hm, List.length_append, length_headBytes hm, List.length_replicate]

/-- Reading a head back. -/
theorem getHead_reading {stHead : BinlogHead} (old : BinlogHead) {rest : Bytes}
    (hm : stHead.cMagic.length = 8) (hs : rest.length + 20 < 2 ^ 64) :
    getHead (IOBuffer.reading [] (headBytes stHead ++ rest) []) old = .ok stHead := by
  have read : ∀ tail : Bytes, tail.length + 8 < 2 ^ 64 →
      (IOBuffer.reading [] (stHead.cMagic ++ tail) []).read 8 =
        .ok (IOBuffer.reading stHead.cMagic tail [], some stHead.cMagic) := by
    intro tail ht
    have := @IOBuffer.read_reading [] tail [] stHead.cMagic (by simp [hm]; omega)
    rwa [hm] at this
  simp only [headBytes, List.append_assoc, getHead]
  rw [except_bind_ok _ (read _ (by simp; omega)),
    except_bind_ok _ (IOBuffer.getUInt16_reading _ (by simp [hm]; omega)),
    except_bind_ok _ (IOBuffer.getUInt16_reading _ (by simp [hm]; omega)),
    except_bind_ok _ (IOBuffer.getUInt32_reading _ (by simp [hm]; omega)),
    except_bind_ok _ (IOBuffer.getUInt32_reading _ (by simp [hm]; omega))]
  rfl

/-! ## Chunks -/

/-- What a write of record `r` under head `h` appends to a data area of `n`
bytes; with `O_APPEND` the filling is lost. -/
def added (app : Bool) (B n : Nat) (h r : Bytes) : Bytes :=
  if n % B = 0 then h ++ r
  else if B - n % B < r.length then (if app then [] else List.replicate (B - n % B) 0) ++ h ++ r
  else r

def chunk (B n : Nat) (h r : Bytes) : Bytes := added false B n h r

/-- Where a record of `r` bytes starts. -/
def place (B n r : Nat) : Nat :=
  if n % B = 0 then n + 8 else if B - n % B < r then n + (B - n % B) + 8 else n

/-- The current block has no room for a record of `r` bytes and is padded. -/
def Pads (B n r : Nat) : Prop := n % B ≠ 0 ∧ B - n % B < r

instance (B n r : Nat) : Decidable (Pads B n r) := inferInstanceAs (Decidable (_ ∧ _))

theorem added_of_not_pads {app : Bool} {B n : Nat} {h r : Bytes} (hp : ¬Pads B n r.length) :
    added app B n h r = chunk B n h r := by
  unfold chunk added
  by_cases h0 : n % B = 0
  · rw [if_pos h0, if_pos h0]
  · have hr : ¬B - n % B < r.length := fun hr => hp ⟨h0, hr⟩
    rw [if_neg h0, if_neg h0, if_neg hr, if_neg hr]

/-- The record ends the chunk and starts at its `place`. -/
theorem chunk_eq (B n : Nat) {h r : Bytes} (hh : h.length = 8) :
    ∃ gap, chunk B n h r = gap ++ r ∧ n + gap.length = place B n r.length := by
  unfold chunk added place
  by_cases h0 : n % B = 0
  · rw [if_pos h0, if_pos h0]
    exact ⟨h, rfl, by rw [hh]⟩
  · rw [if_neg h0, if_neg h0]
    by_cases hr : B - n % B < r.length
    · rw [if_pos hr, if_pos hr]
      exact ⟨List.replicate (B - n % B) 0 ++ h, rfl, by simp [hh]; omega⟩
    · rw [if_neg hr, if_neg hr]
      exact ⟨[], rfl, rfl⟩

theorem length_chunk (B n : Nat) {h r : Bytes} (hh : h.length = 8) :
    n + (chunk B n h r).length = place B n r.length + r.length := by
  obtain ⟨gap, e, hg⟩ := chunk_eq (r := r) B n hh
  rw [e, List.length_append]
  omega

/-- A data area ends on a block boundary or behind a block head. -/
def Settled (B n : Nat) : Prop := n % B = 0 ∨ 8 ≤ n % B

theorem boundary_mod (B n : Nat) (hB : 0 < B) : (n + (B - n % B)) % B = 0 := by
  have hlt := Nat.mod_lt n hB
  have h1 : n + (B - n % B) = B * (n / B + 1) := by
    have := Nat.div_add_mod n B
    rw [Nat.mul_add, Nat.mul_one]
    omega
  rw [h1, Nat.mul_mod_right]

theorem add_mod_of_zero {B m k : Nat} (h : m % B = 0) (hk : k < B) : (m + k) % B = k := by
  rw [Nat.add_mod, h, Nat.zero_add, Nat.mod_mod, Nat.mod_eq_of_lt hk]

/-- A record that fits into a block lies in one block, behind its head. -/
theorem place_fits {B n r : Nat} (hr : r + 8 ≤ B) (h0 : 0 < r) (hs : Settled B n) :
    8 ≤ place B n r % B ∧ place B n r % B + r ≤ B := by
  have hlt := Nat.mod_lt n (show 0 < B by omega)
  unfold place
  split
  · next hz =>
    rw [add_mod_of_zero hz (by omega)]
    omega
  · next hz =>
    split
    · rw [add_mod_of_zero (boundary_mod B n (by omega)) (by omega)]
      omega
    · have := hs.resolve_left hz
      omega

theorem settled_end {B n r : Nat} (hr : r + 8 ≤ B) (h0 : 0 < r) (hs : Settled B n) :
    Settled B (place B n r + r) := by
  obtain ⟨h1, h2⟩ := place_fits hr h0 hs
  have hd := Nat.div_add_mod (place B n r) B
  by_cases he : place B n r % B + r = B
  · left
    rw [← hd, Nat.add_assoc, he, Nat.add_mod_right, Nat.mul_mod_right]
  · right
    rw [← hd, Nat.add_assoc, add_mod_of_zero (Nat.mul_mod_right _ _) (by omega)]
    omega

/-! ## Data areas -/

/-- A written payload, with the clock read by `Write`. -/
abbrev Entry := UInt32 × Bytes

def area (B : Nat) (l : List Entry) : Bytes :=
  l.foldl (fun A e => A ++ chunk B A.length (blockHeadBuf e.1) (record e.2)) []

/-- Every payload fits into a block of `B` bytes, with both heads. -/
def Fits (B : Nat) (l : List Entry) : Prop := ∀ e ∈ l, e.2.length + 14 ≤ B

instance (B : Nat) (l : List Entry) : Decidable (Fits B l) := inferInstanceAs (Decidable (∀ _ ∈ _, _))

@[simp] theorem area_nil (B : Nat) : area B [] = [] := rfl

theorem area_concat (B : Nat) (l : List Entry) (e : Entry) :
    area B (l ++ [e]) = area B l ++ chunk B (area B l).length (blockHeadBuf e.1) (record e.2) := by
  simp [area]

theorem area_grows (B : Nat) (l m : List Entry) : area B l <+: area B (l ++ m) := by
  induction m using List.reverseRecOn with
  | nil => simp
  | append_singleton m e ih =>
    rw [← List.append_assoc, area_concat]
    exact ih.trans (List.prefix_append _ _)

theorem length_area_concat (B : Nat) (l : List Entry) (e : Entry) :
    (area B (l ++ [e])).length =
      place B (area B l).length (e.2.length + 6) + (e.2.length + 6) := by
  rw [area_concat, List.length_append, length_chunk _ _ (length_blockHeadBuf _), length_record]

theorem area_settled {B : Nat} {l : List Entry} (hl : Fits B l) : Settled B (area B l).length := by
  induction l using List.reverseRecOn with
  | nil => exact .inl (Nat.zero_mod B)
  | append_singleton l e ih =>
    rw [length_area_concat]
    have he := hl e (by simp)
    exact settled_end (by omega) (by omega) (ih fun e' h => hl e' (by simp [h]))

/-- The end of the first `i` records. -/
def endOf (B : Nat) (l : List Entry) (i : Nat) : Nat := (area B (l.take i)).length

variable {B : Nat} {l : List Entry} {e : Entry} {i : Nat}

theorem endOf_zero : endOf B l 0 = 0 := rfl

theorem endOf_length : endOf B l l.length = (area B l).length := by
  rw [endOf, List.take_length]

theorem take_succ_of_getElem? (he : l[i]? = some e) : l.take (i + 1) = l.take i ++ [e] := by
  rw [List.take_add_one, he]; rfl

theorem endOf_succ (he : l[i]? = some e) :
    endOf B l (i + 1) = place B (endOf B l i) (e.2.length + 6) + (e.2.length + 6) := by
  rw [endOf, take_succ_of_getElem? he, length_area_concat]
  rfl

theorem endOf_le (i : Nat) : endOf B l i ≤ (area B l).length := by
  have h := (area_grows B (l.take i) (l.drop i)).length_le
  rwa [List.take_append_drop] at h

theorem endOf_mono {j : Nat} (h : i ≤ j) : endOf B l i ≤ endOf B l j := by
  have := endOf_le (B := B) (l := l.take j) i
  rwa [endOf, List.take_take, Nat.min_eq_left h] at this

theorem lt_of_endOf_lt {j : Nat} (h : endOf B l i < endOf B l j) : i < j := by
  by_contra hij
  exact Nat.not_lt.mpr (endOf_mono (Nat.not_lt.mp hij)) h

theorem getElem?_of_endOf_lt (h : endOf B l i < (area B l).length) : ∃ e, l[i]? = some e := by
  rw [← endOf_length] at h
  exact ⟨_, List.getElem?_eq_getElem (lt_of_endOf_lt h)⟩

theorem endOf_append (m : List Entry) (hi : i ≤ l.length) : endOf B (l ++ m) i = endOf B l i := by
  rw [endOf, endOf, List.take_append_of_le_length hi]

theorem endOf_settled (hl : Fits B l) : Settled B (endOf B l i) :=
  area_settled fun e h => hl e (List.mem_of_mem_take h)

theorem fits_get (hl : Fits B l) (he : l[i]? = some e) : e.2.length + 14 ≤ B :=
  hl e (List.mem_of_getElem? he)

/-- From the end of one record on, the area goes on with the next chunk. -/
theorem area_at (he : l[i]? = some e) :
    chunk B (endOf B l i) (blockHeadBuf e.1) (record e.2) <+: (area B l).drop (endOf B l i) := by
  have hpre := area_grows B (l.take (i + 1)) (l.drop (i + 1))
  rw [List.take_append_drop, take_succ_of_getElem? he, area_concat] at hpre
  obtain ⟨rest, hrest⟩ := hpre
  refine ⟨rest, ?_⟩
  rw [← hrest, List.append_assoc, endOf, List.drop_left]

theorem prefix_drop {a b c : Bytes} (h : a ++ b <+: c) : b <+: c.drop a.length := by
  obtain ⟨d, rfl⟩ := h
  rw [List.append_assoc, List.drop_left]
  exact List.prefix_append b d

/-- The next record is at its place, ... -/
theorem record_at (he : l[i]? = some e) :
    record e.2 <+: (area B l).drop (place B (endOf B l i) (e.2.length + 6)) := by
  obtain ⟨gap, hc, hg⟩ := chunk_eq (r := record e.2) B (endOf B l i) (length_blockHeadBuf e.1)
  have h := area_at (B := B) he
  rw [hc] at h
  rw [length_record] at hg
  have := prefix_drop h
  rwa [List.drop_drop, hg] at this

/-- ... a block head is on the boundary where it starts a block, ... -/
theorem head_at (he : l[i]? = some e) (h0 : endOf B l i % B = 0) :
    blockHeadBuf e.1 <+: (area B l).drop (endOf B l i) := by
  have h := area_at (B := B) he
  rw [chunk, added, if_pos h0] at h
  exact (List.prefix_append _ _).trans h

/-- ... and where it does not fit, zeros up to the boundary and a block head. -/
theorem padding_at (hB : 0 < B) (he : l[i]? = some e) (hp : Pads B (endOf B l i) (e.2.length + 6)) :
    (area B l)[endOf B l i]? = some 0 ∧
      blockHeadBuf e.1 <+: (area B l).drop (endOf B l i + (B - endOf B l i % B)) := by
  obtain ⟨h0, hr⟩ := hp
  have h := area_at (B := B) he
  rw [chunk, added, if_neg h0, length_record, if_pos hr] at h
  simp only [Bool.false_eq_true, if_false] at h
  constructor
  · obtain ⟨rest, hrest⟩ := h
    have hlt := Nat.mod_lt (endOf B l i) hB
    have h1 : ((area B l).drop (endOf B l i))[0]? = some 0 := by
      rw [← hrest, show B - endOf B l i % B = B - endOf B l i % B - 1 + 1 by omega, List.replicate_succ]
      rfl
    rwa [List.getElem?_drop, Nat.add_zero] at h1
  · rw [List.append_assoc] at h
    have := prefix_drop h
    rw [List.drop_drop, List.length_replicate] at this
    exact (List.prefix_append _ _).trans this

/-! ## Write -/

/-- An open handle on a log with block size `B`, head bytes `head` and data
area `Z`; `app` says that it was opened with `O_APPEND`. -/
structure Handle (b : Binlog) (sys : Sys) (app : Bool) (B : Nat) (head Z : Bytes) : Prop where
  fd : b.fdBinlog ≠ -1
  desc : ∃ pos, sys.desc b.fdBinlog = some ⟨pos, app⟩ ∧ (app = false → pos = sys.data.length)
  data : sys.data = head ++ Z
  head : head.length = 4096
  offset : b.stHead.wDataOffset.toNat = 4096
  block : b.stHead.dwBlockSize.toNat = B

theorem remainSize_eq {stHead : BinlogHead} {n : Nat} (ho : stHead.wDataOffset.toNat = 4096)
    (hb : stHead.dwBlockSize.toNat = B) (h0 : 0 < B) : remainSize stHead (4096 + n) = B - n % B := by
  have hB : B < 2 ^ 32 := by rw [← hb]; exact stHead.dwBlockSize.toNat_lt
  have hlt := Nat.mod_lt n h0
  unfold remainSize
  rw [ho, hb, show ((4096 + n : Nat) : Int) - (4096 : Nat) = (n : Int) by omega,
    Int.tmod_eq_emod_of_nonneg (Int.natCast_nonneg n), ← Int.natCast_emod]
  omega

variable {b : Binlog} {sys : Sys} {app : Bool} {head Z p : Bytes}

theorem u32_logSize (hp : p.length + 14 ≤ B) (hB : B < 2 ^ 32) : u32 (getLogSize p.length) = p.length + 6 := by
  unfold u32 getLogSize
  omega

theorem record_ne_nil (p : Bytes) : record p ≠ [] := by simp [record]

/-- `writev` after the position was moved `k` bytes ahead. -/
theorem writevAt_spec (h : Handle b sys app B head Z) (sys₁ : Sys) {pos : Nat} (k : Nat)
    (hdata : sys₁.data = sys.data) (hdesc : sys₁.desc b.fdBinlog = some ⟨pos, app⟩)
    (hpos : app = false → pos = sys.data.length + k) {bytes : Bytes} (hne : bytes ≠ []) (time : UInt32)
    (off : Nat) :
    ∃ sys', writevAt b sys₁ ⟨true, true, .full, time⟩ bytes off = (sys', (off : Int)) ∧
      Handle b sys' app B head (Z ++ (if app then [] else List.replicate k 0) ++ bytes) := by
  have hw := @Sys.write_full sys₁ _ _ bytes hdesc
  refine ⟨(sys₁.write b.fdBinlog .full bytes).1, by simp only [writevAt, hw], ?_⟩
  rw [hw]
  refine ⟨h.fd, ⟨_, Sys.setDesc_self _, ?_⟩, ?_, h.head, h.offset, h.block⟩
  · intro happ
    subst happ
    simp [Sys.target, hpos rfl, hdata, Sys.store_past_end k hne, Nat.add_assoc]
  · rw [Sys.setDesc_data, hdata]
    cases app with
    | true =>
      show Sys.store sys.data sys.data.length bytes = _
      rw [Sys.store_at_end hne, h.data]
      simp
    | false =>
      show Sys.store sys.data pos bytes = _
      rw [hpos rfl, Sys.store_past_end k hne, h.data]
      simp

/-- `Write` appends a chunk and returns where its record is. -/
theorem write_spec (h : Handle b sys app B head Z) (hp : p.length + 14 ≤ B) (time : UInt32) :
    ∃ sys', write b sys ⟨true, true, .full, time⟩ p =
        some (sys', ((4096 + place B Z.length (p.length + 6) : Nat) : Int)) ∧
      Handle b sys' app B head (Z ++ added app B Z.length (blockHeadBuf time) (record p)) := by
  obtain ⟨pos, hd, hpos⟩ := h.desc
  have hB : B < 2 ^ 32 := by rw [← h.block]; exact b.stHead.dwBlockSize.toNat_lt
  have h0 : 0 < B := by omega
  have hlen : sys.data.length = 4096 + Z.length := by rw [h.data, List.length_append, h.head]
  have hlt := Nat.mod_lt Z.length h0
  have hne : blockHeadBuf time ++ record p ≠ [] := by simp [record]
  have hrem : remainSize b.stHead (4096 + Z.length) = B - Z.length % B := remainSize_eq h.offset h.block h0
  unfold write
  simp only [h.fd, h.block, u32_logSize hp hB, Sys.size_ok hd, hlen, hrem, Nat.ne_of_gt h0, if_false,
    show ¬p.length + 6 > B by omega, blockheadSize]
  unfold added place
  rw [length_record]
  by_cases hz : Z.length % B = 0
  · rw [if_pos hz, if_pos hz, if_pos (by omega)]
    obtain ⟨sys', e, h'⟩ := writevAt_spec h sys 0 rfl hd hpos hne time (4096 + Z.length + 8)
    refine ⟨sys', by rw [e, Nat.add_assoc], ?_⟩
    simpa using h'
  · rw [if_neg hz, if_neg hz, if_neg (show ¬B - Z.length % B = B by omega)]
    by_cases hr : B - Z.length % B < p.length + 6
    · rw [if_pos hr, if_pos hr, if_pos hr, Sys.seekCur_ok hd]
      obtain ⟨sys', e, h'⟩ := writevAt_spec h (sys.setDesc b.fdBinlog (some ⟨pos + (B - Z.length % B), app⟩))
        (B - Z.length % B) rfl (Sys.setDesc_self _) (fun happ => by rw [hpos happ]) hne time
        (4096 + (Z.length + (B - Z.length % B + 8)))
      have hu : u32 (B - Z.length % B + 8) = B - Z.length % B + 8 := by unfold u32; omega
      refine ⟨sys', ?_, by simpa using h'⟩
      simp only [hu, Nat.add_assoc, e]
    · rw [if_neg hr, if_neg hr, if_neg hr]
      obtain ⟨sys', e, h'⟩ := writevAt_spec h sys 0 rfl hd hpos (record_ne_nil p) time (4096 + Z.length)
      refine ⟨sys', by rw [e], ?_⟩
      simpa using h'

/-- What does not even fit by its truncated size is refused. -/
theorem write_rejects (h : Handle b sys app B head Z) (hp : B < u32 (getLogSize p.length)) (io : WriteCalls) :
    write b sys io p = some (sys, -1) := by
  simp [write, h.fd, h.block, hp]

/-! ## Sessions -/

/-- A handle nothing was opened with. -/
def unopened : Binlog := ⟨-1, ⟨[], 0, 0, 0, 0⟩⟩

def noFile : Sys := ⟨[], fun _ => none⟩

/-- The head `CreateLog` writes. -/
def newHead (dwBlockSize time : UInt32) : BinlogHead :=
  { cMagic := headMagic, wVersion := headVersion, wDataOffset := UInt16.ofNat headSize, dwBlockSize,
    dwCreateTime := time }

theorem createLog_spec (b : Binlog) (sys : Sys) {fd : Int} (hfd : fd ≠ -1) (B time : UInt32) :
    ∃ b' sys', createLog b sys ⟨some fd, true, time, .full⟩ B = (b', sys', 0) ∧
      Handle b' sys' false B.toNat (fileHeadBuf (newHead B time)) [] ∧ b'.stHead = newHead B time := by
  have hlen : (fileHeadBuf (newHead B time)).length = 4096 := length_fileHeadBuf rfl
  have hh : (⟨headMagic, headVersion, UInt16.ofNat headSize, B, time⟩ : BinlogHead) = newHead B time := rfl
  have hoff : (newHead B time).wDataOffset.toNat = 4096 := rfl
  generalize hs : (if b.fdBinlog = -1 then sys else sys.close b.fdBinlog) = s₀
  let s₁ : Sys := { (s₀.setDesc fd (some ⟨0, false⟩)) with data := [] }
  have hd : s₁.desc fd = some ⟨0, false⟩ := if_pos rfl
  have htr : (s₀.setDesc fd (some ⟨0, false⟩)).truncate fd true = s₁ := by
    simp only [Sys.truncate, Sys.setDesc_self, if_true]
    rfl
  have run : createLog b sys ⟨some fd, true, time, .full⟩ B =
      ({ fdBinlog := fd, stHead := newHead B time }, (s₁.write fd .full (fileHeadBuf (newHead B time))).1,
        if (s₁.write fd .full (fileHeadBuf (newHead B time))).2 = none then -1 else 0) := by
    unfold createLog
    simp only [hs, Sys.openFile, hfd, if_false, htr, hh]
  generalize fileHeadBuf (newHead B time) = buf at hlen run ⊢
  have hne : buf ≠ [] := fun h => by rw [h] at hlen; cases hlen
  have hstore : Sys.store s₁.data (Sys.target ⟨0, false⟩ s₁.data) buf = buf := Sys.store_empty hne
  refine ⟨_, _, by rw [run, Sys.write_full hd]; rfl, ⟨hfd, ⟨_, Sys.setDesc_self _, fun _ => ?_⟩, ?_, hlen, hoff,
    rfl⟩, rfl⟩
  · show 0 + buf.length = (Sys.store s₁.data _ buf).length
    rw [hstore, Nat.zero_add]
  · show Sys.store s₁.data _ buf = buf ++ []
    rw [hstore, List.append_nil]

/-- `OpenLog` reads a whole head, and one of a log. -/
theorem openLog_reads (b : Binlog) {sys s₀ : Sys} {fd : Int} (hfd : fd ≠ -1) {stale : Nat → UInt8} {got : Bytes}
    {stHead : BinlogHead} (hs : (if b.fdBinlog = -1 then sys else sys.close b.fdBinlog) = s₀)
    (hpread : (s₀.setDesc fd (some ⟨0, true⟩)).pread fd .full headSize 0 = some got) (hlen : got.length = headSize)
    (hhead : ∀ old, getHead (IOBuffer.new got (UInt64.ofNat headSize) (UInt64.ofNat headSize)) old = .ok stHead)
    (hmagic : stHead.cMagic = headMagic) (hversion : stHead.wVersion = headVersion) :
    openLog b sys ⟨some fd, .full, stale⟩ = ({ fdBinlog := fd, stHead }, s₀.setDesc fd (some ⟨0, true⟩), 0) := by
  -- nothing in the array is stale
  have hstale : ((List.range headSize).drop headSize).map stale = [] := by
    rw [List.drop_eq_nil_of_le (Nat.le_of_eq List.length_range), List.map_nil]
  have hown : ¬(stHead.cMagic ≠ headMagic ∨ stHead.wVersion ≠ headVersion) :=
    fun hc => hc.elim (fun h => h hmagic) fun h => h hversion
  unfold openLog
  simp only [hs, Sys.openFile, hfd, if_false, hpread, hlen, hstale, List.append_nil, hhead, hown]

/-- `OpenLog` finds the head of any log again, and the data area as it was. -/
theorem openLog_spec (b : Binlog) (sys : Sys) {fd : Int} (hfd : fd ≠ -1) {B time : UInt32} {Z : Bytes}
    (hdata : sys.data = fileHeadBuf (newHead B time) ++ Z) (stale : Nat → UInt8) :
    ∃ b' sys', openLog b sys ⟨some fd, .full, stale⟩ = (b', sys', 0) ∧
      Handle b' sys' true B.toNat (fileHeadBuf (newHead B time)) Z ∧ b'.stHead = newHead B time := by
  have hlen : (fileHeadBuf (newHead B time)).length = headSize := length_fileHeadBuf rfl
  have hoff : (newHead B time).wDataOffset.toNat = 4096 := rfl
  generalize hs : (if b.fdBinlog = -1 then sys else sys.close b.fdBinlog) = s₀
  have hs₀ : s₀.data = sys.data := by
    rw [← hs]
    split
    · rfl
    · exact Sys.setDesc_data none
  have hd : (s₀.setDesc fd (some ⟨0, true⟩)).desc fd = some ⟨0, true⟩ := Sys.setDesc_self _
  have hpread : (s₀.setDesc fd (some ⟨0, true⟩)).pread fd .full headSize 0 = some (fileHeadBuf (newHead B time)) := by
    rw [Sys.pread_full hd, Sys.setDesc_data, hs₀, hdata, List.drop_zero, ← hlen, List.take_left]
  have hhead : ∀ old, getHead (IOBuffer.new (fileHeadBuf (newHead B time)) (UInt64.ofNat headSize)
      (UInt64.ofNat headSize)) old = .ok (newHead B time) := by
    intro old
    have hn := IOBuffer.new_reading (fileHeadBuf (newHead B time)) []
    rw [List.append_nil, hlen] at hn
    rw [hn, fileHeadBuf_eq rfl]
    exact getHead_reading old rfl (by rw [List.length_replicate]; decide)
  refine ⟨_, _, openLog_reads b hfd hs hpread hlen hhead rfl rfl, ?_, rfl⟩
  exact ⟨hfd, ⟨0, hd, fun h => by cases h⟩, by rw [Sys.setDesc_data, hs₀, hdata], hlen, hoff, rfl⟩

/-! ## Writing a list of payloads -/

/-- The offsets returned; `none` is a crash. -/
def writeAll (b : Binlog) : Sys → List Entry → Option (Sys × List Int)
  | sys, [] => some (sys, [])
  | sys, e :: l => do
    let (sys, off) ← write b sys ⟨true, true, .full, e.1⟩ e.2
    let (sys, offs) ← writeAll b sys l
    return (sys, off :: offs)

/-- Where the records `ps` go behind a data area of `n` bytes, ... -/
def offsets (B : Nat) : Nat → List Bytes → List Int
  | _, [] => []
  | n, p :: ps =>
    let off := place B n (p.length + 6)
    ((4096 + off : Nat) : Int) :: offsets B (off + (p.length + 6)) ps

/-- ... how long the data area is then, ... -/
def endAt (B : Nat) : Nat → List Bytes → Nat
  | n, [] => n
  | n, p :: ps => endAt B (place B n (p.length + 6) + (p.length + 6)) ps

/-- ... and that none of them pads a block. -/
def NeverPads (B : Nat) : Nat → List Bytes → Prop
  | _, [] => True
  | n, p :: ps => ¬Pads B n (p.length + 6) ∧ NeverPads B (place B n (p.length + 6) + (p.length + 6)) ps

/-- The payloads of a list of entries. -/
def payloads (l : List Entry) : List Bytes := l.map Prod.snd

@[simp] theorem payloads_append (l m : List Entry) : payloads (l ++ m) = payloads l ++ payloads m := List.map_append

@[simp] theorem length_payloads (l : List Entry) : (payloads l).length = l.length := List.length_map _

variable {m : List Entry}

theorem length_offsets (B n : Nat) (ps : List Bytes) : (offsets B n ps).length = ps.length := by
  induction ps generalizing n with
  | nil => rfl
  | cons p ps ih => simp only [offsets, List.length_cons, ih]

theorem offsets_append (B n : Nat) (ps qs : List Bytes) :
    offsets B n (ps ++ qs) = offsets B n ps ++ offsets B (endAt B n ps) qs := by
  induction ps generalizing n with
  | nil => rfl
  | cons p ps ih => simp only [List.cons_append, offsets, endAt, ih]

theorem neverPads_append {n : Nat} {ps qs : List Bytes} :
    NeverPads B n (ps ++ qs) ↔ NeverPads B n ps ∧ NeverPads B (endAt B n ps) qs := by
  induction ps generalizing n with
  | nil => simp [NeverPads, endAt]
  | cons p ps ih => simp only [List.cons_append, NeverPads, endAt, ih, and_assoc]

theorem length_area_append (l m : List Entry) :
    (area B (l ++ m)).length = endAt B (area B l).length (payloads m) := by
  induction m generalizing l with
  | nil => rw [List.append_nil]; rfl
  | cons e m ih =>
    have h := ih (l ++ [e])
    rw [length_area_concat, List.append_assoc] at h
    exact h

theorem Fits.cons (h : Fits B (e :: l)) : e.2.length + 14 ≤ B ∧ Fits B l :=
  ⟨h e List.mem_cons_self, fun e' he => h e' (List.mem_cons_of_mem _ he)⟩

theorem Fits.append (hl : Fits B l) (hm : Fits B m) : Fits B (l ++ m) := fun e he =>
  (List.mem_append.mp he).elim (hl e) (hm e)

theorem writeAll_cons {sys₁ sys' : Sys} {off : Int} {offs : List Int}
    (hw : write b sys ⟨true, true, .full, e.1⟩ e.2 = some (sys₁, off)) (hws : writeAll b sys₁ m = some (sys', offs)) :
    writeAll b sys (e :: m) = some (sys', off :: offs) := by
  rw [writeAll, hw]
  simp only [Option.bind_eq_bind, Option.bind_some, hws]
  rfl

/-- A session of writes that never pads, or that may. -/
theorem writeAll_spec (h : Handle b sys app B head (area B l)) (hm : Fits B m)
    (hp : app = true → NeverPads B (area B l).length (payloads m)) :
    ∃ sys', writeAll b sys m = some (sys', offsets B (area B l).length (payloads m)) ∧
      Handle b sys' app B head (area B (l ++ m)) := by
  induction m generalizing sys l with
  | nil => exact ⟨sys, rfl, by rwa [List.append_nil]⟩
  | cons e m ih =>
    obtain ⟨he, hm⟩ := hm.cons
    obtain ⟨sys₁, hw, h₁⟩ := write_spec h he e.1
    have hadd : added app B (area B l).length (blockHeadBuf e.1) (record e.2) =
        chunk B (area B l).length (blockHeadBuf e.1) (record e.2) := by
      cases app with
      | false => rfl
      | true => exact added_of_not_pads (by rw [length_record]; exact (hp rfl).1)
    rw [hadd, ← area_concat] at h₁
    obtain ⟨sys', hws, h'⟩ := ih h₁ hm fun happ => by
      rw [length_area_concat]
      exact (hp happ).2
    rw [length_area_concat] at hws
    exact ⟨sys', writeAll_cons hw hws, by rwa [List.append_assoc] at h'⟩

end SimpleSvr.L3.Binlog
