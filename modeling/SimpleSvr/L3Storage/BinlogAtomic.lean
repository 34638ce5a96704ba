import SimpleSvr.Core.LTS
import SimpleSvr.L3Storage.BinlogLayout

/-!
# Writes that fail

`writes_atomic`: as long as `writev` stores all it is given or nothing, and does
not fail after `lseek` has moved the position over the padding, every offset
that `Write` returned has its record, and the file is that of the writes that
succeeded. `Write` looks at neither: a short count passes for success, and the
position stays where `lseek` put it; `short_writev_returns` and `padding_leaves_hole`
are what happens then.
-/
namespace SimpleSvr.L3

/-- A `Write` with the outcomes of its system calls. -/
structure Attempt where
  io : WriteCalls
  buffer : Bytes

/-- The calls so far with what they returned; `start` is what `CreateLog` left. -/
structure FaultyWriter where
  binlog : Binlog
  start : Sys
  sys : Sys
  calls : List (Attempt × Int)

namespace Binlog

/-- What `writev` and `lseek` are for: a record that does not fit pads the block. -/
def PadsNext (b : Binlog) (sys : Sys) (p : Bytes) : Prop :=
  remainSize b.stHead sys.data.length ≠ b.stHead.dwBlockSize.toNat ∧
    remainSize b.stHead sys.data.length < u32 (getLogSize p.length)

instance (b : Binlog) (sys : Sys) (p : Bytes) : Decidable (PadsNext b sys p) := inferInstanceAs (Decidable (_ ∧ _))

/-- How many bytes `writev` is given. -/
def iovLength (b : Binlog) (sys : Sys) (p : Bytes) : Nat :=
  if remainSize b.stHead sys.data.length = b.stHead.dwBlockSize.toNat ∨ PadsNext b sys p then
    blockheadSize + (p.length + 6)
  else p.length + 6

/-- `writev` is called. -/
def CallsWritev (b : Binlog) (sys : Sys) (a : Attempt) : Prop :=
  a.io.fstat = true ∧ (PadsNext b sys a.buffer → a.io.lseek = true)

instance (b : Binlog) (sys : Sys) (a : Attempt) : Decidable (CallsWritev b sys a) := inferInstanceAs (Decidable (_ ∧ _))

/-- Where `writev` is called it stores all bytes, or it fails and there was no padding. -/
def Whole (s : FaultyWriter) (a : Attempt) : Prop :=
  CallsWritev s.binlog s.sys a →
    a.io.writev.amount (iovLength s.binlog s.sys a.buffer) = some (iovLength s.binlog s.sys a.buffer) ∨
    a.io.writev = .fail ∧ ¬PadsNext s.binlog s.sys a.buffer

inductive FaultyStep (B : UInt32) : FaultyWriter → Attempt → FaultyWriter → Prop
  | write {s : FaultyWriter} {a : Attempt} {sys : Sys} {v : Int} (hp : a.buffer.length + 14 ≤ B.toNat)
      (h : write s.binlog s.sys a.io a.buffer = some (sys, v)) :
      FaultyStep B s a { s with sys, calls := s.calls ++ [(a, v)] }

def faultyWriter (B : UInt32) : LTS FaultyWriter Attempt where
  init s := ∃ b₀ sys₀ fd time, fd ≠ -1 ∧
    createLog b₀ sys₀ ⟨some fd, true, time, .full⟩ B = (s.binlog, s.sys, 0) ∧ s.start = s.sys ∧ s.calls = []
  step := FaultyStep B

/-- The calls that did not return -1. -/
def successes (s : FaultyWriter) : List (Attempt × Int) := s.calls.filter fun c => c.2 ≠ -1

def entryOf (c : Attempt × Int) : Entry := (c.1.io.time, c.1.buffer)

/-- Every offset returned has its record, and the calls that failed might as well not have been made. -/
structure Atomic (s : FaultyWriter) : Prop where
  complete : ∀ c ∈ s.calls, c.2 ≠ -1 → ∃ o : Nat, c.2 = o ∧ record c.1.buffer <+: s.sys.data.drop o
  absent : ∃ sys, writeAll s.binlog s.start ((successes s).map entryOf) = some (sys, (successes s).map Prod.snd) ∧
    sys.data = s.sys.data

variable {b : Binlog} {sys : Sys} {B : Nat} {head Z : Bytes} {a : Attempt}

/-! ## One call -/

theorem Handle.length (h : Handle b sys false B head Z) : sys.data.length = 4096 + Z.length := by
  rw [h.data, List.length_append, h.head]

theorem padsNext_iff (h : Handle b sys false B head Z) (hp : a.buffer.length + 14 ≤ B) :
    PadsNext b sys a.buffer ↔ Pads B Z.length (a.buffer.length + 6) := by
  have hB : B < 2 ^ 32 := by rw [← h.block]; exact b.stHead.dwBlockSize.toNat_lt
  have hlt := Nat.mod_lt Z.length (show 0 < B by omega)
  unfold PadsNext Pads
  rw [h.length, remainSize_eq h.offset h.block (by omega), h.block, u32_logSize hp hB]
  omega

/-- What `Write` does on a file with `n` bytes behind the head, wherever the position is. -/
theorem write_eq {n : Nat} {d : Desc} (hfd : b.fdBinlog ≠ -1) (ho : b.stHead.wDataOffset.toNat = 4096)
    (hb : b.stHead.dwBlockSize.toNat = B) (hd : sys.desc b.fdBinlog = some d) (hlen : sys.data.length = 4096 + n)
    (hp : a.buffer.length + 14 ≤ B) :
    write b sys a.io a.buffer =
      if a.io.fstat = false then some (sys, -1)
      else if Pads B n (a.buffer.length + 6) then
        (sys.seekCur b.fdBinlog a.io.lseek (B - n % B)).elim (some (sys, -1)) fun sys =>
          some (writevAt b sys a.io (blockHeadBuf a.io.time ++ record a.buffer) (4096 + (n + (B - n % B) + 8)))
      else if n % B = 0 then
        some (writevAt b sys a.io (blockHeadBuf a.io.time ++ record a.buffer) (4096 + (n + 8)))
      else some (writevAt b sys a.io (record a.buffer) (4096 + n)) := by
  have hB : B < 2 ^ 32 := by rw [← hb]; exact b.stHead.dwBlockSize.toNat_lt
  have h0 : 0 < B := by omega
  have hlt := Nat.mod_lt n h0
  have hrem : remainSize b.stHead (4096 + n) = B - n % B := remainSize_eq ho hb h0
  unfold write Pads
  simp only [hfd, hb, u32_logSize hp hB, Nat.ne_of_gt h0, if_false, show ¬a.buffer.length + 6 > B by omega,
    blockheadSize]
  cases a.io.fstat with
  | false => simp [Sys.size, hd]
  | true =>
    simp only [Sys.size_ok hd, hlen, hrem, Nat.add_assoc]
    by_cases hz : n % B = 0
    · simp [hz]
    · have hne : ¬B - n % B = B := by omega
      by_cases hr : B - n % B < a.buffer.length + 6
      · have hu : u32 (B - n % B + 8) = B - n % B + 8 := by
          unfold u32
          omega
        simp only [hne, hr, hz, hu]
        cases sys.seekCur b.fdBinlog a.io.lseek (B - n % B) <;> simp [hz]
      · simp [hne, hr, hz]

theorem Handle.write_eq (h : Handle b sys false B head Z) (hp : a.buffer.length + 14 ≤ B) :
    write b sys a.io a.buffer =
      if a.io.fstat = false then some (sys, -1)
      else if Pads B Z.length (a.buffer.length + 6) then
        (sys.seekCur b.fdBinlog a.io.lseek (B - Z.length % B)).elim (some (sys, -1)) fun sys =>
          some (writevAt b sys a.io (blockHeadBuf a.io.time ++ record a.buffer)
            (4096 + (Z.length + (B - Z.length % B) + 8)))
      else if Z.length % B = 0 then
        some (writevAt b sys a.io (blockHeadBuf a.io.time ++ record a.buffer) (4096 + (Z.length + 8)))
      else some (writevAt b sys a.io (record a.buffer) (4096 + Z.length)) := by
  obtain ⟨pos, hd, -⟩ := h.desc
  exact Binlog.write_eq h.fd h.offset h.block hd h.length hp

theorem writevAt_whole {io : WriteCalls} {bytes : Bytes} (h : io.writev.amount bytes.length = some bytes.length)
    (off : Nat) : writevAt b sys io bytes off = writevAt b sys ⟨true, true, .full, io.time⟩ bytes off := by
  unfold writevAt Sys.write
  rw [h]
  rfl

theorem writevAt_fail {io : WriteCalls} (h : io.writev = .fail) (bytes : Bytes) (off : Nat) :
    writevAt b sys io bytes off = (sys, -1) := by
  unfold writevAt Sys.write
  rw [h]
  cases sys.desc b.fdBinlog <;> rfl

theorem iovLength_eq (h : Handle b sys false B head Z) (hp : a.buffer.length + 14 ≤ B) :
    iovLength b sys a.buffer = if Z.length % B = 0 ∨ Pads B Z.length (a.buffer.length + 6) then
      (blockHeadBuf a.io.time ++ record a.buffer).length else (record a.buffer).length := by
  have hlt := Nat.mod_lt Z.length (show 0 < B by omega)
  have hz : remainSize b.stHead sys.data.length = b.stHead.dwBlockSize.toNat ↔ Z.length % B = 0 := by
    rw [h.length, remainSize_eq h.offset h.block (by omega), h.block]
    omega
  unfold iovLength
  simp only [hz, padsNext_iff h hp, List.length_append, length_blockHeadBuf, length_record, blockheadSize]

/-- A call that is not stopped half way does nothing, or what it does when all goes well. -/
theorem write_whole {s : FaultyWriter} (h : Handle s.binlog s.sys false B head Z) (hp : a.buffer.length + 14 ≤ B)
    (hw : Whole s a) :
    write s.binlog s.sys a.io a.buffer = some (s.sys, -1) ∨
      write s.binlog s.sys a.io a.buffer = write s.binlog s.sys ⟨true, true, .full, a.io.time⟩ a.buffer := by
  obtain ⟨pos, hd, -⟩ := h.desc
  have hfull := h.write_eq (a := ⟨⟨true, true, .full, a.io.time⟩, a.buffer⟩) hp
  by_cases hr : CallsWritev s.binlog s.sys a
  · obtain ⟨hstat, hseek⟩ := hr
    rw [padsNext_iff h hp] at hseek
    rcases hw ⟨hstat, fun hpad => hseek ((padsNext_iff h hp).mp hpad)⟩ with hall | ⟨hfail, hpad⟩
    · right
      rw [iovLength_eq h hp] at hall
      rw [h.write_eq hp, hfull, hstat]
      by_cases hpad : Pads B Z.length (a.buffer.length + 6)
      · rw [if_pos (.inr hpad)] at hall
        simp only [hpad, hseek hpad, Sys.seekCur_ok hd, Option.elim_some, writevAt_whole hall, if_true]
      · by_cases hz : Z.length % B = 0
        · rw [if_pos (.inl hz)] at hall
          simp only [hpad, hz, writevAt_whole hall, if_true, if_false]
        · rw [if_neg (not_or.mpr ⟨hz, hpad⟩)] at hall
          simp only [hpad, hz, writevAt_whole hall, if_false]
    · left
      rw [padsNext_iff h hp] at hpad
      rw [h.write_eq hp, hstat]
      simp [hpad, writevAt_fail hfail]
  · left
    rw [h.write_eq hp]
    cases hstat : a.io.fstat with
    | false => rfl
    | true =>
      have hpad : PadsNext s.binlog s.sys a.buffer ∧ a.io.lseek = false := by
        simpa [CallsWritev, hstat] using hr
      rw [if_neg (by simp), if_pos ((padsNext_iff h hp).mp hpad.1), hpad.2]
      simp [Sys.seekCur, hd]

/-! ## Runs -/

/-- The calls that succeeded are the entries of `l`, and so is the file. -/
structure AtomicInv (B : Nat) (s : FaultyWriter) (l : List Entry) : Prop where
  handle : ∃ head, Handle s.binlog s.start false B head [] ∧ Handle s.binlog s.sys false B head (area B l)
  fits : Fits B l
  entries : (successes s).map entryOf = l
  offsets : (successes s).map Prod.snd = offsets B 0 (payloads l)

variable {s s' : FaultyWriter} {l : List Entry}

theorem successes_push (s : FaultyWriter) (sys : Sys) (a : Attempt) (v : Int) :
    successes { s with sys, calls := s.calls ++ [(a, v)] } = successes s ++ if v = -1 then [] else [(a, v)] := by
  unfold successes
  rw [List.filter_append]
  by_cases hv : v = -1 <;> simp [hv]

theorem atomicInv_init {B : UInt32} (h : (faultyWriter B).init s) : AtomicInv B.toNat s [] := by
  obtain ⟨b₀, sys₀, fd, time, hfd, hc, hstart, hcalls⟩ := h
  obtain ⟨b, sys, hc', hh, -⟩ := createLog_spec b₀ sys₀ hfd B time
  cases hc.symm.trans hc'
  have hnone : successes s = [] := by simp [successes, hcalls]
  refine ⟨⟨_, hstart ▸ hh, hh⟩, nofun, ?_, ?_⟩
  · rw [hnone]
    rfl
  · rw [hnone]
    rfl

theorem atomicInv_step {B : UInt32} (h : AtomicInv B.toNat s l) (hw : Whole s a) (hs : FaultyStep B s a s') :
    ∃ l', AtomicInv B.toNat s' l' := by
  obtain ⟨head, hstart, hh⟩ := h.handle
  cases hs with
  | @write sys v hp hwrite =>
    rcases write_whole hh hp hw with hnone | hall
    · cases hwrite.symm.trans hnone
      have hsame := successes_push s s.sys a (-1)
      rw [if_pos rfl, List.append_nil] at hsame
      refine ⟨l, ⟨head, hstart, hh⟩, h.fits, ?_, ?_⟩
      · rw [hsame, h.entries]
      · rw [hsame, h.offsets]
    · obtain ⟨sys', e, h'⟩ := write_spec hh hp a.io.time
      cases (hwrite.symm.trans hall).trans e
      have hend : (area B.toNat l).length = endAt B.toNat 0 (payloads l) := length_area_append [] l
      have hpush := successes_push s sys a ((4096 + place B.toNat (area B.toNat l).length (a.buffer.length + 6) : Nat))
      rw [if_neg (by omega)] at hpush
      refine ⟨l ++ [(a.io.time, a.buffer)], ⟨head, hstart, ?_⟩, ?_, ?_, ?_⟩
      · rw [area_concat]
        exact h'
      · refine h.fits.append fun e he => ?_
        rw [List.mem_singleton.mp he]
        exact hp
      · rw [hpush, List.map_append, h.entries]
        rfl
      · rw [hpush, List.map_append, h.offsets, payloads_append, offsets_append, ← hend]
        rfl

theorem atomic_inductive (B : UInt32) :
    ((faultyWriter B).guard Whole).Inductive fun s => ∃ l, AtomicInv B.toNat s l where
  init _ h := ⟨[], atomicInv_init h⟩
  step := by
    intro s a s' hinv hstep
    obtain ⟨l, h⟩ := hinv
    obtain ⟨hw, hs⟩ := hstep
    exact atomicInv_step h hw hs

/-- The record of every entry is at its offset. -/
theorem offset_record {B : Nat} {l : List Entry} {i : Nat} {e : Entry} (he : l[i]? = some e) {v : Int}
    (hv : (offsets B 0 (payloads l))[i]? = some v) :
    ∃ o : Nat, v = ((4096 + o : Nat) : Int) ∧ record e.2 <+: (area B l).drop o := by
  have hi : i < l.length := (List.getElem?_eq_some_iff.mp he).1
  have hlen : (offsets B 0 (payloads (l.take i))).length = i := by
    rw [length_offsets, length_payloads, List.length_take, Nat.min_eq_left (Nat.le_of_lt hi)]
  have hend : endAt B 0 (payloads (l.take i)) = endOf B l i := (length_area_append [] (l.take i)).symm
  rw [← List.take_append_drop (i + 1) l, take_succ_of_getElem? he, payloads_append, payloads_append, offsets_append,
    offsets_append, List.append_assoc, List.getElem?_append_right (Nat.le_of_eq hlen), hlen, Nat.sub_self, hend] at hv
  cases hv
  exact ⟨_, rfl, record_at he⟩

theorem AtomicInv.atomic (h : AtomicInv B s l) : Atomic s := by
  obtain ⟨head, hstart, hh⟩ := h.handle
  constructor
  · intro c hc hne
    have hmem : c ∈ successes s := List.mem_filter.mpr ⟨hc, by simpa using hne⟩
    obtain ⟨i, hi, hget⟩ := List.getElem_of_mem hmem
    have hi' : (successes s)[i]? = some c := by rw [List.getElem?_eq_getElem hi, hget]
    have he : l[i]? = some (entryOf c) := by rw [← h.entries, List.getElem?_map, hi']; rfl
    have hv : (Binlog.offsets B 0 (payloads l))[i]? = some c.2 := by rw [← h.offsets, List.getElem?_map, hi']; rfl
    obtain ⟨o, ho, hrec⟩ := offset_record he hv
    refine ⟨4096 + o, ho, ?_⟩
    rw [hh.data, ← List.drop_drop, ← hh.head, List.drop_left]
    exact hrec
  · obtain ⟨sys, hws, h'⟩ := writeAll_spec (l := []) hstart h.fits nofun
    refine ⟨sys, ?_, ?_⟩
    · rw [h.entries, h.offsets]
      exact hws
    · rw [h'.data, hh.data, List.nil_append]

/-! ## Where it goes wrong -/

theorem record_head {p X : Bytes} (h : record p <+: X) : X.head? = some smagic := by
  obtain ⟨rest, rfl⟩ := h
  rfl

/-- The last call returned an offset at which no record starts. -/
theorem not_atomic {calls : List (Attempt × Int)} {o : Nat} (hcalls : s.calls = calls ++ [(a, (o : Int))])
    (hne : (s.sys.data.drop o).head? ≠ some smagic) : ¬Atomic s := by
  intro h
  obtain ⟨o', ho, hrec⟩ := h.complete (a, (o : Int)) (by simp [hcalls]) (by simp)
  rw [Int.ofNat_inj] at ho
  exact hne (ho ▸ record_head hrec)

/-- No byte of the record is stored, and `Write` returns its offset. -/
theorem short_returns (h : Handle b sys false B head []) (hp : a.buffer.length + 14 ≤ B)
    (hio : a.io = ⟨true, true, .short 0, a.io.time⟩) :
    ∃ sys', write b sys a.io a.buffer = some (sys', ((4096 + 8 : Nat) : Int)) ∧ sys'.data = sys.data := by
  obtain ⟨pos, hd, -⟩ := h.desc
  have hpad : ¬Pads B 0 (a.buffer.length + 6) := fun hpad => hpad.1 (Nat.zero_mod B)
  rw [h.write_eq hp, hio, List.length_nil]
  simp [hpad, writevAt, Sys.write, hd, Outcome.amount, Sys.store]

/-- The position is moved over the padding and nothing is stored; a record that needs no padding
then goes where the position is, and not where `Write` says. -/
theorem padding_moves (h : Handle b sys false B head Z) (hp : a.buffer.length + 14 ≤ B)
    (hpad : Pads B Z.length (a.buffer.length + 6)) (hio : a.io = ⟨true, true, .fail, a.io.time⟩) {c : Attempt}
    (hp' : c.buffer.length + 14 ≤ B) (hfit : c.buffer.length + 6 ≤ B - Z.length % B)
    (hio' : c.io = ⟨true, true, .full, c.io.time⟩) :
    ∃ sys₁ sys₂, write b sys a.io a.buffer = some (sys₁, -1) ∧ sys₁.data = sys.data ∧
      write b sys₁ c.io c.buffer = some (sys₂, ((4096 + Z.length : Nat) : Int)) ∧
      sys₂.data = head ++ (Z ++ List.replicate (B - Z.length % B) 0 ++ record c.buffer) := by
  obtain ⟨pos, hd, hpos⟩ := h.desc
  have hlt := Nat.mod_lt Z.length (show 0 < B by omega)
  have hpad' : ¬Pads B Z.length (c.buffer.length + 6) := fun hpad => by
    have := hpad.2
    omega
  let moved := sys.setDesc b.fdBinlog (some ⟨pos + (B - Z.length % B), false⟩)
  have hmoved : moved.desc b.fdBinlog = some ⟨pos + (B - Z.length % B), false⟩ := Sys.setDesc_self _
  obtain ⟨sys₂, e, h'⟩ := writevAt_spec h moved (B - Z.length % B) rfl hmoved (fun _ => by rw [hpos rfl])
    (record_ne_nil c.buffer) c.io.time (4096 + Z.length)
  refine ⟨moved, sys₂, ?_, rfl, ?_, by simpa using h'.data⟩
  · rw [h.write_eq hp, hio]
    simp [hpad, Sys.seekCur_ok hd, writevAt_fail, moved]
  · rw [write_eq h.fd h.offset h.block hmoved h.length hp', hio']
    simp [hpad', hpad.1, e]

/-! ## Runs with failures -/

theorem AtomicInv.steps {B : UInt32} (h : AtomicInv B.toNat s l) (hp : a.buffer.length + 14 ≤ B.toNat) :
    ∃ s', FaultyStep B s a s' := by
  obtain ⟨head, -, hh⟩ := h.handle
  have hsome : (write s.binlog s.sys a.io a.buffer).isSome := by
    rw [hh.write_eq hp]
    split_ifs
    · rfl
    · cases s.sys.seekCur s.binlog.fdBinlog a.io.lseek (B.toNat - (area B.toNat l).length % B.toNat) <;> rfl
    · rfl
    · rfl
  obtain ⟨⟨sys, v⟩, hw⟩ := Option.isSome_iff_exists.mp hsome
  exact ⟨_, .write hp hw⟩

/-- In a run in which `writev` stores all or nothing, and does not fail behind the padding, every
offset returned has its record, and failed calls leave no trace; and no call crashes. -/
theorem writes_atomic (B : UInt32) (s : FaultyWriter) (h : ((faultyWriter B).guard Whole).Reachable s) :
    Atomic s ∧ ∀ a : Attempt, a.buffer.length + 14 ≤ B.toNat → ∃ s', FaultyStep B s a s' := by
  obtain ⟨l, hl⟩ := (atomic_inductive B).reachable s h
  exact ⟨hl.atomic, fun a hp => hl.steps hp⟩

theorem newLog : ∃ s head, (faultyWriter 22).init s ∧ Handle s.binlog s.sys false 22 head [] ∧ s.calls = [] := by
  obtain ⟨b, sys, hc, h, -⟩ := createLog_spec unopened noFile (show (3 : Int) ≠ -1 by decide) 22 0
  exact ⟨⟨b, sys, sys, []⟩, _, ⟨unopened, noFile, 3, 0, by decide, hc, rfl, rfl⟩, h, rfl⟩

/-- A failed `writev`, and a write that succeeds. -/
theorem writes_atomic_failed : ∃ s, ((faultyWriter 22).guard Whole).Reachable s ∧
    s.calls.map (fun c => c.1.io.writev) = [.fail, .full] ∧ Atomic s := by
  obtain ⟨s, head, hinit, hh, hcalls⟩ := newLog
  have hnil : ¬PadsNext s.binlog s.sys ([7] : Bytes) := by
    rw [padsNext_iff (a := ⟨⟨true, true, .fail, 0⟩, [7]⟩) hh (by decide)]
    decide
  have w₁ : Whole s ⟨⟨true, true, .fail, 0⟩, [7]⟩ := fun _ => .inr ⟨rfl, hnil⟩
  have r₀ : ((faultyWriter 22).guard Whole).Reachable s := .init hinit
  obtain ⟨s₁, h₁⟩ := (writes_atomic 22 s r₀).2 ⟨⟨true, true, .fail, 0⟩, [7]⟩ (by decide)
  have r₁ := r₀.allowed h₁ w₁
  obtain ⟨s₂, h₂⟩ := (writes_atomic 22 s₁ r₁).2 ⟨⟨true, true, .full, 0⟩, [7]⟩ (by decide)
  have r₂ := r₁.allowed h₂ fun _ => .inl rfl
  refine ⟨s₂, r₂, ?_, (writes_atomic 22 s₂ r₂).1⟩
  cases h₁
  cases h₂
  rw [hcalls]
  rfl

/-- `writev` stores nothing of the first record; and in another log, it fails behind the padding
of the second block, and the third record goes where the padding ended. -/
theorem short_writev_returns :
    (∃ s, (faultyWriter 22).Reachable s ∧ s.calls.map (fun c => (c.1.io.writev, c.2)) = [(.short 0, 4104)] ∧
      ¬Atomic s) ∧
    ∃ s, (faultyWriter 22).Reachable s ∧
      s.calls.map (fun c => (c.1.io.writev, c.2)) = [(.full, 4104), (.fail, -1), (.full, 4110)] ∧ ¬Atomic s := by
  obtain ⟨s, head, hinit, h, hcalls⟩ := newLog
  have r₀ : (faultyWriter 22).Reachable s := .init hinit
  constructor
  · obtain ⟨sys, e, hdata⟩ := short_returns (a := ⟨⟨true, true, .short 0, 0⟩, []⟩) h (by decide) rfl
    refine ⟨_, r₀.step (.write (by decide) e), by rw [hcalls]; rfl, not_atomic rfl ?_⟩
    show (sys.data.drop 4104).head? ≠ _
    rw [hdata, List.drop_eq_nil_of_le (by rw [h.length]; decide)]
    nofun
  · obtain ⟨sys₁, e₁, h₁⟩ := write_spec (p := []) h (by decide) 0
    obtain ⟨sys₂, sys₃, e₂, -, e₃, hdata⟩ := padding_moves (a := ⟨⟨true, true, .fail, 0⟩, [1, 2, 3]⟩)
      (c := ⟨⟨true, true, .full, 0⟩, []⟩) h₁ (by decide) (by decide) rfl (by decide) (by decide) rfl
    have r₁ := r₀.step (.write (a := ⟨⟨true, true, .full, 0⟩, []⟩) (by decide) e₁)
    have r₂ := r₁.step (.write (by decide) e₂)
    refine ⟨_, r₂.step (.write (by decide) e₃), by rw [hcalls]; rfl, not_atomic rfl ?_⟩
    show (sys₃.data.drop (4096 + 14)).head? ≠ _
    rw [hdata, ← List.drop_drop, ← h.head, List.drop_left]
    decide

end Binlog
end SimpleSvr.L3
