import SimpleSvr.Core.LTS
import SimpleSvr.L3Storage.BinlogRobust

/-!
# What `OpenLog` accepts

`OpenLog` looks at the magic and the version of a head and at nothing else.
`Write` and `GetIterator` divide by its block size and subtract its data offset
from the size of the file. `accepted_usable`: they are safe, and the first record
gets a block head, exactly if there is a block size and the file is not cut off
inside a block in front of the data.
-/
namespace SimpleSvr.L3.Binlog

variable {b b₀ : Binlog} {sys sys₀ sys' : Sys} {io : WriteCalls} {buffer : Bytes} {n : Nat}

/-! ## Operations -/

/-- `none` is a division by zero.
mirrors src/Binlog.cc:260-271 -/
def getIteratorOf (b : Binlog) (mem : Nat → UInt8) (offset : Int) : Option BinlogIterator :=
  if offset < b.stHead.wDataOffset.toNat then some (getIterator b mem)
  else if b.stHead.dwBlockSize.toNat = 0 then none
  else some (getIteratorAt b mem offset)

/-- A log that `OpenLog` accepted, and any calls of `Write`. -/
def opened : LTS (Binlog × Sys) (WriteCalls × Bytes) where
  init s := ∃ b₀ sys₀ io, openLog b₀ sys₀ io = (s.1, s.2, 0)
  step s c s' := ∃ off, write s.1 s.2 c.1 c.2 = some (s'.2, off) ∧ s'.1 = s.1

/-- `Write` comes to compute `dwRemainSize`. -/
def Accepts (b : Binlog) (buffer : Bytes) : Prop :=
  u32 (getLogSize buffer.length) ≤ b.stHead.dwBlockSize.toNat

/-- What the calls on an open log rely on. -/
structure Usable (b : Binlog) (sys : Sys) : Prop where
  writes : ∀ io buffer, write b sys io buffer ≠ none
  iterates : ∀ mem offset, getIteratorOf b mem offset ≠ none
  remains : ∀ buffer, Accepts b buffer → 1 ≤ remainSize b.stHead sys.data.length ∧
    remainSize b.stHead sys.data.length ≤ b.stHead.dwBlockSize.toNat
  heads : ∀ io buffer sys' off n, sys.data.length ≤ b.stHead.wDataOffset.toNat →
    write b sys io buffer = some (sys', off) → off ≠ -1 →
    io.writev.amount (blockHeadBuf io.time ++ record buffer).length = some n →
    sys'.data = sys.data ++ (blockHeadBuf io.time ++ record buffer).take n

/-- The block size is not zero, and the file reaches to the data, or whole blocks are missing. -/
def Sized (b : Binlog) (sys : Sys) : Prop :=
  b.stHead.dwBlockSize.toNat ≠ 0 ∧ (b.stHead.wDataOffset.toNat ≤ sys.data.length ∨
    b.stHead.dwBlockSize.toNat ∣ b.stHead.wDataOffset.toNat - sys.data.length)

/-! ## The descriptor -/

/-- The descriptor is open for appending. -/
def Appends (b : Binlog) (sys : Sys) : Prop :=
  b.fdBinlog ≠ -1 ∧ ∃ pos, sys.desc b.fdBinlog = some ⟨pos, true⟩

theorem openLog_appends {io : OpenCalls} (h : openLog b₀ sys₀ io = (b, sys, 0)) : Appends b sys := by
  unfold openLog at h
  generalize (if b₀.fdBinlog = -1 then sys₀ else sys₀.close b₀.fdBinlog) = s at h
  cases hfd : io.newFd with
  | none => simp [hfd, Sys.openFile] at h
  | some fd =>
    simp only [hfd, Sys.openFile] at h
    by_cases hne : fd = -1
    · simp [hne] at h
    · rw [if_neg hne] at h
      have hd : (s.setDesc fd (some ⟨0, true⟩)).desc fd = some ⟨0, true⟩ := Sys.setDesc_self _
      split at h
      · simp at h
      · split at h
        · simp at h
        · split_ifs at h
          · simp at h
          · simp only [Prod.mk.injEq, and_true] at h
            obtain ⟨rfl, rfl⟩ := h
            exact ⟨hne, 0, hd⟩

theorem writevAt_appends {bytes : Bytes} {offset : Nat} {off : Int} (h : Appends b sys)
    (hw : writevAt b sys io bytes offset = (sys', off)) : Appends b sys' := by
  obtain ⟨hfd, pos, hd⟩ := h
  refine ⟨hfd, ?_⟩
  unfold writevAt Sys.write at hw
  rw [hd] at hw
  cases hn : io.writev.amount bytes.length with
  | none =>
    rw [hn] at hw
    cases hw
    exact ⟨pos, hd⟩
  | some n =>
    rw [hn] at hw
    cases hw
    exact ⟨_, Sys.setDesc_self _⟩

theorem write_appends {off : Int} (h : Appends b sys) (hw : write b sys io buffer = some (sys', off)) :
    Appends b sys' := by
  obtain ⟨hfd, pos, hd⟩ := h
  have h : Appends b sys := ⟨hfd, pos, hd⟩
  unfold write at hw
  rw [if_neg hfd] at hw
  dsimp only at hw
  split at hw
  · cases hw
    exact h
  · split at hw
    · cases hw
      exact h
    · split_ifs at hw
      · exact writevAt_appends h (Option.some.inj hw)
      · split at hw
        · cases hw
          exact h
        · next s hs =>
          refine writevAt_appends ⟨hfd, ?_⟩ (Option.some.inj hw)
          simp only [Sys.seekCur, hd] at hs
          split_ifs at hs
          cases hs
          exact ⟨_, Sys.setDesc_self _⟩
      · exact writevAt_appends h (Option.some.inj hw)

theorem appends_inductive : opened.Inductive fun s => Appends s.1 s.2 where
  init := by
    intro s hs
    obtain ⟨b₀, sys₀, io, h⟩ := hs
    exact openLog_appends h
  step := by
    intro s c s' h hs
    obtain ⟨off, hw, heq⟩ := hs
    rw [heq]
    exact write_appends h hw

/-! ## The remaining size -/

theorem remainSize_behind {h : BinlogHead} (hB : h.dwBlockSize.toNat ≠ 0) (hn : h.wDataOffset.toNat ≤ n) :
    remainSize h n = h.dwBlockSize.toNat - (n - h.wDataOffset.toNat) % h.dwBlockSize.toNat := by
  have hlt := Nat.mod_lt (n - h.wDataOffset.toNat) (Nat.pos_of_ne_zero hB)
  have h32 := h.dwBlockSize.toNat_lt
  unfold remainSize
  rw [← Int.ofNat_sub hn, Int.tmod_eq_emod_of_nonneg (Int.natCast_nonneg _), ← Int.natCast_emod]
  omega

/-- In front of the data the remainder is negative. -/
theorem remainSize_before {h : BinlogHead} (hn : n ≤ h.wDataOffset.toNat) :
    remainSize h n = (h.dwBlockSize.toNat + (h.wDataOffset.toNat - n) % h.dwBlockSize.toNat) % 2 ^ 32 := by
  have hneg : (n : Int) - h.wDataOffset.toNat = -((h.wDataOffset.toNat - n : Nat) : Int) := by omega
  unfold remainSize
  rw [hneg, Int.neg_tmod, Int.tmod_eq_emod_of_nonneg (Int.natCast_nonneg _), ← Int.natCast_emod]
  omega

theorem remains_of_sized (h : Sized b sys) : 1 ≤ remainSize b.stHead sys.data.length ∧
    remainSize b.stHead sys.data.length ≤ b.stHead.dwBlockSize.toNat := by
  obtain ⟨hB, hsize⟩ := h
  have h32 := b.stHead.dwBlockSize.toNat_lt
  by_cases hn : b.stHead.wDataOffset.toNat ≤ sys.data.length
  · have hlt := Nat.mod_lt (sys.data.length - b.stHead.wDataOffset.toNat) (Nat.pos_of_ne_zero hB)
    rw [remainSize_behind hB hn]
    omega
  · have hdvd := Nat.mod_eq_zero_of_dvd (hsize.resolve_left hn)
    rw [remainSize_before (by omega), hdvd]
    omega

theorem remainSize_eq_block (h : Sized b sys) (hn : sys.data.length ≤ b.stHead.wDataOffset.toNat) :
    remainSize b.stHead sys.data.length = b.stHead.dwBlockSize.toNat := by
  obtain ⟨hB, hsize⟩ := h
  have h32 := b.stHead.dwBlockSize.toNat_lt
  have hdvd : b.stHead.dwBlockSize.toNat ∣ b.stHead.wDataOffset.toNat - sys.data.length := by
    rcases hsize with hle | hdvd
    · rw [Nat.sub_eq_zero_of_le hle]
      exact Nat.dvd_zero _
    · exact hdvd
  rw [remainSize_before hn, Nat.mod_eq_zero_of_dvd hdvd]
  omega

/-- Cut off inside a block in front of the data, the remainder is not a whole block. -/
theorem remainSize_ne_block (hB : b.stHead.dwBlockSize.toNat ≠ 0) (hn : sys.data.length < b.stHead.wDataOffset.toNat)
    (hdvd : ¬b.stHead.dwBlockSize.toNat ∣ b.stHead.wDataOffset.toNat - sys.data.length) :
    remainSize b.stHead sys.data.length ≠ b.stHead.dwBlockSize.toNat := by
  have h32 := b.stHead.dwBlockSize.toNat_lt
  have hlt := Nat.mod_lt (b.stHead.wDataOffset.toNat - sys.data.length) (Nat.pos_of_ne_zero hB)
  have hpos : (b.stHead.wDataOffset.toNat - sys.data.length) % b.stHead.dwBlockSize.toNat ≠ 0 :=
    fun h0 => hdvd (Nat.dvd_of_mod_eq_zero h0)
  rw [remainSize_before (by omega)]
  omega

/-! ## Writes -/

/-- A write that is not made at a block boundary and for which the block has room. -/
theorem write_plain (io : WriteCalls) {pos : Nat} (hfd : b.fdBinlog ≠ -1) (hd : sys.desc b.fdBinlog = some ⟨pos, true⟩)
    (hio : io.fstat = true) (hbuf : Accepts b buffer) (hB : b.stHead.dwBlockSize.toNat ≠ 0)
    (hne : remainSize b.stHead sys.data.length ≠ b.stHead.dwBlockSize.toNat)
    (hroom : u32 (getLogSize buffer.length) ≤ remainSize b.stHead sys.data.length) :
    write b sys io buffer = some (writevAt b sys io (record buffer) sys.data.length) := by
  unfold write
  simp only [hfd, if_false, hio, Sys.size_ok hd, hB, hne]
  rw [if_neg (Nat.not_lt.mpr hbuf), if_neg (Nat.not_lt.mpr hroom)]

theorem write_boundary {pos : Nat} (hfd : b.fdBinlog ≠ -1) (hd : sys.desc b.fdBinlog = some ⟨pos, true⟩)
    (hio : io.fstat = true) (hbuf : Accepts b buffer) (hB : b.stHead.dwBlockSize.toNat ≠ 0)
    (heq : remainSize b.stHead sys.data.length = b.stHead.dwBlockSize.toNat) :
    write b sys io buffer =
      some (writevAt b sys io (blockHeadBuf io.time ++ record buffer) (sys.data.length + blockheadSize)) := by
  unfold write
  simp only [hfd, if_false, hio, Sys.size_ok hd, hB, heq, if_true]
  rw [if_neg (Nat.not_lt.mpr hbuf)]

/-- What is written through an appending descriptor goes behind what is there. -/
theorem writevAt_appended (io : WriteCalls) (bytes : Bytes) {pos : Nat} (hd : sys.desc b.fdBinlog = some ⟨pos, true⟩)
    (hn : io.writev.amount bytes.length = some n) (offset : Nat) :
    ∃ sys', writevAt b sys io bytes offset = (sys', (offset : Int)) ∧ sys'.data = sys.data ++ bytes.take n := by
  simp only [writevAt, Sys.write, hd, hn]
  refine ⟨_, rfl, ?_⟩
  by_cases hne : bytes.take n = []
  · rw [hne, List.append_nil, Sys.setDesc_data, Sys.store, if_pos rfl]
  · exact Sys.store_at_end hne

theorem write_not_none (hB : b.stHead.dwBlockSize.toNat ≠ 0) (io : WriteCalls) (buffer : Bytes) :
    write b sys io buffer ≠ none := by
  unfold write
  simp only [hB, if_false]
  split_ifs
  · simp
  · simp
  · split
    · simp
    · split_ifs
      · simp
      · split <;> simp
      · simp

theorem usable_of_sized (ha : Appends b sys) (h : Sized b sys) : Usable b sys where
  writes := write_not_none h.1
  iterates := by
    intro mem offset
    unfold getIteratorOf
    rw [if_neg h.1]
    split_ifs <;> simp
  remains := fun _ _ => remains_of_sized h
  heads := by
    intro io buffer sys' off n hn hw hoff hk
    obtain ⟨hfd, pos, hd⟩ := ha
    by_cases hbuf : Accepts b buffer
    · by_cases hio : io.fstat = true
      · rw [write_boundary hfd hd hio hbuf h.1 (remainSize_eq_block h hn)] at hw
        obtain ⟨sys₁, hsys, hdata⟩ := writevAt_appended io _ hd hk (sys.data.length + blockheadSize)
        rw [hsys] at hw
        cases hw
        exact hdata
      · unfold write at hw
        simp only [hfd, if_false, Sys.size, hd, hio] at hw
        rw [if_neg (Nat.not_lt.mpr hbuf)] at hw
        cases hw
        exact absurd rfl hoff
    · -- the record is not accepted
      unfold write at hw
      rw [if_neg hfd] at hw
      dsimp only at hw
      rw [if_pos (Nat.not_le.mp hbuf)] at hw
      cases hw
      exact absurd rfl hoff

/-- The payload whose size, with six more, is 2^32: `GetLogSize` is 0 in 32 bits. -/
def wrapping : Bytes := List.replicate (2 ^ 32 - 6) 0

theorem wrapping_size : u32 (getLogSize wrapping.length) = 0 := by
  rw [wrapping, List.length_replicate]
  rfl

theorem sized_of_usable (ha : Appends b sys) (h : Usable b sys) : Sized b sys := by
  have hB : b.stHead.dwBlockSize.toNat ≠ 0 := by
    intro h0
    apply h.iterates (fun _ => 0) b.stHead.wDataOffset.toNat
    unfold getIteratorOf
    rw [if_neg (Int.lt_irrefl _), if_pos h0]
  refine ⟨hB, ?_⟩
  by_contra hno
  obtain ⟨hn, hdvd⟩ := not_or.mp hno
  have hn := Nat.not_le.mp hn
  obtain ⟨hfd, pos, hd⟩ := ha
  have hbuf : Accepts b wrapping := by
    rw [Accepts, wrapping_size]
    exact Nat.zero_le _
  -- the record goes in without a head
  have hw := write_plain ⟨true, true, .full, 0⟩ hfd hd rfl hbuf hB (remainSize_ne_block hB hn hdvd)
    (by rw [wrapping_size]; exact Nat.zero_le _)
  obtain ⟨sys₁, hsys, hdata⟩ := writevAt_appended ⟨true, true, .full, 0⟩ (record wrapping) hd rfl
    sys.data.length
  rw [hsys] at hw
  have hhead := h.heads _ wrapping _ _ _ (Nat.le_of_lt hn) hw (by omega) rfl
  rw [hdata, List.take_length, List.take_length] at hhead
  have hlen := congrArg List.length (List.append_cancel_left hhead)
  rw [List.length_append, length_blockHeadBuf] at hlen
  omega

/-! ## Accepted logs -/

/-- In every state after `OpenLog` accepted a file and any calls of `Write`, the next calls can be made
safely exactly if the sizes are as they should be. -/
theorem accepted_usable {s : Binlog × Sys} (hr : opened.Reachable s) : Usable s.1 s.2 ↔ Sized s.1 s.2 := by
  have ha := appends_inductive.reachable s hr
  exact ⟨sized_of_usable ha, usable_of_sized ha⟩

/-- `OpenLog` accepts the empty log that `CreateLog` makes, whatever the block size. -/
theorem openLog_empty (B time : UInt32) : ∃ b sys,
    openLog unopened ⟨fileHeadBuf (newHead B time), fun _ => none⟩ ⟨some 3, .full, fun _ => 0⟩ = (b, sys, 0) ∧
      b.stHead = newHead B time ∧ sys.data.length = 4096 := by
  have hdata : (⟨fileHeadBuf (newHead B time), fun _ => none⟩ : Sys).data = fileHeadBuf (newHead B time) ++ [] := by
    simp only [List.append_nil]
  obtain ⟨b, sys, ho, h, hhead⟩ := openLog_spec unopened _ (show (3 : Int) ≠ -1 by decide) hdata fun _ => 0
  refine ⟨b, sys, ho, hhead, ?_⟩
  rw [h.data, List.append_nil]
  exact length_fileHeadBuf rfl

/-- An empty log with blocks of 64 bytes, opened again. -/
theorem accepted_usable_empty : ∃ b sys io,
    openLog unopened ⟨fileHeadBuf (newHead 64 9), fun _ => none⟩ io = (b, sys, 0) ∧ Usable b sys := by
  obtain ⟨b, sys, ho, hhead, hlen⟩ := openLog_empty 64 9
  refine ⟨b, sys, _, ho, (accepted_usable (s := (b, sys)) (.init ⟨_, _, _, ho⟩)).mpr ⟨?_, .inl ?_⟩⟩
  · rw [hhead]
    decide
  · rw [hhead, hlen]
    decide

/-- A log without a block size is accepted. -/
theorem accepted_divides_by_zero : ∃ b sys io, openLog unopened ⟨fileHeadBuf (newHead 0 9), fun _ => none⟩ io =
    (b, sys, 0) ∧ opened.Reachable (b, sys) ∧ (∀ mem, getIteratorOf b mem 4096 = none) ∧ ¬Usable b sys := by
  obtain ⟨b, sys, ho, hhead, -⟩ := openLog_empty 0 9
  have hnone (mem : Nat → UInt8) : getIteratorOf b mem 4096 = none := by
    unfold getIteratorOf
    rw [hhead]
    rfl
  exact ⟨b, sys, _, ho, .init ⟨_, _, _, ho⟩, hnone, fun hu => hu.iterates (fun _ => 0) 4096 (hnone _)⟩

end SimpleSvr.L3.Binlog
