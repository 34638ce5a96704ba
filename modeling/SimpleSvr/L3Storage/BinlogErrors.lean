import SimpleSvr.L3Storage.BinlogRobust

/-!
# Reads that fail

`Next` returns -1 when its `fstat` or its `pread` fails. `fstat` is asked before
the iterator is touched. `pread` puts its -1 into `dwRealSize`, the number of
bytes that are loaded, and the next call compares that as 2^32 - 1: it parses at
`dwOffset`, behind all that was ever loaded, and never asks for the block again.

`error_unspoiled`: a call that fails leaves the iterator as it should be exactly
if it is `fstat` that failed.
-/
namespace SimpleSvr.L3.Binlog
open L1

variable {b : Binlog} {sys : Sys} {io : ReadCalls} {it it' h h' x : BinlogIterator} {r : Result}
variable {got : Bytes} {j k n : Nat}

/-! ## What is loaded -/

/-- The turn asks for the size of the file.
mirrors src/Binlog.cc:282,310 -/
def AsksSize (b : Binlog) (it : BinlogIterator) : Prop :=
  it.loadedSize ≤ it.dwOffset ∧ it.dwOffset < b.stHead.dwBlockSize.toNat ∧ 0 < it.dwRealSize ∧
    it.loadedSize < b.stHead.dwBlockSize.toNat

/-- The turn comes to a `pread`. -/
def ComesToPread (b : Binlog) (sys : Sys) (io : ReadCalls) (it : BinlogIterator) : Prop :=
  it.loadedSize ≤ it.dwOffset ∧ (AsksSize b it →
    io.fstat = true ∧ u32 (blockOffset b it.dwBlockIndex + it.dwOffset) < sys.data.length)

/-- The block that it reads. -/
def preadIndex (b : Binlog) (it : BinlogIterator) : Nat :=
  if b.stHead.dwBlockSize.toNat ≤ it.dwOffset then u32 (it.dwBlockIndex + 1) else it.dwBlockIndex

instance (b : Binlog) (it : BinlogIterator) : Decidable (AsksSize b it) :=
  inferInstanceAs (Decidable (_ ∧ _ ∧ _ ∧ _))

instance (b : Binlog) (sys : Sys) (io : ReadCalls) (it : BinlogIterator) : Decidable (ComesToPread b sys io it) :=
  inferInstanceAs (Decidable (_ ∧ (_ → _ ∧ _)))

/-- How many bytes of the cache are loaded after the turn, if `k` were: what `pread` gave. -/
def loadedAfter (b : Binlog) (sys : Sys) (io : ReadCalls) (it : BinlogIterator) (k : Nat) : Nat :=
  if ComesToPread b sys io it then
    match sys.pread b.fdBinlog io.pread b.stHead.dwBlockSize.toNat (blockOffset b (preadIndex b it)) with
    | some got => got.length
    | none => k
  else k

/-- A turn looks at loaded bytes only, of which there are `k` before it. -/
def LooksInside (b : Binlog) (sys : Sys) (io : ReadCalls) (it : BinlogIterator) (k : Nat) : Prop :=
  (turn b sys io it).left.isSome ∧ turn b sys io (it.upTo (loadedAfter b sys io it k)) =
    (turn b sys io it).map (·.upTo (loadedAfter b sys io it k))

/-! ## Calls that fail -/

def FstatFails (b : Binlog) (io : ReadCalls) (it : BinlogIterator) : Prop :=
  AsksSize b it ∧ io.fstat = false

def PreadFails (b : Binlog) (sys : Sys) (io : ReadCalls) (it : BinlogIterator) : Prop :=
  ComesToPread b sys io it ∧ io.pread = .fail

/-- `Next`, called with `it`, comes to a turn with `h` while its reads do not fail. -/
inductive Comes (b : Binlog) (sys : Sys) (it : BinlogIterator) : BinlogIterator → Prop
  | here : Comes b sys it it
  | onward {h h' : BinlogIterator} (hc : Comes b sys it h) (ht : turn b sys readOk h = .again h') : Comes b sys it h'

/-- `Next`, called with `it`, returns -1 and leaves `it'`, since `fstat` or `pread` failed in its turn with
`h`. -/
structure ErrorCall (b : Binlog) (sys : Sys) (io : ReadCalls) (it h it' : BinlogIterator) : Prop where
  comes : Comes b sys it h
  fails : FstatFails b io h ∨ PreadFails b sys io h
  returns : turn b sys io h = .done (.ret it' (-1))

/-- A turn of a later call: any calls, in which no further `pread` fails, on any file. `j` bytes are
loaded then, if `k` are loaded in `it`. -/
inductive Later (b : Binlog) (it : BinlogIterator) (k : Nat) : BinlogIterator → Nat → Prop
  | here : Later b it k it k
  | turn {h h' : BinlogIterator} {j : Nat} {sys : Sys} {io : ReadCalls} (hl : Later b it k h j)
      (hs : Readable b sys) (hio : io.pread ≠ .fail) (ht : (turn b sys io h).left = some h') :
      Later b it k h' (loadedAfter b sys io h j)

/-- No later call reads outside the loaded part of the cache, of `k` bytes when `it'` was left; and where
reads do not fail, `Next` does with `it'` what it would have done with `it`. -/
structure Unspoiled (b : Binlog) (sys : Sys) (it it' : BinlogIterator) (k : Nat) : Prop where
  inside : ∀ h j, Later b it' k h j → ∀ sys io, Readable b sys → io.pread ≠ .fail → LooksInside b sys io h j
  same : ∀ r, (∃ n, next b sys (fun _ => readOk) n it' = some r) ↔ ∃ n, next b sys (fun _ => readOk) n it = some r

/-- Iterators from `GetIterator` and any number of calls of `Next`, in which `fstat` may fail. The file
may be another one at each call. -/
def errorReading (b : Binlog) : LTS BinlogIterator Sys where
  init it := ∃ mem, it = getIterator b mem ∨ ∃ offset, 0 < b.stHead.dwBlockSize.toNat ∧ it = getIteratorAt b mem offset
  step it sys it' := Readable b sys ∧ ∃ io n r, (∀ k, (io k).pread ≠ .fail) ∧ next b sys io n it = some r ∧
    r.left = some it'

/-! ## The loaded bytes -/

/-- `f` leaves the length of the cache as it is. -/
def KeepsReal (f : BinlogIterator → Turn) : Prop :=
  ∀ it x, (f it).left = some x → x.dwRealSize = it.dwRealSize

theorem keepsReal_checkBlockHead {cont : BinlogIterator → Turn} (hc : KeepsReal cont) :
    KeepsReal fun it => checkBlockHead b it cont := by
  intro it x hx
  simp only [checkBlockHead] at hx
  split at hx
  · next e _ =>
    cases e with
    | fault => cases hx
    | _ =>
      cases hx
      rfl
  · split at hx
    · cases hx
      rfl
    · have hreal := hc _ x hx
      exact hreal

theorem keepsReal_moveTo (f : BinlogIterator → Nat) :
    KeepsReal fun it => .again { it with dwOffset := f it } := by
  intro it x hx
  cases hx
  rfl

theorem preadBlock_left {cont : BinlogIterator → Turn} (hroom : b.stHead.dwBlockSize.toNat ≤ it.cBlockBuffer.length)
    (hs : Readable b sys) (hio : io.pread ≠ .fail) (hc : KeepsReal cont)
    (hx : (preadBlock b sys io it cont).left = some x) :
    ∃ got, sys.pread b.fdBinlog io.pread b.stHead.dwBlockSize.toNat (blockOffset b it.dwBlockIndex) = some got ∧
      x.loadedSize = got.length := by
  have hB := b.stHead.dwBlockSize.toNat_lt
  obtain ⟨got, hgot, hle⟩ := pread_reads hs hio b.stHead.dwBlockSize.toNat (blockOffset b it.dwBlockIndex)
  have hlt : got.length < 2 ^ 32 := by omega
  have hfill := fill_loadedSize it hlt
  refine ⟨got, hgot, ?_⟩
  rw [preadBlock_eq cont hgot (by omega) hlt] at hx
  split_ifs at hx
  · cases hx
    exact hfill
  · cases hx
    exact hfill
  · rw [BinlogIterator.loadedSize, hc _ x hx]
    exact hfill

theorem size_readable (hs : Readable b sys) (ok : Bool) :
    sys.size b.fdBinlog ok = if ok then some sys.data.length else none := by
  obtain ⟨d, hd⟩ := hs
  simp [Sys.size, hd]

/-- The three ways of a turn that refills. -/
theorem refill_next_block (hoff : b.stHead.dwBlockSize.toNat ≤ it.dwOffset) :
    refill b sys io it = preadBlock b sys io { it with dwBlockIndex := preadIndex b it } fun it =>
      checkBlockHead b it fun it => .again { it with dwOffset := blockheadSize } := by
  unfold refill preadIndex
  rw [if_pos hoff, if_pos hoff]

theorem refill_asks (hs : Readable b sys) (ha : AsksSize b it) :
    refill b sys io it =
      if io.fstat = true then
        if u32 (blockOffset b it.dwBlockIndex + it.dwOffset) ≥ sys.data.length then .done (.ret it 0)
        else preadBlock b sys io it .again
      else .done (.ret it (-1)) := by
  obtain ⟨-, hoff, hreal, hpart⟩ := ha
  unfold refill
  have hcached : it.dwRealSize > 0 ∧ ofInt32 it.dwRealSize < _ := ⟨hreal, hpart⟩
  simp only [if_neg (Nat.not_le.mpr hoff), if_pos hcached, size_readable hs]
  cases io.fstat <;> rfl

theorem refill_loads (hused : it.loadedSize ≤ it.dwOffset) (hoff : it.dwOffset < b.stHead.dwBlockSize.toNat)
    (ha : ¬AsksSize b it) :
    refill b sys io it = preadBlock b sys io it fun it => checkBlockHead b it fun it =>
      .again { it with dwOffset := if it.dwOffset < blockheadSize then blockheadSize else it.dwOffset } := by
  have hpart : ¬(it.dwRealSize > 0 ∧ ofInt32 it.dwRealSize < b.stHead.dwBlockSize.toNat) :=
    fun hp => ha ⟨hused, hoff, hp.1, hp.2⟩
  unfold refill
  rw [if_neg (Nat.not_le.mpr hoff), if_neg hpart]

theorem preadIndex_of_lt (hoff : it.dwOffset < b.stHead.dwBlockSize.toNat) : preadIndex b it = it.dwBlockIndex :=
  if_neg (Nat.not_le.mpr hoff)

/-- In a run where no `pread` fails, `dwRealSize` is what is loaded. -/
theorem left_loadedSize (hi : Inv b it) (hs : Readable b sys) (hio : io.pread ≠ .fail)
    (hx : (turn b sys io it).left = some x) : x.loadedSize = loadedAfter b sys io it it.loadedSize := by
  unfold loadedAfter
  by_cases hused : it.loadedSize ≤ it.dwOffset
  · rw [turn_refill b sys io hused] at hx
    by_cases hoff : b.stHead.dwBlockSize.toNat ≤ it.dwOffset
    · rw [refill_next_block hoff] at hx
      obtain ⟨got, hgot, hlen⟩ := @preadBlock_left b sys io { it with dwBlockIndex := preadIndex b it } x _
        hi.room hs hio (keepsReal_checkBlockHead (keepsReal_moveTo fun _ => blockheadSize)) hx
      have hcomes : ComesToPread b sys io it := ⟨hused, fun ha => absurd ha.2.1 (Nat.not_lt.mpr hoff)⟩
      rw [if_pos hcomes, hgot]
      exact hlen
    · have hlt := Nat.not_le.mp hoff
      rw [preadIndex_of_lt hlt]
      by_cases ha : AsksSize b it
      · rw [refill_asks hs ha] at hx
        split_ifs at hx with hf hfile
        · rw [if_neg fun hcomes => Nat.not_lt.mpr hfile (hcomes.2 ha).2]
          cases hx
          rfl
        · obtain ⟨got, hgot, hlen⟩ := preadBlock_left hi.room hs hio (fun y x hx => by cases hx; rfl) hx
          rw [if_pos ⟨hused, fun _ => ⟨hf, Nat.not_le.mp hfile⟩⟩, hgot]
          exact hlen
        · rw [if_neg fun hcomes => hf (hcomes.2 ha).1]
          cases hx
          rfl
      · rw [refill_loads hused hlt ha] at hx
        obtain ⟨got, hgot, hlen⟩ := preadBlock_left hi.room hs hio (keepsReal_checkBlockHead (keepsReal_moveTo _)) hx
        rw [if_pos ⟨hused, fun h => absurd h ha⟩, hgot]
        exact hlen
  · rw [if_neg fun hcomes => hused hcomes.1]
    cases (parse_cases sys io hi (Nat.not_le.mp hused)).1 with
    | skips y ht hy _ _ | throws y ht hy _ _ _ | returns y _ ht hy _ _ _ _ =>
      rw [ht] at hx
      cases hx
      exact hy.loadedSize

theorem looksInside (hi : Inv b it) (hs : Readable b sys) (hio : io.pread ≠ .fail) :
    LooksInside b sys io it it.loadedSize := by
  obtain ⟨x, hx, hup⟩ := (turn_sound hi hs hio).inLoaded
  rw [left_loadedSize hi hs hio hx] at hup
  refine ⟨?_, hup⟩
  rw [hx]
  rfl

/-! ## Calls whose reads do not fail -/

/-- In later calls too, `dwRealSize` is what is loaded. -/
theorem Later.inv (hl : Later b it it.loadedSize h j) (hi : Inv b it) : Inv b h ∧ j = h.loadedSize := by
  induction hl with
  | here => exact ⟨hi, rfl⟩
  | turn hl hs hio ht ih =>
    obtain ⟨hih, rfl⟩ := ih
    exact ⟨(turn_sound hih hs hio).inv _ ht, (left_loadedSize hih hs hio ht).symm⟩

theorem turns_inv {io : Nat → ReadCalls} (hi : Inv b it) (hs : Readable b sys) (hio : ∀ k, (io k).pread ≠ .fail)
    (ht : turns b sys io n it = some r) : ∀ x, r.left = some x → Inv b x := by
  induction n generalizing it io with
  | zero => cases ht
  | succ n ih =>
    have hsound := turn_sound hi hs (hio 0)
    unfold turns at ht
    cases hturn : turn b sys (io 0) it with
    | again y =>
      simp only [hturn] at ht
      exact ih (hsound.inv y (by rw [hturn]; rfl)) (fun k => hio (k + 1)) ht
    | done r' =>
      simp only [hturn, Option.some.injEq] at ht
      subst ht
      intro x hx
      exact hsound.inv x (by rw [hturn]; exact hx)

theorem Inv.next_eq (hi : Inv b it) (sys : Sys) (io : Nat → ReadCalls) (n : Nat) :
    next b sys io n it = turns b sys io n it := by
  have hsize := hi.size
  unfold next
  rw [if_neg (by omega)]

theorem errorReading_inductive : (errorReading b).Inductive (Inv b) where
  init := by
    intro it hit
    obtain ⟨mem, rfl | ⟨offset, hB, rfl⟩⟩ := hit
    · exact inv_getIterator mem
    · exact inv_getIteratorAt mem offset hB
  step := by
    intro it sys it' hi hstep
    obtain ⟨hs, io, n, r, hio, hn, hl⟩ := hstep
    rw [hi.next_eq] at hn
    exact turns_inv hi hs hio hn it' hl

theorem readOk_pread : readOk.pread ≠ .fail := by decide

theorem Comes.inv (hc : Comes b sys it h) (hi : Inv b it) (hs : Readable b sys) : Inv b h := by
  induction hc with
  | here => exact hi
  | onward _ ht ih => exact (turn_sound ih hs readOk_pread).inv _ (by rw [ht]; rfl)

/-- The turns up to `h` are the same whoever makes them. -/
theorem Comes.same (hc : Comes b sys it h) (r : Result) :
    (∃ n, turns b sys (fun _ => readOk) n h = some r) ↔ ∃ n, turns b sys (fun _ => readOk) n it = some r := by
  induction hc with
  | here => exact .rfl
  | @onward h h' _ ht ih =>
    refine Iff.trans ?_ ih
    have hstep (n : Nat) : turns b sys (fun _ => readOk) (n + 1) h = turns b sys (fun _ => readOk) n h' := by
      simp only [turns, ht]
    constructor
    · intro hr
      obtain ⟨n, hn⟩ := hr
      exact ⟨n + 1, (hstep n).trans hn⟩
    · intro hr
      obtain ⟨n, hn⟩ := hr
      cases n with
      | zero => cases hn
      | succ n => exact ⟨n, (hstep n).symm.trans hn⟩

/-- A turn that ends is the end of a call. -/
theorem Comes.ends (hc : Comes b sys it h) : ∀ r, (∃ io n, turns b sys io n h = some r) →
    ∃ io n, turns b sys io n it = some r := by
  induction hc with
  | here =>
    intro r hr
    exact hr
  | onward _ ht ih =>
    intro r hr
    obtain ⟨io, n, hn⟩ := hr
    refine ih r ⟨fun k => if k = 0 then readOk else io (k - 1), n + 1, ?_⟩
    simp only [turns, if_true, ht]
    exact hn

theorem ErrorCall.next (he : ErrorCall b sys io it h it') (hi : Inv b it) :
    ∃ io n, next b sys io n it = some (.ret it' (-1)) := by
  have hlast : turns b sys (fun _ => io) 1 h = some (.ret it' (-1)) := by simp only [turns, he.returns]
  obtain ⟨ios, n, hn⟩ := he.comes.ends _ ⟨_, 1, hlast⟩
  exact ⟨ios, n, (hi.next_eq sys ios n).trans hn⟩

/-! ## The two errors -/

/-- `fstat` is asked before anything is changed. -/
theorem fstat_keeps (hs : Readable b sys) (hf : FstatFails b io h) :
    turn b sys io h = .done (.ret h (-1)) := by
  obtain ⟨ha, hfail⟩ := hf
  rw [turn_refill b sys io ha.1, refill_asks hs ha, hfail]
  rfl

theorem pread_fails (io : ReadCalls) (hio : io.pread = .fail) (cont : BinlogIterator → Turn) :
    preadBlock b sys io it cont = .done (.ret { it with dwRealSize := -1 } (-1)) := by
  have hnone : sys.pread b.fdBinlog io.pread b.stHead.dwBlockSize.toNat (blockOffset b it.dwBlockIndex) = none := by
    unfold Sys.pread
    rw [hio]
    split <;> rfl
  unfold preadBlock
  rw [hnone]

/-- `pread` overwrites the length of the cache, and the index may have been raised. -/
theorem pread_spoils (hs : Readable b sys) (hf : PreadFails b sys io h) :
    turn b sys io h = .done (.ret { h with dwBlockIndex := preadIndex b h, dwRealSize := -1 } (-1)) := by
  obtain ⟨⟨hused, hasks⟩, hfail⟩ := hf
  rw [turn_refill b sys io hused]
  by_cases hoff : b.stHead.dwBlockSize.toNat ≤ h.dwOffset
  · rw [refill_next_block hoff, pread_fails io hfail]
  · have hlt := Nat.not_le.mp hoff
    rw [preadIndex_of_lt hlt]
    by_cases ha : AsksSize b h
    · obtain ⟨hstat, hfile⟩ := hasks ha
      rw [refill_asks hs ha, if_pos hstat, if_neg (Nat.not_le.mpr hfile), pread_fails io hfail]
    · rw [refill_loads hused hlt ha, pread_fails io hfail]

/-- The next call parses behind what was loaded. -/
theorem spoiled_looks_outside (hreal : it'.dwRealSize = -1) (hoff : it'.dwOffset < 2 ^ 32 - 1)
    (hk : k ≤ it'.dwOffset) : ¬LooksInside b sys io it' k := by
  intro hin
  obtain ⟨hleft, hup⟩ := hin
  have hsize : it'.loadedSize = 2 ^ 32 - 1 := by
    rw [BinlogIterator.loadedSize, hreal]
    rfl
  have hafter : loadedAfter b sys io it' k = k := by
    unfold loadedAfter
    rw [if_neg]
    intro hcomes
    have hle := hcomes.1
    omega
  have hnone : (it'.upTo k).cBlockBuffer[(it'.upTo k).dwOffset]? = none := by
    simp [BinlogIterator.upTo]
    omega
  have hfault : turn b sys io (it'.upTo k) = .done .fault := by
    rw [@turn_parse (it'.upTo k) b sys io (show it'.dwOffset < it'.loadedSize by omega)]
    unfold parseLog
    rw [hnone]
  rw [hafter, hfault] at hup
  cases hturn : turn b sys io it' with
  | again x =>
    rw [hturn] at hup
    cases hup
  | done r =>
    rw [hturn] at hup hleft
    cases r with
    | fault => cases hleft
    | ret x v => cases hup
    | throws x => cases hup

theorem unspoiled_of_fstat (hi : Inv b it) (hs : Readable b sys) (hc : Comes b sys it h) :
    Unspoiled b sys it h h.loadedSize where
  inside := by
    intro h' j hl sys io hs' hio
    obtain ⟨hi', rfl⟩ := hl.inv (hc.inv hi hs)
    exact looksInside hi' hs' hio
  same := by
    intro r
    simp only [hi.next_eq, (hc.inv hi hs).next_eq]
    exact hc.same r

theorem not_unspoiled_of_pread (hs : Readable b sys) (hf : PreadFails b sys io h) (hoff : h.dwOffset < 2 ^ 32 - 1) :
    ¬Unspoiled b sys it { h with dwBlockIndex := preadIndex b h, dwRealSize := -1 } h.loadedSize := by
  intro hun
  have hin := hun.inside _ _ .here sys readOk hs readOk_pread
  revert hin
  apply spoiled_looks_outside
  · rfl
  · exact hoff
  · exact hf.1.1

/-! ## Errors -/

/-- An error of `fstat` does not spoil the iterator; one of `pread` does, but for an iterator at the very
end of a block of 2^32 - 1 bytes. -/
theorem error_unspoiled (hr : (errorReading b).Reachable it) (hs : Readable b sys) (he : ErrorCall b sys io it h it') :
    (FstatFails b io h → Unspoiled b sys it it' h.loadedSize) ∧
      (h.dwOffset < 2 ^ 32 - 1 → (Unspoiled b sys it it' h.loadedSize ↔ FstatFails b io h)) := by
  have hi := errorReading_inductive.reachable it hr
  have hstat : FstatFails b io h → Unspoiled b sys it it' h.loadedSize := by
    intro hf
    have hret := (fstat_keeps hs hf).symm.trans he.returns
    simp only [Turn.done.injEq, Result.ret.injEq, and_true] at hret
    rw [← hret]
    exact unspoiled_of_fstat hi hs he.comes
  refine ⟨hstat, fun hoff => ⟨fun hun => ?_, hstat⟩⟩
  rcases he.fails with hf | hf
  · exact hf
  · have hret := (pread_spoils hs hf).symm.trans he.returns
    simp only [Turn.done.injEq, Result.ret.injEq, and_true] at hret
    rw [← hret] at hun
    exact absurd hun (not_unspoiled_of_pread hs hf hoff)

/-- A block that is not full yet, with one record. -/
def recordFile : Sys := smallFile [0xEF, 0, 0, 0, 0, 0, 0, 0, 0x03, 0, 0, 0, 0, 0x0a]

def recordRead : BinlogIterator where
  dwBlockIndex := 0
  dwOffset := 14
  dwBlockSize := 16
  cBlockBuffer := [0xEF, 0, 0, 0, 0, 0, 0, 0, 0x03, 0, 0, 0, 0, 0x0a, 0, 0]
  dwRealSize := 14
  stBlockHead := { cMagic := 0xEF, dwCreateTime := 0 }
  cLogBuffer := 13
  dwLogSize := 0
  dwLogOffset := 32

/-- The record was returned; at the next call `fstat` fails. -/
theorem error_unspoiled_fstat : turn smallLog recordFile ⟨false, .full⟩ recordRead = .done (.ret recordRead (-1)) ∧
    Unspoiled smallLog recordFile recordRead recordRead 14 := by
  have hs : Readable smallLog recordFile := ⟨_, rfl⟩
  have hit : next smallLog recordFile (fun _ => readOk) 2 (getIterator smallLog fun _ => 0) =
      some (.ret recordRead 6) := by decide
  have hreach : (errorReading smallLog).Reachable recordRead :=
    .step (.init ⟨_, .inl rfl⟩) ⟨hs, _, _, _, fun _ => readOk_pread, hit, rfl⟩
  have hfails : FstatFails smallLog ⟨false, .full⟩ recordRead := ⟨by decide, rfl⟩
  have hret := fstat_keeps hs hfails
  exact ⟨hret, (error_unspoiled hreach hs ⟨.here, .inl hfails, hret⟩).1 hfails⟩

/-- A new log with one record; the first `pread` fails. -/
theorem pread_error_spoils : ∃ b sys sys' it it', createLog unopened noFile ⟨some 3, true, 9, .full⟩ 64 = (b, sys, 0) ∧
    write b sys ⟨true, true, .full, 9⟩ [7] = some (sys', 4104) ∧ Readable b sys' ∧ (errorReading b).Reachable it ∧
    (∃ io n, next b sys' io n it = some (.ret it' (-1))) ∧ ErrorCall b sys' ⟨true, .fail⟩ it it it' ∧
    ¬Unspoiled b sys' it it' it.loadedSize := by
  obtain ⟨b, sys, hc, h, -⟩ := createLog_spec unopened noFile (show (3 : Int) ≠ -1 by decide) 64 9
  obtain ⟨sys', hw, h'⟩ := write_spec (p := [7]) h (by decide) 9
  obtain ⟨pos, hd, -⟩ := h'.desc
  have hs : Readable b sys' := ⟨_, hd⟩
  have hblock : b.stHead.dwBlockSize.toNat = 64 := h'.block
  have hi := inv_getIterator (b := b) fun _ => 0
  have hfails : PreadFails b sys' ⟨true, .fail⟩ (getIterator b fun _ => 0) := by
    refine ⟨⟨Nat.zero_le _, fun ha => ?_⟩, rfl⟩
    exact absurd ha.2.2.1 (Int.lt_irrefl 0)
  have hcall : ErrorCall b sys' ⟨true, .fail⟩ (getIterator b fun _ => 0) _ _ :=
    ⟨.here, .inr hfails, pread_spoils hs hfails⟩
  refine ⟨b, sys, sys', _, _, hc, hw, hs, .init ⟨_, .inl rfl⟩, hcall.next hi, hcall, ?_⟩
  exact not_unspoiled_of_pread hs hfails (show 0 < 2 ^ 32 - 1 by decide)

end SimpleSvr.L3.Binlog
