import SimpleSvr.Core.LTS
import SimpleSvr.L3Storage.BinlogReader

/-!
# The reader on any file

`Next` parses bytes that may be anything. An iterator that came from
`GetIterator` and any number of calls has its cursors inside the block cache
(`Inv`), whatever the file holds and however short a read is; a turn of the loop
keeps that, and looks at no byte behind the loaded ones.

`reader_robust`: `Next` is robust exactly as long as two 32-bit sums do not
wrap at a record that makes no sense. `6 + dwLogSize` wraps for a length field
from 2^32 - 6 on: the check against the block passes, `ReadSeek` stops at the
end of the loaded bytes, and reading `EMAGIC` there throws. The offset of the
next block wraps where the block ends at 2^32 or later.
-/
namespace SimpleSvr.L3
open L1

namespace BinlogIterator

/-- How many bytes of the cache were loaded. -/
def loadedSize (it : BinlogIterator) : Nat := ofInt32 it.dwRealSize

/-- The iterator over a cache that ends after `k` bytes. -/
def upTo (k : Nat) (it : BinlogIterator) : BinlogIterator :=
  { it with cBlockBuffer := it.cBlockBuffer.take k }

/-- `SMAGIC`, with room for the smallest record. -/
def StartsRecord (it : BinlogIterator) : Prop :=
  it.dwOffset + 6 ≤ it.loadedSize ∧ it.cBlockBuffer[it.dwOffset]? = some smagic

/-- The length field of the record that starts at `dwOffset`. -/
def lengthField (it : BinlogIterator) : Nat := ofBe ((it.cBlockBuffer.drop (it.dwOffset + 1)).take 4)

/-- The record ends inside the loaded bytes, with `EMAGIC`. -/
def Consistent (it : BinlogIterator) : Prop :=
  it.dwOffset + 6 + it.lengthField ≤ it.loadedSize ∧
    it.cBlockBuffer[it.dwOffset + 5 + it.lengthField]? = some emagic

instance (it : BinlogIterator) : Decidable it.StartsRecord := inferInstanceAs (Decidable (_ ∧ _))

instance (it : BinlogIterator) : Decidable it.Consistent := inferInstanceAs (Decidable (_ ∧ _))

/-- `[cLogBuffer, cLogBuffer + dwLogSize)` is inside the loaded bytes, with `EMAGIC` behind it. -/
def Framed (it : BinlogIterator) : Prop :=
  it.cLogBuffer + it.dwLogSize < it.loadedSize ∧ it.cBlockBuffer[it.cLogBuffer + it.dwLogSize]? = some emagic

end BinlogIterator

/-- The iterator that is left to the caller. -/
def Result.left : Result → Option BinlogIterator
  | .ret it _ => some it
  | .throws it => some it
  | .fault => none

def Result.map (f : BinlogIterator → BinlogIterator) : Result → Result
  | .ret it v => .ret (f it) v
  | .throws it => .throws (f it)
  | .fault => .fault

def Turn.left : Turn → Option BinlogIterator
  | .again it => some it
  | .done r => r.left

def Turn.map (f : BinlogIterator → BinlogIterator) : Turn → Turn
  | .again it => .again (f it)
  | .done r => .done (r.map f)

namespace Binlog

/-- mirrors src/Binlog.cc:260-271 -/
def getIteratorAt (b : Binlog) (mem : Nat → UInt8) (offset : Int) : BinlogIterator :=
  let wDataOffset := b.stHead.wDataOffset.toNat
  let dwBlockSize := b.stHead.dwBlockSize.toNat
  if offset < wDataOffset then getIterator b mem
  else
    { getIterator b mem with
      dwBlockIndex := u32 ((offset - wDataOffset).toNat / dwBlockSize)
      dwOffset := u32 ((offset - wDataOffset).toNat % dwBlockSize) }

/-! ## Robustness -/

/-- The descriptor is open. -/
def Readable (b : Binlog) (sys : Sys) : Prop := ∃ d, sys.desc b.fdBinlog = some d

/-- Neither call fails; `pread` may be short. -/
def Succeeds (io : ReadCalls) : Prop := io.fstat = true ∧ io.pread ≠ .fail

/-- Iterators from `GetIterator` and any number of calls of `Next`, whether it returned or threw. The
file may be another one at each call. -/
def reading (b : Binlog) : LTS BinlogIterator Sys where
  init it := ∃ mem, it = getIterator b mem ∨ ∃ offset, it = getIteratorAt b mem offset
  step it sys it' := Readable b sys ∧ ∃ io n r, (∀ k, Succeeds (io k)) ∧ next b sys io n it = some r ∧
    r.left = some it'

/-- `Next`, called with `it`, comes to a turn with the iterator `h`. -/
inductive Passes (b : Binlog) (sys : Sys) (it : BinlogIterator) : BinlogIterator → Prop
  | here : Passes b sys it it
  | onward {h h' : BinlogIterator} {io : ReadCalls} (hp : Passes b sys it h) (hio : Succeeds io)
      (ht : turn b sys io h = .again h') : Passes b sys it h'

/-- A turn looks at loaded bytes only. An access outside the memory is a fault, so over a cache that
ends with the bytes loaded a turn that looks further faults. -/
def InLoaded (b : Binlog) (sys : Sys) (io : ReadCalls) (it : BinlogIterator) : Prop :=
  ∃ it', (turn b sys io it).left = some it' ∧
    turn b sys io (it.upTo it'.loadedSize) = (turn b sys io it).map (·.upTo it'.loadedSize)

/-- The turn that reads the next block.
mirrors src/Binlog.cc:284-306 -/
def nextBlock (b : Binlog) (sys : Sys) (io : ReadCalls) (it : BinlogIterator) : Turn :=
  preadBlock b sys io { it with dwBlockIndex := u32 (it.dwBlockIndex + 1) } fun it =>
    checkBlockHead b it fun it => .again { it with dwOffset := blockheadSize }

/-- Nothing is returned, and the next turn reads the block that begins where this one ends. -/
def SkipsBlock (b : Binlog) (sys : Sys) (io : ReadCalls) (it : BinlogIterator) : Prop :=
  (∃ it', turn b sys io it = .again it' ∧ it'.dwBlockIndex = it.dwBlockIndex ∧
    ∀ io', turn b sys io' it' = nextBlock b sys io' it') ∧
  blockOffset b (u32 (it.dwBlockIndex + 1)) = blockOffset b it.dwBlockIndex + b.stHead.dwBlockSize.toNat

/-- What the caller of `Next` relies on. -/
structure Robust (b : Binlog) (sys : Sys) (it : BinlogIterator) : Prop where
  returns : ∀ io n r, (∀ k, Succeeds (io k)) → next b sys io n it = some r → ∃ it' v, r = .ret it' v
  inLoaded : ∀ h, Passes b sys it h → ∀ io, Succeeds io → InLoaded b sys io h
  framed : ∀ io n it' v, (∀ k, Succeeds (io k)) → next b sys io n it = some (.ret it' v) → 0 < v → it'.Framed
  skips : ∀ h, Passes b sys it h → h.StartsRecord → ¬h.Consistent → ∀ io, Succeeds io → SkipsBlock b sys io h

/-! ## The cursors -/

/-- Of every iterator: the cursors are inside the block. -/
structure Inv (b : Binlog) (it : BinlogIterator) : Prop where
  size : b.stHead.dwBlockSize.toNat ≤ it.dwBlockSize
  room : b.stHead.dwBlockSize.toNat ≤ it.cBlockBuffer.length
  off : it.dwOffset ≤ b.stHead.dwBlockSize.toNat
  loaded : it.loadedSize ≤ b.stHead.dwBlockSize.toNat

variable {b : Binlog} {sys : Sys} {io : ReadCalls} {it it' h h' : BinlogIterator} {r : Result}
variable {got rest extra : Bytes} {c : UInt8} {k n : Nat}

theorem Inv.loadedSize_lt (hi : Inv b it) : it.loadedSize < 2 ^ 32 :=
  Nat.lt_of_le_of_lt hi.loaded b.stHead.dwBlockSize.toNat_lt

theorem inv_getIterator (mem : Nat → UInt8) : Inv b (getIterator b mem) where
  size := Nat.le_refl _
  room := by simp [getIterator]
  off := Nat.zero_le _
  loaded := Nat.zero_le _

theorem inv_getIteratorAt (mem : Nat → UInt8) (offset : Int) (hB : 0 < b.stHead.dwBlockSize.toNat) :
    Inv b (getIteratorAt b mem offset) := by
  have h0 := inv_getIterator (b := b) mem
  simp only [getIteratorAt]
  split
  · exact h0
  · refine ⟨h0.size, h0.room, ?_, h0.loaded⟩
    have hlt := Nat.mod_lt (offset - b.stHead.wDataOffset.toNat).toNat hB
    exact Nat.le_of_lt (Nat.lt_of_le_of_lt (Nat.mod_le _ _) hlt)

/-! ## Parsing -/

/-- The loaded bytes from `dwOffset` on are `c` and `rest`. -/
structure Front (it : BinlogIterator) (c : UInt8) (rest : Bytes) : Prop where
  length : it.dwOffset + 1 + rest.length = it.loadedSize
  bytes : ∃ extra, it.cBlockBuffer.drop it.dwOffset = c :: rest ++ extra

theorem front_exists (hi : Inv b it) (hoff : it.dwOffset < it.loadedSize) :
    ∃ c rest, Front it c rest ∧ Front (it.upTo it.loadedSize) c rest := by
  have hle := hi.loaded
  have hroom := hi.room
  have hlen : ((it.cBlockBuffer.take it.loadedSize).drop it.dwOffset).length = it.loadedSize - it.dwOffset := by
    simp; omega
  have hsplit : it.cBlockBuffer.drop it.dwOffset =
      (it.cBlockBuffer.take it.loadedSize).drop it.dwOffset ++ it.cBlockBuffer.drop it.loadedSize := by
    rw [← List.drop_append_of_le_length (by simp; omega), List.take_append_drop]
  cases hf : (it.cBlockBuffer.take it.loadedSize).drop it.dwOffset with
  | nil =>
    rw [hf] at hlen
    simp at hlen
    omega
  | cons c rest =>
    rw [hf] at hlen hsplit
    simp only [List.length_cons] at hlen
    have hfront : it.dwOffset + 1 + rest.length = it.loadedSize := by omega
    exact ⟨c, rest, ⟨hfront, _, hsplit⟩, ⟨hfront, [], by simpa [BinlogIterator.upTo] using hf⟩⟩

theorem Front.parseLog_eq (hf : Front it c rest) (hlt : it.loadedSize < 2 ^ 32) :
    parseLog b it = parsed b it c rest := by
  have hlen := hf.length
  obtain ⟨extra, hbytes⟩ := hf.bytes
  refine Binlog.parseLog_eq hbytes ?_ (by omega)
  show u32 (it.loadedSize + 2 ^ 32 - it.dwOffset) = _
  unfold u32
  omega

/-- A byte behind the length field. -/
theorem Front.behind (hf : Front it c rest) {e : UInt8} (he : (rest.drop 4)[k]? = some e) :
    it.dwOffset + 6 + k ≤ it.loadedSize ∧ it.cBlockBuffer[it.dwOffset + 5 + k]? = some e := by
  have hlen := hf.length
  obtain ⟨hin, -⟩ := List.getElem?_eq_some_iff.mp he
  rw [List.length_drop] at hin
  refine ⟨by omega, ?_⟩
  obtain ⟨extra, hbytes⟩ := hf.bytes
  have h0 : (it.cBlockBuffer.drop it.dwOffset)[5 + k]? = some e := by
    rw [hbytes, ← he, List.getElem?_drop, show 5 + k = 4 + k + 1 by omega]
    simp [List.getElem?_append_left (show 4 + k < rest.length by omega)]
  rw [Nat.add_assoc, ← List.getElem?_drop, h0]

theorem Front.starts (hf : Front it c rest) : it.StartsRecord ↔ c = smagic ∧ 5 ≤ rest.length := by
  have hlen := hf.length
  obtain ⟨extra, hbytes⟩ := hf.bytes
  have h0 : it.cBlockBuffer[it.dwOffset]? = some c := by
    have h0 : (it.cBlockBuffer.drop it.dwOffset)[0]? = some c := by simp [hbytes]
    rwa [List.getElem?_drop, Nat.add_zero] at h0
  unfold BinlogIterator.StartsRecord
  rw [h0, Option.some.injEq]
  constructor
  · intro hs
    exact ⟨hs.2, by omega⟩
  · intro hs
    exact ⟨by omega, hs.1⟩

theorem Front.lengthField (hf : Front it c rest) (h5 : 5 ≤ rest.length) : it.lengthField = ofBe (rest.take 4) := by
  obtain ⟨extra, hbytes⟩ := hf.bytes
  have hdrop : it.cBlockBuffer.drop (it.dwOffset + 1) = rest ++ extra := by
    rw [← List.drop_drop, hbytes]
    rfl
  rw [BinlogIterator.lengthField, hdrop, List.take_append_of_le_length (by omega)]

theorem parsed_upTo (b : Binlog) (it : BinlogIterator) (c : UInt8) (rest : Bytes) (k : Nat) :
    parsed b (it.upTo k) c rest = (parsed b it c rest).map (·.upTo k) := by
  simp only [parsed]
  split
  · rfl
  · split
    · rfl
    · split <;> rfl

/-- The block and its cache are the same. -/
structure SameBlock (it it' : BinlogIterator) : Prop where
  index : it'.dwBlockIndex = it.dwBlockIndex
  size : it'.dwBlockSize = it.dwBlockSize
  cache : it'.cBlockBuffer = it.cBlockBuffer
  real : it'.dwRealSize = it.dwRealSize

/-- The ways out of a turn that parses. -/
inductive ParseCases (b : Binlog) (it : BinlogIterator) (t : Turn) : Prop
  | skips (x : BinlogIterator) (ht : t = .again x) (hx : SameBlock it x)
      (hoff : x.dwOffset = b.stHead.dwBlockSize.toNat) (hfield : it.StartsRecord → it.lengthField < 2 ^ 32 - 6)
  | throws (x : BinlogIterator) (ht : t = .done (.throws x)) (hx : SameBlock it x) (hoff : x.dwOffset = it.dwOffset)
      (hs : it.StartsRecord) (hfield : 2 ^ 32 - 6 ≤ it.lengthField)
  | returns (x : BinlogIterator) (v : Int) (ht : t = .done (.ret x v)) (hx : SameBlock it x)
      (hoff : x.dwOffset = it.dwOffset + 6 + it.lengthField) (hc : it.Consistent)
      (hbuf : x.cLogBuffer = it.dwOffset + 5) (hsize : x.dwLogSize = it.lengthField)

theorem Front.cases (hf : Front it c rest) (hlt : it.loadedSize < 2 ^ 32) : ParseCases b it (parsed b it c rest) := by
  have hlen := hf.length
  by_cases hs : c = smagic ∧ 5 ≤ rest.length
  · have hfield := hf.lengthField hs.2
    have hx : ofBe (rest.take 4) < 2 ^ 32 := by
      have := ofBe_lt (rest.take 4)
      rwa [show (rest.take 4).length = 4 by simp; omega] at this
    have hstarts := hf.starts.mpr hs
    simp only [parsed, ← hfield] at hx ⊢
    by_cases hbig : rest.length + 1 < u32 (6 + it.lengthField)
    · rw [if_pos (.inr (.inr hbig))]
      refine .skips _ rfl ⟨rfl, rfl, rfl, rfl⟩ rfl fun _ => ?_
      unfold u32 at hbig
      omega
    · rw [if_neg (by simp [hs]; omega)]
      -- what is left to read is shorter than the field says only if `6 + dwLogSize` wrapped
      cases he : (rest.drop 4)[it.lengthField]? with
      | none =>
        have hend := List.getElem?_eq_none_iff.mp he
        rw [List.length_drop] at hend
        refine .throws _ rfl ⟨rfl, rfl, rfl, rfl⟩ rfl hstarts ?_
        unfold u32 at hbig
        omega
      | some e =>
        obtain ⟨hin, hat⟩ := hf.behind he
        by_cases hm : e = emagic
        · have hoff : u32 (it.dwOffset + u32 (6 + it.lengthField)) = it.dwOffset + 6 + it.lengthField := by
            unfold u32
            omega
          simp only [hm, ne_eq, not_true_eq_false, if_false]
          exact .returns _ _ rfl ⟨rfl, rfl, rfl, rfl⟩ hoff ⟨hin, hm ▸ hat⟩ rfl rfl
        · simp only [ne_eq, hm, not_false_eq_true, if_true]
          exact .skips _ rfl ⟨rfl, rfl, rfl, rfl⟩ rfl fun _ => by omega
  · have hno : ¬it.StartsRecord := fun h => hs (hf.starts.mp h)
    have hcond : c ≠ smagic ∨ rest.length < 5 ∨ rest.length + 1 < u32 (6 + ofBe (rest.take 4)) := by
      by_cases hc : c = smagic
      · exact .inr (.inl (by simp [hc] at hs; omega))
      · exact .inl hc
    simp only [parsed]
    rw [if_pos hcond]
    exact .skips _ rfl ⟨rfl, rfl, rfl, rfl⟩ rfl fun h => absurd h hno

theorem SameBlock.loadedSize (hx : SameBlock it it') : it'.loadedSize = it.loadedSize := by
  rw [BinlogIterator.loadedSize, hx.real]
  rfl

theorem Inv.same (hi : Inv b it) (hx : SameBlock it it') (hoff : it'.dwOffset ≤ b.stHead.dwBlockSize.toNat) :
    Inv b it' := by
  refine ⟨?_, ?_, hoff, ?_⟩
  · rw [hx.size]; exact hi.size
  · rw [hx.cache]; exact hi.room
  · rw [hx.loadedSize]; exact hi.loaded

theorem turn_parse (b : Binlog) (sys : Sys) (io : ReadCalls) (hoff : it.dwOffset < it.loadedSize) :
    turn b sys io it = parseLog b it := by
  unfold turn
  exact if_neg (Nat.not_le.mpr hoff)

theorem turn_refill (b : Binlog) (sys : Sys) (io : ReadCalls) (hoff : it.loadedSize ≤ it.dwOffset) :
    turn b sys io it = refill b sys io it := by
  unfold turn
  exact if_pos hoff

theorem parse_cases (sys : Sys) (io : ReadCalls) (hi : Inv b it) (hoff : it.dwOffset < it.loadedSize) :
    ParseCases b it (turn b sys io it) ∧
      turn b sys io (it.upTo it.loadedSize) = (turn b sys io it).map (·.upTo it.loadedSize) := by
  obtain ⟨c, rest, hf, hf'⟩ := front_exists hi hoff
  have hlt := hi.loadedSize_lt
  have hturn := turn_parse b sys io hoff
  have hturn' := @turn_parse (it.upTo it.loadedSize) b sys io hoff
  rw [hf.parseLog_eq hlt] at hturn
  rw [hf'.parseLog_eq hlt, parsed_upTo] at hturn'
  rw [hturn, hturn']
  exact ⟨hf.cases hlt, rfl⟩

/-! ## Reading a block -/

theorem pread_reads (hs : Readable b sys) (hio : io.pread ≠ .fail) (n off : Nat) :
    ∃ got, sys.pread b.fdBinlog io.pread n off = some got ∧ got.length ≤ n := by
  obtain ⟨d, hd⟩ := hs
  have hle : ∀ m, (((sys.data.drop off).take n).take m).length ≤ n := fun m =>
    Nat.le_trans (List.length_take_le' _ _) (List.length_take_le _ _)
  unfold Sys.pread
  simp only [hd]
  cases ho : io.pread with
  | full => exact ⟨_, rfl, hle _⟩
  | fail => exact absurd ho hio
  | short m => exact ⟨_, rfl, hle _⟩

theorem fill_loadedSize (it : BinlogIterator) (hlt : got.length < 2 ^ 32) : (fill it got).loadedSize = got.length :=
  ofInt32_toInt32 hlt

theorem fill_upTo (hk : got.length ≤ k) : fill (it.upTo k) got = (fill it got).upTo k := by
  simp only [fill, BinlogIterator.upTo, List.take_append, List.drop_take, List.take_of_length_le hk]

theorem inv_fill (hi : Inv b it) (hle : got.length ≤ b.stHead.dwBlockSize.toNat) : Inv b (fill it got) := by
  have hroom := hi.room
  have hB := b.stHead.dwBlockSize.toNat_lt
  refine ⟨hi.size, ?_, hi.off, ?_⟩
  · simp [fill]; omega
  · rw [fill_loadedSize it (by omega)]
    exact hle

/-- `f` goes on, or returns without a record; and it looks at loaded bytes only. -/
inductive Lands (b : Binlog) (f : BinlogIterator → Turn) (it : BinlogIterator) : Prop
  | again (x : BinlogIterator) (hf : f it = .again x) (hx : Inv b x)
      (hup : f (it.upTo x.loadedSize) = .again (x.upTo x.loadedSize))
  | ends (x : BinlogIterator) (v : Int) (hf : f it = .done (.ret x v)) (hv : v ≤ 0) (hx : Inv b x)
      (hup : f (it.upTo x.loadedSize) = .done (.ret (x.upTo x.loadedSize) v))

/-- `cont` goes on with the bytes that it was given. -/
def GoesOn (b : Binlog) (cont : BinlogIterator → Turn) : Prop :=
  ∀ it, Inv b it → it.dwRealSize = it.loadedSize → 8 ≤ it.loadedSize →
    ∃ x, cont it = .again x ∧ Inv b x ∧ x.loadedSize = it.loadedSize ∧
      cont (it.upTo it.loadedSize) = .again (x.upTo it.loadedSize)

theorem goesOn_moveTo {f : BinlogIterator → Nat} (hf : ∀ it, Inv b it → 8 ≤ it.loadedSize →
    f it ≤ b.stHead.dwBlockSize.toNat) (hup : ∀ it k, f (it.upTo k) = f it) :
    GoesOn b fun it => .again { it with dwOffset := f it } := by
  intro it hi _ h8
  refine ⟨_, rfl, ⟨hi.size, hi.room, hf it hi h8, hi.loaded⟩, rfl, ?_⟩
  simp only [hup]
  rfl

theorem goesOn_checkBlockHead {cont : BinlogIterator → Turn} (hc : GoesOn b cont) :
    GoesOn b fun it => checkBlockHead b it cont := by
  intro it hi hreal h8
  have hle := hi.loaded
  have hlt := hi.loadedSize_lt
  have hroom := hi.room
  obtain ⟨got, hgot⟩ : ∃ got, it.cBlockBuffer.take it.loadedSize = got := ⟨_, rfl⟩
  have hlen : got.length = it.loadedSize := by rw [← hgot]; simp; omega
  obtain ⟨head, hhead⟩ : ∃ head, ∀ extra, getBlockHead (IOBuffer.reading [] got extra) = .ok head := by
    cases got with
    | nil => simp at hlen; omega
    | cons c rest => exact ⟨_, fun extra => getBlockHead_front (by simp at hlen; omega) (by simp at hlen; omega)⟩
  have h1 := @checkBlockHead_eq b it got (it.cBlockBuffer.drop it.loadedSize) head cont
    (by rw [← hgot, List.take_append_drop]) (by omega) (hhead _)
  have h2 := @checkBlockHead_eq b (it.upTo it.loadedSize) got [] head cont
    (by rw [List.append_nil]; exact hgot) (show it.dwRealSize = _ by omega) (hhead _)
  simp only [h1, h2]
  have hi' : Inv b { it with stBlockHead := head } := ⟨hi.size, hi.room, hi.off, hi.loaded⟩
  by_cases hm : head.cMagic = blockheadMagic
  · simp only [ne_eq, hm, not_true_eq_false, if_false]
    exact hc { it with stBlockHead := head } hi' hreal h8
  · simp only [ne_eq, hm, not_false_eq_true, if_true]
    exact ⟨_, rfl, ⟨hi.size, hi.room, Nat.le_refl _, hi.loaded⟩, rfl, rfl⟩

theorem preadBlock_lands {cont : BinlogIterator → Turn} (hi : Inv b it) (hs : Readable b sys)
    (hio : io.pread ≠ .fail) (hc : GoesOn b cont) : Lands b (fun it => preadBlock b sys io it cont) it := by
  have hroom := hi.room
  have hB := b.stHead.dwBlockSize.toNat_lt
  obtain ⟨got, hgot, hle⟩ := pread_reads hs hio b.stHead.dwBlockSize.toNat (blockOffset b it.dwBlockIndex)
  have hlt : got.length < 2 ^ 32 := by omega
  have hsize := fill_loadedSize it hlt
  have hfill := inv_fill hi hle
  have hread := fun it' hroom' (hidx : it'.dwBlockIndex = it.dwBlockIndex) =>
    @preadBlock_eq b sys io it' got cont (hidx ▸ hgot) hroom' hlt
  have h1 := hread it (by omega) rfl
  have h2 := hread (it.upTo got.length) (by simp [BinlogIterator.upTo]; omega) rfl
  rw [fill_upTo (Nat.le_refl _)] at h2
  by_cases h0 : got.length = 0
  · rw [if_pos h0] at h1 h2
    exact .ends _ 0 h1 (by omega) hfill (by rw [hsize]; exact h2)
  · rw [if_neg h0] at h1 h2
    by_cases h8 : got.length < 8 ∨ 2 ^ 31 ≤ got.length
    · rw [if_pos h8] at h1 h2
      exact .ends _ (-1) h1 (by omega) hfill (by rw [hsize]; exact h2)
    · rw [if_neg h8] at h1 h2
      have hreal : (fill it got).dwRealSize = (fill it got).loadedSize := by
        rw [hsize]
        exact toInt32_lt (by omega)
      obtain ⟨x, hx, hix, hxs, hup⟩ := hc _ hfill hreal (by rw [hsize]; omega)
      rw [hsize] at hxs hup
      exact .again x (h1.trans hx) hix (by rw [hxs]; exact h2.trans hup)

theorem Lands.of {f g : BinlogIterator → Turn} (hg : Lands b g it') (hf : f it = g it')
    (hup : ∀ k, f (it.upTo k) = g (it'.upTo k)) : Lands b f it := by
  cases hg with
  | again x hx hi hu => exact .again x (hf.trans hx) hi ((hup _).trans hu)
  | ends x v hx hv hi hu => exact .ends x v (hf.trans hx) hv hi ((hup _).trans hu)

theorem nextBlock_lands (hi : Inv b it) (hs : Readable b sys) (hio : io.pread ≠ .fail) :
    Lands b (nextBlock b sys io) it := by
  have hc : GoesOn b fun it => checkBlockHead b it fun it => .again { it with dwOffset := blockheadSize } :=
    goesOn_checkBlockHead (goesOn_moveTo (f := fun _ => blockheadSize)
      (fun _ hi h8 => Nat.le_trans h8 hi.loaded) fun _ _ => rfl)
  have hi' : Inv b { it with dwBlockIndex := u32 (it.dwBlockIndex + 1) } := ⟨hi.size, hi.room, hi.off, hi.loaded⟩
  exact (preadBlock_lands hi' hs hio hc).of rfl fun _ => rfl

theorem refill_lands (hi : Inv b it) (hs : Readable b sys) (hio : io.pread ≠ .fail) :
    Lands b (refill b sys io) it := by
  by_cases hend : it.dwOffset ≥ b.stHead.dwBlockSize.toNat
  · refine (nextBlock_lands hi hs hio).of ?_ fun k => ?_
    · exact if_pos hend
    · exact if_pos hend
  · by_cases hpart : it.dwRealSize > 0 ∧ ofInt32 it.dwRealSize < b.stHead.dwBlockSize.toNat
    · cases hsize : sys.size b.fdBinlog io.fstat with
      | none =>
        have heq : ∀ it' : BinlogIterator, it'.dwOffset = it.dwOffset → it'.dwRealSize = it.dwRealSize →
            it'.dwBlockIndex = it.dwBlockIndex → refill b sys io it' = .done (.ret it' (-1)) := by
          intro it' ho hr hx
          unfold refill
          rw [ho, hr, if_neg hend, if_pos hpart, hsize]
        exact .ends it (-1) (heq it rfl rfl rfl) (by omega) hi (heq _ rfl rfl rfl)
      | some stSize =>
        have heq : ∀ it' : BinlogIterator, it'.dwOffset = it.dwOffset → it'.dwRealSize = it.dwRealSize →
            it'.dwBlockIndex = it.dwBlockIndex → refill b sys io it' =
              if u32 (blockOffset b it.dwBlockIndex + it.dwOffset) ≥ stSize then .done (.ret it' 0)
              else preadBlock b sys io it' .again := by
          intro it' ho hr hx
          unfold refill
          rw [ho, hr, hx, if_neg hend, if_pos hpart, hsize]
        by_cases hfile : u32 (blockOffset b it.dwBlockIndex + it.dwOffset) ≥ stSize
        · simp only [if_pos hfile] at heq
          exact .ends it 0 (heq it rfl rfl rfl) (Int.le_refl 0) hi (heq _ rfl rfl rfl)
        · simp only [if_neg hfile] at heq
          have hc : GoesOn b .again := fun it hi _ _ => ⟨it, rfl, hi, rfl, rfl⟩
          exact (preadBlock_lands hi hs hio hc).of (heq it rfl rfl rfl) fun k => heq _ rfl rfl rfl
    · have hc : GoesOn b fun it => checkBlockHead b it fun it =>
          .again { it with dwOffset := if it.dwOffset < blockheadSize then blockheadSize else it.dwOffset } := by
        refine goesOn_checkBlockHead (goesOn_moveTo (fun it hi h8 => ?_) fun _ _ => rfl)
        have hoff := hi.off
        split
        · exact Nat.le_trans h8 hi.loaded
        · exact hoff
      refine (preadBlock_lands hi hs hio hc).of ?_ fun k => ?_
      · unfold refill
        simp only [if_neg hend, if_neg hpart]
      · exact (if_neg hend).trans (if_neg hpart)

/-! ## Turns -/

/-- What every turn does, whatever the file holds. -/
structure TurnSound (b : Binlog) (sys : Sys) (io : ReadCalls) (it : BinlogIterator) : Prop where
  inv : ∀ x, (turn b sys io it).left = some x → Inv b x
  inLoaded : InLoaded b sys io it
  framed : ∀ x v, turn b sys io it = .done (.ret x v) → 0 < v → x.Framed
  throws : ∀ x, turn b sys io it = .done (.throws x) → it.StartsRecord ∧ 2 ^ 32 - 6 ≤ it.lengthField

theorem left_inv {t : Turn} (ht : t.left = some it) (hi : Inv b it) : ∀ x, t.left = some x → Inv b x := by
  intro x hx
  rw [ht] at hx
  cases hx
  exact hi

theorem ParseCases.sound (hp : ParseCases b it (turn b sys io it)) (hi : Inv b it)
    (hup : turn b sys io (it.upTo it.loadedSize) = (turn b sys io it).map (·.upTo it.loadedSize)) :
    TurnSound b sys io it := by
  have hle := hi.loaded
  cases hp with
  | skips x ht hx hoff hfield =>
    have hix := hi.same hx (by omega)
    have hleft : (turn b sys io it).left = some x := by rw [ht]; rfl
    refine ⟨left_inv hleft hix, ⟨x, hleft, by rw [hx.loadedSize]; exact hup⟩, fun y v hy => ?_, fun y hy => ?_⟩
    · simp [ht] at hy
    · simp [ht] at hy
  | throws x ht hx hoff hs hfield =>
    have hix := hi.same hx (by rw [hoff]; exact hi.off)
    have hleft : (turn b sys io it).left = some x := by rw [ht]; rfl
    refine ⟨left_inv hleft hix, ⟨x, hleft, by rw [hx.loadedSize]; exact hup⟩, fun y v hy => ?_, fun _ _ => ⟨hs, hfield⟩⟩
    simp [ht] at hy
  | returns x v ht hx hoff hc hbuf hsize =>
    have hin := hc.1
    have hix := hi.same hx (by omega)
    have hat : it.dwOffset + 5 + it.lengthField = x.cLogBuffer + x.dwLogSize := by omega
    have hleft : (turn b sys io it).left = some x := by rw [ht]; rfl
    refine ⟨left_inv hleft hix, ⟨x, hleft, by rw [hx.loadedSize]; exact hup⟩, fun y v hy _ => ?_, fun y hy => ?_⟩
    · rw [ht] at hy
      cases hy
      refine ⟨by rw [hx.loadedSize]; omega, ?_⟩
      rw [hx.cache, ← hat]
      exact hc.2
    · simp [ht] at hy

theorem Lands.sound (hl : Lands b (refill b sys io) it) (hoff : it.loadedSize ≤ it.dwOffset) :
    TurnSound b sys io it := by
  have hturn := turn_refill b sys io hoff
  have hturn' := fun k => @turn_refill (it.upTo k) b sys io hoff
  cases hl with
  | again x hf hx hup =>
    have ht := hturn.trans hf
    have hleft : (turn b sys io it).left = some x := by rw [ht]; rfl
    refine ⟨left_inv hleft hx, ⟨x, hleft, by rw [hturn', hup, ht]; rfl⟩, fun y v hy => ?_, fun y hy => ?_⟩
    · simp [ht] at hy
    · simp [ht] at hy
  | ends x v hf hv hx hup =>
    have ht := hturn.trans hf
    have hleft : (turn b sys io it).left = some x := by rw [ht]; rfl
    refine ⟨left_inv hleft hx, ⟨x, hleft, by rw [hturn', hup, ht]; rfl⟩, fun y v' hy hv' => ?_, fun y hy => ?_⟩
    · rw [ht] at hy
      cases hy
      omega
    · simp [ht] at hy

theorem turn_sound (hi : Inv b it) (hs : Readable b sys) (hio : io.pread ≠ .fail) : TurnSound b sys io it := by
  by_cases hoff : it.dwOffset < it.loadedSize
  · obtain ⟨hp, hup⟩ := parse_cases sys io hi hoff
    exact hp.sound hi hup
  · exact (refill_lands hi hs hio).sound (by omega)

/-! ## Calls -/

theorem Passes.first (hio : Succeeds io) (ht : turn b sys io it = .again it') (hp : Passes b sys it' h) :
    Passes b sys it h := by
  induction hp with
  | here => exact .onward .here hio ht
  | onward _ hio' ht' ih => exact .onward ih hio' ht'

theorem Passes.inv (hp : Passes b sys it h) (hi : Inv b it) (hs : Readable b sys) : Inv b h := by
  induction hp with
  | here => exact hi
  | onward _ hio ht ih => exact (turn_sound ih hs hio.2).inv _ (by rw [ht]; rfl)

/-- A call that ends has a last turn. -/
theorem turns_last {io : Nat → ReadCalls} (hio : ∀ k, Succeeds (io k)) (ht : turns b sys io n it = some r) :
    ∃ h io', Passes b sys it h ∧ Succeeds io' ∧ turn b sys io' h = .done r := by
  induction n generalizing it io with
  | zero => cases ht
  | succ n ih =>
    unfold turns at ht
    cases hturn : turn b sys (io 0) it with
    | again it' =>
      simp only [hturn] at ht
      obtain ⟨h, io', hp, hio', hd⟩ := ih (fun k => hio (k + 1)) ht
      exact ⟨h, io', hp.first (hio 0) hturn, hio', hd⟩
    | done r' =>
      simp only [hturn, Option.some.injEq] at ht
      exact ⟨it, io 0, .here, hio 0, by rw [hturn, ht]⟩

theorem next_last {io : Nat → ReadCalls} (hi : Inv b it) (hio : ∀ k, Succeeds (io k))
    (ht : next b sys io n it = some r) : ∃ h io', Passes b sys it h ∧ Succeeds io' ∧ turn b sys io' h = .done r := by
  have hsize := hi.size
  unfold next at ht
  rw [if_neg (by omega)] at ht
  exact turns_last hio ht

theorem inv_inductive (hB : 0 < b.stHead.dwBlockSize.toNat) :
    (reading b).Inductive (Inv b) where
  init := by
    intro it hit
    obtain ⟨mem, rfl | ⟨offset, rfl⟩⟩ := hit
    · exact inv_getIterator mem
    · exact inv_getIteratorAt mem offset hB
  step := by
    intro it sys it' hi hstep
    obtain ⟨hs, io, n, r, hio, hn, hl⟩ := hstep
    obtain ⟨h, io', hp, hio', ht⟩ := next_last hi hio hn
    exact (turn_sound (hp.inv hi hs) hs hio'.2).inv it' (by rw [ht]; exact hl)

theorem blockOffset_succ (b : Binlog) (k : Nat) :
    blockOffset b (u32 (k + 1)) = u32 (blockOffset b k + b.stHead.dwBlockSize.toNat) := by
  unfold blockOffset u32
  rw [Nat.mod_add_mod, Nat.add_assoc, ← Nat.mul_succ, Nat.add_mod, Nat.mul_mod, Nat.mod_mod, ← Nat.mul_mod,
    ← Nat.add_mod]

/-- A record that makes no sense is skipped unless one of the two sums wraps. -/
theorem skipsBlock_iff (hi : Inv b h) (hs : h.StartsRecord)
    (hc : ¬h.Consistent) : SkipsBlock b sys io h ↔
      h.lengthField < 2 ^ 32 - 6 ∧ blockOffset b h.dwBlockIndex + b.stHead.dwBlockSize.toNat < 2 ^ 32 := by
  have hle := hi.loaded
  have hoff : h.dwOffset < h.loadedSize := by
    have := hs.1
    omega
  have hwrap : u32 (blockOffset b h.dwBlockIndex + b.stHead.dwBlockSize.toNat) =
      blockOffset b h.dwBlockIndex + b.stHead.dwBlockSize.toNat ↔
        blockOffset b h.dwBlockIndex + b.stHead.dwBlockSize.toNat < 2 ^ 32 := by
    unfold u32
    omega
  unfold SkipsBlock
  rw [blockOffset_succ, hwrap]
  refine and_congr_left fun _ => ?_
  cases (parse_cases sys io hi hoff).1 with
  | skips x ht hx hx' hfield =>
    refine ⟨fun _ => hfield hs, fun _ => ⟨x, ht, hx.index, fun io' => ?_⟩⟩
    have hsize := hx.loadedSize
    rw [turn_refill b sys io' (by omega)]
    exact if_pos (Nat.le_of_eq hx'.symm)
  | throws x ht hx hx' _ hfield =>
    refine ⟨fun hskip => ?_, fun hlt => absurd hfield (by omega)⟩
    obtain ⟨y, hy, -⟩ := hskip
    rw [ht] at hy
    cases hy
  | returns x v ht hx hx' hcons => exact absurd hcons hc

/-! ## Where the bytes come from -/

/-- `cont` leaves the cache and the block index as they are. -/
def KeepsBlock (cont : BinlogIterator → Turn) : Prop :=
  ∀ it x, cont it = .again x → x.cBlockBuffer = it.cBlockBuffer ∧ x.dwBlockIndex = it.dwBlockIndex

theorem keepsBlock_moveTo (f : BinlogIterator → Nat) : KeepsBlock fun it => .again { it with dwOffset := f it } := by
  intro it x hx
  cases hx
  exact ⟨rfl, rfl⟩

theorem keepsBlock_checkBlockHead {cont : BinlogIterator → Turn} (hc : KeepsBlock cont) :
    KeepsBlock fun it => checkBlockHead b it cont := by
  intro it x hx
  simp only [checkBlockHead] at hx
  split at hx
  · next e _ => cases e <;> cases hx
  · split at hx
    · cases hx
      exact ⟨rfl, rfl⟩
    · have hkeep := hc _ x hx
      exact hkeep

theorem pread_prefix {fd : Int} {o : Outcome} {off : Nat} (hgot : sys.pread fd o n off = some got) :
    got <+: sys.data.drop off := by
  unfold Sys.pread at hgot
  split at hgot
  · cases hgot
  · obtain ⟨m, -, rfl⟩ := Option.map_eq_some_iff.mp hgot
    exact (List.take_prefix _ _).trans (List.take_prefix _ _)

/-- What `cont` goes on with after `pread`: a block that the file has, and bytes of it in the cache. -/
theorem preadBlock_again {P : UInt8 → Prop} {cont : BinlogIterator → Turn} {x : BinlogIterator} (hi : Inv b it)
    (hs : Readable b sys) (hio : io.pread ≠ .fail) (hk : KeepsBlock cont) (hfile : ∀ c ∈ sys.data, P c)
    (hc : ∀ c ∈ it.cBlockBuffer, P c) (hx : preadBlock b sys io it cont = .again x) :
    (∀ c ∈ x.cBlockBuffer, P c) ∧ blockOffset b x.dwBlockIndex < sys.data.length := by
  have hB := b.stHead.dwBlockSize.toNat_lt
  have hroom := hi.room
  obtain ⟨got, hgot, hle⟩ := pread_reads hs hio b.stHead.dwBlockSize.toNat (blockOffset b it.dwBlockIndex)
  have hfrom := pread_prefix hgot
  rw [preadBlock_eq cont hgot (by omega) (by omega)] at hx
  split at hx
  · cases hx
  · next h0 =>
    split at hx
    · cases hx
    · obtain ⟨hcache, hindex⟩ := hk _ x hx
      rw [hcache, hindex]
      refine ⟨fun c hm => ?_, ?_⟩
      · exact (List.mem_append.mp hm).elim (fun hm => hfile c (List.mem_of_mem_drop (hfrom.subset hm)))
          fun hm => hc c (List.mem_of_mem_drop hm)
      · have hlen := hfrom.length_le
        rw [List.length_drop] at hlen
        show blockOffset b it.dwBlockIndex < _
        omega

/-- Bytes that a turn adds to the cache are the file's, and so is the block it goes on to. -/
theorem turn_again {P : UInt8 → Prop} {x : BinlogIterator} (hi : Inv b it) (hs : Readable b sys)
    (hio : io.pread ≠ .fail) (hfile : ∀ c ∈ sys.data, P c) (hc : ∀ c ∈ it.cBlockBuffer, P c)
    (hx : turn b sys io it = .again x) :
    (∀ c ∈ x.cBlockBuffer, P c) ∧
      (x.dwBlockIndex = it.dwBlockIndex ∨ blockOffset b x.dwBlockIndex < sys.data.length) := by
  by_cases hoff : it.dwOffset < it.loadedSize
  · cases (parse_cases sys io hi hoff).1 with
    | skips y ht hy =>
      cases ht.symm.trans hx
      exact ⟨hy.cache ▸ hc, .inl hy.index⟩
    | throws y ht => cases ht.symm.trans hx
    | returns y v ht => cases ht.symm.trans hx
  · rw [turn_refill b sys io (by omega)] at hx
    refine (?_ : _ ∧ _).imp_right .inr
    simp only [refill] at hx
    split at hx
    · have hi' : Inv b { it with dwBlockIndex := u32 (it.dwBlockIndex + 1) } := ⟨hi.size, hi.room, hi.off, hi.loaded⟩
      exact preadBlock_again hi' hs hio (keepsBlock_checkBlockHead (keepsBlock_moveTo fun _ => blockheadSize))
        hfile hc hx
    · split at hx
      · split at hx
        · cases hx
        · split at hx
          · cases hx
          · exact preadBlock_again hi hs hio (keepsBlock_moveTo fun it => it.dwOffset) hfile hc hx
      · exact preadBlock_again hi hs hio (keepsBlock_checkBlockHead (keepsBlock_moveTo _)) hfile hc hx

/-- Every block that `Next` comes to begins inside the file or is the first it looked at, and its cache
holds the file's bytes and what was there. -/
theorem Passes.again {P : UInt8 → Prop} (hp : Passes b sys it h) (hi : Inv b it) (hs : Readable b sys)
    (hfile : ∀ c ∈ sys.data, P c) (hc : ∀ c ∈ it.cBlockBuffer, P c) :
    (∀ c ∈ h.cBlockBuffer, P c) ∧
      (h.dwBlockIndex = it.dwBlockIndex ∨ blockOffset b h.dwBlockIndex < sys.data.length) := by
  induction hp with
  | here => exact ⟨hc, .inl rfl⟩
  | onward hp hio ht ih =>
    obtain ⟨hcache, hindex⟩ := turn_again (hp.inv hi hs) hs hio.2 hfile ih.1 ht
    exact ⟨hcache, hindex.elim (fun he => he ▸ ih.2) .inr⟩

theorem ofBe_below (l : Bytes) (hl : ∀ c ∈ l, c < 255) : 255 * ofBe l + 254 ≤ 254 * 256 ^ l.length := by
  induction l using List.reverseRecOn with
  | nil => decide
  | append_singleton l c ih =>
    have hc : c.toNat < 255 := hl c (by simp)
    have := ih fun c hm => hl c (List.mem_append_left _ hm)
    rw [ofBe_concat, List.length_append, List.length_singleton, Nat.pow_succ]
    omega

theorem below_of_all {l : Bytes} (h : (l.all fun c => decide (c < 255)) = true) : ∀ c ∈ l, c < 255 := fun c hm =>
  of_decide_eq_true (List.all_eq_true.mp h c hm)

/-- Four bytes below 255 are no length field near 2^32. -/
theorem lengthField_lt {it : BinlogIterator} (hc : ∀ c ∈ it.cBlockBuffer, c < 255) : it.lengthField < 2 ^ 32 - 6 := by
  have hlen : ((it.cBlockBuffer.drop (it.dwOffset + 1)).take 4).length ≤ 4 := List.length_take_le _ _
  have hle := ofBe_below ((it.cBlockBuffer.drop (it.dwOffset + 1)).take 4) fun c hm =>
    hc c (List.mem_of_mem_drop (List.mem_of_mem_take hm))
  have hpow := Nat.pow_le_pow_right (show 0 < 256 by decide) hlen
  unfold BinlogIterator.lengthField
  omega

/-! ## When `Next` is robust -/

/-- `Next` is robust exactly if, at every record it comes to that is not consistent with the loaded
block, the length field and six more, and the offset of the next block, are below 2^32. -/
theorem reader_robust (h8 : 8 ≤ b.stHead.dwBlockSize.toNat) (hB : b.stHead.dwBlockSize.toNat < 2 ^ 31)
    (hr : (reading b).Reachable it) (hs : Readable b sys) :
    Robust b sys it ↔ ∀ h, Passes b sys it h → h.StartsRecord → ¬h.Consistent →
      h.lengthField < 2 ^ 32 - 6 ∧ blockOffset b h.dwBlockIndex + b.stHead.dwBlockSize.toNat < 2 ^ 32 := by
  have hi := (inv_inductive (by omega)).reachable it hr
  have hinv := fun h (hp : Passes b sys it h) => hp.inv hi hs
  have hsound := fun h hp io (hio : Succeeds io) => turn_sound (hinv h hp) hs hio.2
  constructor
  · intro hrob h hp hstart hcons
    exact (skipsBlock_iff (hinv h hp) hstart hcons).mp (hrob.skips h hp hstart hcons readOk ⟨rfl, by decide⟩)
  · intro hcond
    refine ⟨fun io n r hio hn => ?_, fun h hp io hio => (hsound h hp io hio).inLoaded, fun io n it' v hio hn hv => ?_,
      fun h hp hstart hcons io _ => (skipsBlock_iff (hinv h hp) hstart hcons).mpr (hcond h hp hstart hcons)⟩
    · obtain ⟨h, io', hp, hio', ht⟩ := next_last hi hio hn
      have hsnd := hsound h hp io' hio'
      obtain ⟨x, hx, -⟩ := hsnd.inLoaded
      cases r with
      | ret it' v => exact ⟨it', v, rfl⟩
      | throws it' =>
        -- the field that makes `Next` throw is one that is not consistent
        obtain ⟨hstart, hfield⟩ := hsnd.throws it' ht
        have hle := (hinv h hp).loaded
        have hcons : ¬h.Consistent := fun hc => by
          have := hc.1
          omega
        have := (hcond h hp hstart hcons).1
        omega
      | fault =>
        rw [ht] at hx
        cases hx
    · obtain ⟨h, io', hp, hio', ht⟩ := next_last hi hio hn
      exact (hsound h hp io' hio').framed it' v ht hv

/-- A log with blocks of 16 bytes behind a head of 20 bytes and a gap of 4. -/
def smallLog : Binlog where
  fdBinlog := 3
  stHead := { cMagic := headMagic, wVersion := headVersion, wDataOffset := 24, dwBlockSize := 16, dwCreateTime := 0 }

def smallFile (blocks : Bytes) : Sys where
  data := headMagic ++ [1, 1, 0, 24, 0, 0, 0, 16, 0, 0, 0, 0, 0, 0, 0, 0] ++ blocks
  desc fd := if fd = 3 then some ⟨0, true⟩ else none

/-- Two records of two bytes, and between them a block whose record says it has 200. -/
def spoiledFile : Sys := smallFile
  ([0xEF, 0, 0, 0, 9, 0, 0, 0] ++ [0x03, 0, 0, 0, 2, 7, 8, 0x0A] ++
   [0xEF, 0, 0, 0, 9, 0, 0, 0] ++ [0x03, 0, 0, 0, 200, 7, 8, 0x0A] ++
   [0xEF, 0, 0, 0, 9, 0, 0, 0] ++ [0x03, 0, 0, 0, 2, 5, 6, 0x0A])

/-- The iterator behind its first record. -/
def atSpoiled : BinlogIterator where
  dwBlockIndex := 0
  dwOffset := 16
  dwBlockSize := 16
  cBlockBuffer := [0xEF, 0, 0, 0, 9, 0, 0, 0, 0x03, 0, 0, 0, 2, 7, 8, 0x0A]
  dwRealSize := 16
  stBlockHead := { cMagic := 0xEF, dwCreateTime := 9 }
  cLogBuffer := 13
  dwLogSize := 2
  dwLogOffset := 32

/-- The iterator at the record that makes no sense. -/
def spoiled : BinlogIterator :=
  { atSpoiled with
    dwBlockIndex := 1
    dwOffset := 8
    cBlockBuffer := [0xEF, 0, 0, 0, 9, 0, 0, 0, 0x03, 0, 0, 0, 200, 7, 8, 0x0A] }

/-- Behind the first record of this file `Next` comes to the one that makes no sense, and returns the
third. -/
theorem reader_robust_spoiled : ∃ it it' it'' h,
    Returns smallLog spoiledFile (getIterator smallLog fun _ => 0) it 8 ∧
      Passes smallLog spoiledFile it h ∧ h.StartsRecord ∧ ¬h.Consistent ∧ h.lengthField = 200 ∧
      Robust smallLog spoiledFile it ∧
      Returns smallLog spoiledFile it it' 8 ∧ it'.dwBlockIndex = 2 ∧
      (it'.cBlockBuffer.drop it'.cLogBuffer).take it'.dwLogSize = [5, 6] ∧
      Returns smallLog spoiledFile it' it'' 0 := by
  have hio : Succeeds readOk := ⟨rfl, by decide⟩
  have hs : Readable smallLog spoiledFile := ⟨_, rfl⟩
  have hfirst : next smallLog spoiledFile (fun _ => readOk) 2 (getIterator smallLog fun _ => 0) =
      some (.ret atSpoiled 8) := rfl
  have hr : (reading smallLog).Reachable atSpoiled :=
    .step (.init ⟨_, .inl rfl⟩) ⟨hs, fun _ => readOk, 2, _, fun _ => hio, hfirst, rfl⟩
  have hi := (inv_inductive (by decide)).reachable _ hr
  refine ⟨atSpoiled, _, _, spoiled, ⟨2, hfirst⟩, .onward .here hio rfl, by decide, by decide, by decide,
    (reader_robust (by decide) (by decide) hr hs).mpr fun h hp _ _ => ?_, ⟨5, rfl⟩, rfl, rfl, ⟨5, rfl⟩⟩
  obtain ⟨hcache, hindex⟩ := hp.again hi hs (below_of_all rfl) (below_of_all rfl)
  refine ⟨lengthField_lt hcache, ?_⟩
  have hlt : blockOffset smallLog h.dwBlockIndex < 2 ^ 31 := by
    rcases hindex with he | hlt
    · rw [he]
      decide
    · exact Nat.lt_trans hlt (by decide)
  show _ + 16 < _
  omega

/-- A block with one record, of a length field of 2^32 - 1. -/
def hostileFile : Sys := smallFile [0xEF, 0, 0, 0, 0, 0, 0, 0, 0x03, 0xFF, 0xFF, 0xFF, 0xFF, 0, 0, 0]

theorem reader_throws : ∃ (b : Binlog) (sys : Sys) (it : BinlogIterator),
    8 ≤ b.stHead.dwBlockSize.toNat ∧ b.stHead.dwBlockSize.toNat < 2 ^ 31 ∧ sys.data.length < 2 ^ 32 ∧
      (reading b).Reachable it ∧ Readable b sys ∧ ¬Robust b sys it := by
  refine ⟨smallLog, hostileFile, getIterator smallLog fun _ => 0, by decide, by decide, by decide,
    .init ⟨_, .inl rfl⟩, ⟨_, rfl⟩, fun hrob => ?_⟩
  obtain ⟨it, hit⟩ : ∃ it, next smallLog hostileFile (fun _ => readOk) 2 (getIterator smallLog fun _ => 0) =
      some (.throws it) := ⟨_, rfl⟩
  obtain ⟨it', v, hr⟩ := hrob.returns _ _ _ (fun _ => ⟨rfl, by decide⟩) hit
  cases hr

end Binlog
end SimpleSvr.L3
