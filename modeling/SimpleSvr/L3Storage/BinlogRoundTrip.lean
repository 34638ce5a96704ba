import SimpleSvr.Core.LTS
import SimpleSvr.L3Storage.BinlogReader

/-!
# Reading a log back, and tailing one

* `round_trip`: `Next` returns what was written to a new log, in order, with
  the offsets `Write` returned, and then 0.
* `tail_faithful`: with `Write` and `Next` interleaved, what was returned is a
  prefix of what was written and 0 means that nothing is missing, as long as
  no `Next` is made at the end of a file whose last block is exactly full.
  `tail_loses_record` is such a `Next`: it moves on to the block after, and
  the next record is never returned.
-/
namespace SimpleSvr.L3.Binlog

variable {b : Binlog} {sys : Sys} {it : BinlogIterator} {B : Nat} {l m : List Entry} {head : Bytes}

/-! ## Iterating -/

/-- Calls of `Next` from `it` return these payloads with these offsets. -/
inductive Iterates (b : Binlog) (sys : Sys) : BinlogIterator → List (Bytes × Int) → BinlogIterator → Prop
  | nil {it : BinlogIterator} : Iterates b sys it [] it
  | cons {it it₁ it' : BinlogIterator} {p : Bytes} {off : Int} {ps : List (Bytes × Int)}
      (h : Returns b sys it it₁ (p.length + 6)) (hp : it₁.payload = p) (hs : it₁.dwLogSize = p.length)
      (ho : (it₁.dwLogOffset : Int) = off) (hr : Iterates b sys it₁ ps it') : Iterates b sys it ((p, off) :: ps) it'

/-- The payloads of `l` with their offsets. -/
def entries (l : List Entry) (offs : List Int) : List (Bytes × Int) := (payloads l).zip offs

theorem endOf_append_length (l m : List Entry) : endOf B (l ++ m) l.length = (area B l).length := by
  rw [endOf, List.take_left]

/-- What `Next` comes to before record `e`, where no block overflows `dwRealSize`. -/
theorem next_record {e : Entry} {it₀ : BinlogIterator} {v : Int} (hlog : Log b sys B (l ++ e :: m))
    (hshort : min B (area B (l ++ e :: m)).length < 2 ^ 31) (hn : NextResult B (l ++ e :: m) l.length it₀ it v) :
    v = e.2.length + 6 ∧ it.payload = e.2 ∧ it.dwLogSize = e.2.length ∧
      it.dwLogOffset = 4096 + place B (area B l).length (e.2.length + 6) ∧ Good B (l ++ e :: m) it (l.length + 1) := by
  have hget : (l ++ e :: m)[l.length]? = some e := by simp
  cases hn with
  | record he hp hs ho h =>
    cases hget.symm.trans he
    have hfit := fits_get hlog.fits hget
    have hsucc := endOf_succ (B := B) hget
    have hle := endOf_le (B := B) (l := l ++ e :: m) (l.length + 1)
    rw [endOf_append_length] at ho
    exact ⟨toInt32_lt (by omega), hp, hs, ho, h⟩
  | endOfFile hi _ => simp at hi
  | tooLong hb _ => exact absurd hshort (Nat.not_lt.mpr hb)

/-- A cache that never overflows `dwRealSize` reads all records that are left. -/
theorem iterates_rest (hlog : Log b sys B (l ++ m)) (hB : 0 < B)
    (hshort : min B (area B (l ++ m)).length < 2 ^ 31) (hg : Good B (l ++ m) it l.length) :
    ∃ it', Iterates b sys it (entries m (offsets B (area B l).length (payloads m))) it' ∧
      Good B (l ++ m) it' (l ++ m).length := by
  induction m generalizing l it with
  | nil => exact ⟨it, .nil, by rwa [List.append_nil] at hg ⊢⟩
  | cons e m ih =>
    obtain ⟨it₁, v, hr, hn⟩ := next_spec hlog hB hg fun _ => hshort
    obtain ⟨rfl, hp, hs, ho, h⟩ := next_record hlog hshort hn
    have hl : l ++ e :: m = (l ++ [e]) ++ m := by simp
    rw [hl] at hlog hshort h
    obtain ⟨it', hi, hg'⟩ := ih hlog hshort (by rwa [List.length_append])
    rw [length_area_concat] at hi
    exact ⟨it', .cons hr hp hs (by rw [ho]) hi, by rwa [hl]⟩

/-- Behind the last record `Next` returns 0. -/
theorem returns_zero (hlog : Log b sys B l) (hB : 0 < B) (hshort : min B (area B l).length < 2 ^ 31)
    (hg : Good B l it l.length) : ∃ it', Returns b sys it it' 0 := by
  obtain ⟨it', v, hr, hn⟩ := next_spec hlog hB hg fun _ => hshort
  cases hn with
  | record he _ _ _ _ => simp at he
  | endOfFile _ _ => exact ⟨it', hr⟩
  | tooLong hb _ => exact absurd hshort (Nat.not_lt.mpr hb)

/-- With blocks of no bytes there are no records, and `Next` says so. -/
theorem next_no_blocks (it : BinlogIterator) (hlog : Log b sys 0 l) (hs : it.dwBlockSize = 0) (hoff : it.dwOffset = 0)
    (hreal : it.dwRealSize = 0) :
    ∃ it', Returns b sys it it' 0 ∧ it'.dwBlockSize = 0 ∧ it'.dwOffset = 0 ∧ it'.dwRealSize = 0 := by
  have hturn : turn b sys readOk it = refill b sys readOk it := by
    unfold turn
    rw [hreal, hoff]
    exact if_pos (Nat.le_refl 0)
  rw [refill_next hlog hoff, preadBlock_spec hlog (n := 0) (Nat.zero_le _) (by omega) (by simp), if_pos rfl] at hturn
  exact ⟨_, (Reaches.done hturn).returns (Nat.le_of_eq (by rw [hlog.block, hs])), hs, hoff, by simp [loaded, toInt32]⟩

theorem no_entries (hl : Fits 0 l) : l = [] := by
  cases l with
  | nil => rfl
  | cons e l => exact absurd hl.cons.1 (by omega)

/-- All records of a log, and then the end. -/
theorem iterates_all (hlog : Log b sys B l) (hshort : min B (area B l).length < 2 ^ 31) (mem : Nat → UInt8) :
    ∃ it it', Iterates b sys (getIterator b mem) (entries l (offsets B 0 (payloads l))) it ∧
      Returns b sys it it' 0 := by
  by_cases hB : 0 < B
  · obtain ⟨it, hi, hg⟩ := iterates_rest (l := []) hlog hB hshort (good_getIterator hlog mem)
    obtain ⟨it', hr⟩ := returns_zero hlog hB hshort hg
    exact ⟨it, it', hi, hr⟩
  · obtain rfl : B = 0 := by omega
    obtain rfl := no_entries hlog.fits
    obtain ⟨it', hr, -⟩ := next_no_blocks (getIterator b mem) hlog hlog.block rfl rfl
    exact ⟨_, it', .nil, hr⟩

/-! ## The round trip -/

theorem Handle.log {app : Bool} (h : Handle b sys app B head (area B l)) (hl : Fits B l)
    (hs : sys.data.length < 2 ^ 32) : Log b sys B l where
  handle := ⟨_, _, h⟩
  fits := hl
  small := by rwa [h.data, List.length_append, h.head] at hs

/-- What is written to a new log is read back. -/
theorem round_trip (b₀ : Binlog) (sys₀ : Sys) {fd : Int} (hfd : fd ≠ -1) (B time : UInt32)
    (hB : B.toNat < 2 ^ 31) {l : List Entry} (hl : Fits B.toNat l) (mem : Nat → UInt8) :
    ∃ b sys sys' offs, createLog b₀ sys₀ ⟨some fd, true, time, .full⟩ B = (b, sys, 0) ∧
      writeAll b sys l = some (sys', offs) ∧ offs.length = l.length ∧
      (sys'.data.length < 2 ^ 32 → ∃ it it',
        Iterates b sys' (getIterator b mem) (entries l offs) it ∧ Returns b sys' it it' 0) := by
  obtain ⟨b, sys, hc, h, -⟩ := createLog_spec b₀ sys₀ hfd B time
  obtain ⟨sys', hw, h'⟩ := writeAll_spec (l := []) h hl (by simp)
  refine ⟨b, sys, sys', _, hc, hw, by rw [length_offsets, length_payloads], fun hs => ?_⟩
  exact iterates_all (h'.log hl hs) (Nat.lt_of_le_of_lt (Nat.min_le_left _ _) hB) mem

/-- Two payloads, one of them made of magic bytes. -/
theorem round_trip_magic : ∃ b sys sys' it it',
    createLog unopened noFile ⟨some 3, true, 9, .full⟩ 32 = (b, sys, 0) ∧
    writeAll b sys [(1, [smagic, emagic]), (2, [])] = some (sys', [4104, 4112]) ∧
    Iterates b sys' (getIterator b fun _ => 0) [([smagic, emagic], 4104), ([], 4112)] it ∧
    Returns b sys' it it' 0 := by
  have hl : Fits (32 : UInt32).toNat [(1, [smagic, emagic]), (2, [])] := by decide
  obtain ⟨b, sys, sys', offs, hc, hw, -, hread⟩ :=
    round_trip unopened noFile (show (3 : Int) ≠ -1 by decide) 32 9 (by decide) hl fun _ => 0
  obtain ⟨b₁, sys₁, hc₁, h, -⟩ := createLog_spec unopened noFile (show (3 : Int) ≠ -1 by decide) 32 9
  cases hc.symm.trans hc₁
  obtain ⟨sys₂, hw₂, h'⟩ := writeAll_spec (l := []) h hl (by simp)
  cases hw.symm.trans hw₂
  obtain ⟨it, it', hi, hr⟩ := hread (by rw [h'.data, List.length_append, h'.head]; decide)
  exact ⟨b, sys, sys', it, it', hc, hw, hi, hr⟩

end Binlog

/-! ## Tailing -/

/-- A log that is written and read at the same time, with what was written and
returned so far. `last` is what `Next` returned when it made the last step. -/
structure Tail where
  binlog : Binlog
  sys : Sys
  iter : Option BinlogIterator
  written : List Bytes
  returned : List Bytes
  last : Option Int

inductive TailLabel where
  | write (buffer : Bytes) (time : UInt32)
  | getIterator (mem : Nat → UInt8)
  | next

namespace Binlog

/-- A record is what `Next` returns with any value but 0 and -1. -/
inductive TailStep (B : Nat) : Tail → TailLabel → Tail → Prop
  | write {s : Tail} {p : Bytes} {time : UInt32} {sys : Sys} {off : Int} (hp : p.length + 14 ≤ B)
      (h : write s.binlog s.sys ⟨true, true, .full, time⟩ p = some (sys, off)) (hs : sys.data.length < 2 ^ 32) :
      TailStep B s (.write p time) { s with sys, written := s.written ++ [p], last := none }
  | getIterator {s : Tail} {mem : Nat → UInt8} (h : s.iter = none) :
      TailStep B s (.getIterator mem) { s with iter := some (getIterator s.binlog mem), last := none }
  | record {s : Tail} {it it' : BinlogIterator} {v : Int} (h : s.iter = some it)
      (hn : Returns s.binlog s.sys it it' v) (hv : v ≠ 0 ∧ v ≠ -1) :
      TailStep B s .next { s with iter := some it', returned := s.returned ++ [it'.payload], last := some v }
  | nothing {s : Tail} {it it' : BinlogIterator} {v : Int} (h : s.iter = some it)
      (hn : Returns s.binlog s.sys it it' v) (hv : v = 0 ∨ v = -1) :
      TailStep B s .next { s with iter := some it', last := some v }

def tail (B : UInt32) : LTS Tail TailLabel where
  init s := ∃ b₀ sys₀ fd time, fd ≠ -1 ∧
    createLog b₀ sys₀ ⟨some fd, true, time, .full⟩ B = (s.binlog, s.sys, 0) ∧
    s.iter = none ∧ s.written = [] ∧ s.returned = [] ∧ s.last = none
  step := TailStep B.toNat

/-- A block was read to its end, and the file ends with it. -/
def AtFileEnd (s : Tail) (it : BinlogIterator) : Prop :=
  0 < s.binlog.stHead.dwBlockSize.toNat ∧ it.dwOffset = s.binlog.stHead.dwBlockSize.toNat ∧
    s.sys.data.length = s.binlog.stHead.wDataOffset.toNat +
      s.binlog.stHead.dwBlockSize.toNat * (it.dwBlockIndex + 1)

/-- Nothing was loaded, and the first block is too long for `dwRealSize`. -/
def FirstTooLong (s : Tail) (it : BinlogIterator) : Prop :=
  it.dwRealSize = 0 ∧
    2 ^ 31 ≤ min s.binlog.stHead.dwBlockSize.toNat (s.sys.data.length - s.binlog.stHead.wDataOffset.toNat)

/-- No `Next` in one of these. -/
def Tailable (s : Tail) : TailLabel → Prop
  | .next => ∀ it, s.iter = some it → ¬AtFileEnd s it ∧ ¬FirstTooLong s it
  | _ => True

/-- Where the iterator is, after `i` records. -/
def IterAt (B : Nat) (l : List Entry) (i : Nat) (it : BinlogIterator) : Prop :=
  if 0 < B then Good B l it i else it.dwBlockSize = 0 ∧ it.dwOffset = 0 ∧ it.dwRealSize = 0

structure Tails (B : Nat) (s : Tail) (l : List Entry) : Prop where
  handle : ∃ head, Handle s.binlog s.sys false B head (area B l)
  fits : Fits B l
  small : s.sys.data.length < 2 ^ 32
  written : s.written = payloads l
  returned : s.returned <+: s.written
  caught : s.last = some 0 → s.returned = s.written
  fresh : s.iter = none → s.returned = []
  iter : ∀ it, s.iter = some it → IterAt B l s.returned.length it

variable {s s' : Tail}

theorem Tails.log (h : Tails B s l) : Log s.binlog s.sys B l := by
  obtain ⟨head, hh⟩ := h.handle
  exact hh.log h.fits h.small

theorem Tails.length (h : Tails B s l) : s.sys.data.length = 4096 + (area B l).length := by
  obtain ⟨head, hh⟩ := h.handle
  rw [hh.data, List.length_append, hh.head]

theorem IterAt.extend {i : Nat} (h : IterAt B l i it) (m : List Entry) : IterAt B (l ++ m) i it := by
  unfold IterAt at h ⊢
  split at h
  · next hB => rw [if_pos hB]; exact h.extend m
  · next hB => rw [if_neg hB]; exact h

theorem tails_init {B : UInt32} (h : (tail B).init s) : Tails B.toNat s [] := by
  obtain ⟨b₀, sys₀, fd, time, hfd, hc, hiter, hw, hr, hl⟩ := h
  obtain ⟨b, sys, hc', hh, -⟩ := createLog_spec b₀ sys₀ hfd B time
  cases hc.symm.trans hc'
  refine ⟨⟨_, hh⟩, (fun _ he => nomatch he), ?_, hw, ?_, ?_, fun _ => hr, ?_⟩
  · rw [hh.data, List.append_nil, hh.head]
    decide
  · rw [hr]
    exact List.nil_prefix
  · rw [hr, hw]
    exact fun _ => rfl
  · rw [hiter]
    exact fun _ h => by cases h

theorem tails_write {p : Bytes} {time : UInt32} {sys : Sys} {off : Int} (h : Tails B s l)
    (hp : p.length + 14 ≤ B)
    (hw : write s.binlog s.sys ⟨true, true, .full, time⟩ p = some (sys, off)) (hs : sys.data.length < 2 ^ 32) :
    Tails B { s with sys, written := s.written ++ [p], last := none } (l ++ [(time, p)]) := by
  obtain ⟨head, hh⟩ := h.handle
  obtain ⟨sys', hw', hh'⟩ := write_spec hh hp time
  cases hw.symm.trans hw'
  refine ⟨⟨head, ?_⟩, h.fits.append ?_, hs, ?_, h.returned.trans (List.prefix_append _ _), (by intro h; cases h),
    h.fresh, fun it hit => (h.iter it hit).extend _⟩
  · rw [area_concat]
    exact hh'
  · intro e he
    rw [List.mem_singleton.mp he]
    exact hp
  · show s.written ++ [p] = _
    rw [h.written, payloads_append]
    rfl

theorem tails_getIterator {mem : Nat → UInt8} (h : Tails B s l) (hi : s.iter = none) :
    Tails B { s with iter := some (getIterator s.binlog mem), last := none } l := by
  refine ⟨h.handle, h.fits, h.small, h.written, h.returned, (by intro h; cases h), (by intro h; cases h), ?_⟩
  rintro it ⟨⟩
  show IterAt B l s.returned.length _
  rw [h.fresh hi]
  unfold IterAt
  split
  · exact good_getIterator h.log mem
  · next hB =>
    refine ⟨?_, rfl, rfl⟩
    rw [← show B = 0 by omega]
    exact h.log.block

/-- What `Next` does in a state where it is allowed. -/
theorem tails_next (h : Tails B s l) (hi : s.iter = some it) (ha : Tailable s .next) :
    ∃ it' v, Returns s.binlog s.sys it it' v ∧
      ((v = 0 ∧ s.returned.length = l.length ∧ IterAt B l s.returned.length it') ∨
        (v = -1 ∧ 2 ^ 31 ≤ min B (area B l).length ∧ IterAt B l s.returned.length it') ∨
        ∃ e, v ≠ 0 ∧ v ≠ -1 ∧ l[s.returned.length]? = some e ∧ it'.payload = e.2 ∧
          IterAt B l (s.returned.length + 1) it') := by
  have hiter := h.iter it hi
  obtain ⟨hend, hlong⟩ := ha it hi
  obtain ⟨head, hh⟩ := h.handle
  have hlen := h.length
  unfold AtFileEnd FirstTooLong at *
  rw [hh.block, hh.offset, hlen] at hend hlong
  have hblock : B < 2 ^ 32 := by rw [← hh.block]; exact s.binlog.stHead.dwBlockSize.toNat_lt
  unfold IterAt at hiter ⊢
  by_cases hB : 0 < B
  · simp only [if_pos hB] at hiter ⊢
    obtain ⟨it', v, hr, hn⟩ := next_spec h.log hB hiter fun h0 => by
      rw [Nat.add_sub_cancel_left] at hlong
      exact Nat.not_le.mp fun hle => hlong ⟨h0, hle⟩
    refine ⟨it', v, hr, ?_⟩
    cases hn with
    | record he hp _ _ hg =>
      have hfit := fits_get h.fits he
      refine .inr (.inr ⟨_, ?_, ?_, he, hp, hg⟩) <;>
      · unfold toInt32
        omega
    | endOfFile hl hg =>
      refine .inl ⟨rfl, hl, hg.resolve_right fun ⟨⟨hoff, hN⟩, _⟩ => hend ⟨hB, hoff, by rw [hN]⟩⟩
    | tooLong hb hg => exact .inr (.inl ⟨rfl, hb, hg⟩)
  · simp only [if_neg hB] at hiter ⊢
    obtain rfl : B = 0 := by omega
    obtain ⟨hs, hoff, hreal⟩ := hiter
    obtain ⟨it', hr, hit'⟩ := next_no_blocks it h.log hs hoff hreal
    obtain rfl := no_entries h.fits
    have hret : s.returned.length = 0 := by
      have := h.returned.length_le
      rw [h.written] at this
      exact Nat.le_zero.mp this
    exact ⟨it', 0, hr, .inl ⟨rfl, hret, hit'⟩⟩

theorem prefix_concat {p : Bytes} {xs ys : List Bytes} (h : xs <+: ys) (hp : ys[xs.length]? = some p) :
    xs ++ [p] <+: ys := by
  obtain ⟨zs, rfl⟩ := h
  rw [List.getElem?_append_right (Nat.le_refl _), Nat.sub_self] at hp
  cases zs with
  | nil => cases hp
  | cons z zs =>
    cases hp
    exact ⟨zs, by rw [List.append_assoc]; rfl⟩

theorem tails_record {it' : BinlogIterator} {e : Entry} {v : Int} (h : Tails B s l) (hv : v ≠ 0)
    (he : l[s.returned.length]? = some e) (hp : it'.payload = e.2) (hit : IterAt B l (s.returned.length + 1) it') :
    Tails B { s with iter := some it', returned := s.returned ++ [it'.payload], last := some v } l := by
  refine ⟨h.handle, h.fits, h.small, h.written, ?_, ?_, (by intro h; cases h), ?_⟩
  · refine prefix_concat h.returned ?_
    rw [h.written, payloads, List.getElem?_map, he, hp]
    rfl
  · intro h0
    exact absurd (Option.some.inj h0) hv
  · intro it₁ hit₁
    cases hit₁
    show IterAt B l (s.returned ++ _).length _
    rw [List.length_append]
    exact hit

theorem tails_nothing {it' : BinlogIterator} {v : Int} (h : Tails B s l)
    (hlen : v = 0 → s.returned.length = l.length) (hit : IterAt B l s.returned.length it') :
    Tails B { s with iter := some it', last := some v } l := by
  refine ⟨h.handle, h.fits, h.small, h.written, h.returned, ?_, (by intro h; cases h), ?_⟩
  · intro h0
    refine h.returned.eq_of_length ?_
    rw [h.written, length_payloads]
    exact hlen (Option.some.inj h0)
  · intro it₁ hit₁
    cases hit₁
    exact hit

theorem tails_step {a : TailLabel} (h : Tails B s l) (ha : Tailable s a) (hstep : TailStep B s a s') :
    ∃ l', Tails B s' l' := by
  cases hstep with
  | write hp hw hs => exact ⟨_, tails_write h hp hw hs⟩
  | getIterator hi => exact ⟨l, tails_getIterator h hi⟩
  | record hi hn hv =>
    obtain ⟨it', v, hr, hcase⟩ := tails_next h hi ha
    obtain ⟨rfl, rfl⟩ := hn.unique hr
    obtain ⟨h0, -⟩ | ⟨h1, -⟩ | ⟨e, -, -, he, hp, hit⟩ := hcase
    · exact absurd h0 hv.1
    · exact absurd h1 hv.2
    · exact ⟨l, tails_record h hv.1 he hp hit⟩
  | nothing hi hn hv =>
    obtain ⟨it', v, hr, hcase⟩ := tails_next h hi ha
    obtain ⟨rfl, rfl⟩ := hn.unique hr
    obtain ⟨-, hlen, hit⟩ | ⟨h1, -, hit⟩ | ⟨e, h0, h1, -⟩ := hcase
    · exact ⟨l, tails_nothing h (fun _ => hlen) hit⟩
    · exact ⟨l, tails_nothing h (fun h0 => by omega) hit⟩
    · exact absurd hv (not_or.mpr ⟨h0, h1⟩)

theorem tails_inductive (B : UInt32) :
    ((tail B).guard Tailable).Inductive fun s => ∃ l, Tails B.toNat s l where
  init _ h := ⟨[], tails_init h⟩
  step _ _ _ := fun ⟨_, h⟩ hs => tails_step h hs.1 hs.2

/-! ### Single steps -/

theorem can_start (B : UInt32) : ∃ s, (tail B).init s ∧ Tails B.toNat s [] ∧ s.iter = none ∧ s.returned = [] := by
  obtain ⟨b, sys, hc, -, -⟩ := createLog_spec unopened noFile (show (3 : Int) ≠ -1 by decide) B 0
  have hinit : (tail B).init ⟨b, sys, none, [], [], none⟩ :=
    ⟨unopened, noFile, 3, 0, by decide, hc, rfl, rfl, rfl, rfl⟩
  exact ⟨_, hinit, tails_init hinit, rfl, rfl⟩

theorem can_write (h : Tails B s l) (e : Entry) (he : e.2.length + 14 ≤ B)
    (hs : 4096 + (area B (l ++ [e])).length < 2 ^ 32) :
    ∃ s', TailStep B s (.write e.2 e.1) s' ∧ Tails B s' (l ++ [e]) ∧ s'.iter = s.iter ∧ s'.returned = s.returned := by
  obtain ⟨head, hh⟩ := h.handle
  obtain ⟨sys, hw, hh'⟩ := write_spec hh he e.1
  have hlen : sys.data.length < 2 ^ 32 := by
    rw [area_concat] at hs
    rw [hh'.data, List.length_append, hh.head]
    exact hs
  exact ⟨_, .write he hw hlen, tails_write h he hw hlen, rfl, rfl⟩

theorem can_getIterator (h : Tails B s l) (hi : s.iter = none) :
    ∃ s' it, TailStep B s (.getIterator fun _ => 0) s' ∧ Tails B s' l ∧ s'.iter = some it ∧ it.dwRealSize = 0 ∧
      it.dwOffset = 0 ∧ s'.returned = s.returned :=
  ⟨_, _, .getIterator hi, tails_getIterator h hi, rfl, rfl, rfl, rfl⟩

/-- The next record is returned if there is one, else 0. -/
theorem can_next (h : Tails B s l) (hi : s.iter = some it) (ha : Tailable s .next)
    (hshort : min B (area B l).length < 2 ^ 31) :
    ∃ s' it', TailStep B s .next s' ∧ Tails B s' l ∧ s'.iter = some it' ∧
      match l[s.returned.length]? with
      | some e => s'.returned = s.returned ++ [e.2]
      | none => s'.returned = s.returned ∧ s'.last = some 0 := by
  obtain ⟨it', v, hr, ⟨rfl, hlen, hit⟩ | ⟨rfl, hb, -⟩ | ⟨e, h0, h1, he, hp, hit⟩⟩ := tails_next h hi ha
  · refine ⟨_, it', .nothing hi hr (.inl rfl), tails_nothing h (fun _ => hlen) hit, rfl, ?_⟩
    rw [List.getElem?_eq_none (Nat.le_of_eq hlen.symm)]
    exact ⟨rfl, rfl⟩
  · exact absurd hshort (Nat.not_lt.mpr hb)
  · refine ⟨_, it', .record hi hr ⟨h0, h1⟩, tails_record h h0 he hp hit, rfl, ?_⟩
    rw [he]
    exact congrArg (fun p => s.returned ++ [p]) hp

/-- `Next` at the end of a full last block moves on to the block after, ... -/
theorem next_moves_on {i : Nat} (hlog : Log b sys B l) (hB : 0 < B) (hg : Good B l it i) (hend : AtBlockEnd B l it) :
    ∃ it', Returns b sys it it' 0 ∧ Ahead B l it' := by
  obtain ⟨hoff, hN⟩ := hend
  have hsmall := hlog.small
  obtain ⟨-, -, h0, -⟩ | ⟨r, hst⟩ := hg.stands
  · omega
  · have hr := hst.off
    have hle := hst.cached.le
    have hBB : B < 2 ^ 32 := by rw [← hlog.block]; exact b.stHead.dwBlockSize.toNat_lt
    have hreal : ofInt32 it.dwRealSize ≤ B := by
      rw [hst.cached.real, ofInt32_toInt32 (by omega)]
      exact hle
    have hturn := turn_past_end hlog hB hg.room hreal hoff (by omega) (Nat.le_of_eq hN)
    exact ⟨_, (Reaches.done hturn).returns (Nat.le_of_eq (by rw [hlog.block, hg.size])), hg.size, hg.room, hoff, rfl,
      hN⟩

/-- ... and from there it moves on again, past the record that was written meanwhile. -/
theorem next_misses {e : Entry} (hlog : Log b sys B (l ++ [e])) (ha : Ahead B l it)
    (hs : 4096 + B * (it.dwBlockIndex + 1) < 2 ^ 32) : ∃ it', Returns b sys it it' 0 := by
  have hfit : e.2.length + 14 ≤ B := hlog.fits e (by simp)
  have hmod : (area B l).length % B = 0 := by rw [ha.pos, Nat.mul_mod_right]
  have hN : (area B (l ++ [e])).length ≤ B * (it.dwBlockIndex + 1) := by
    rw [length_area_concat, place, if_pos hmod, ha.pos, Nat.mul_succ]
    omega
  have hreal : ofInt32 it.dwRealSize ≤ B := by
    rw [ha.real]
    exact Nat.zero_le B
  have hturn := turn_past_end hlog (by omega) ha.room hreal ha.off hs hN
  exact ⟨_, (Reaches.done hturn).returns (Nat.le_of_eq (by rw [hlog.block, ha.size]))⟩

theorem tailable_of (h : Tails B s l) (hi : s.iter = some it) (hend : it.dwOffset = B → (area B l).length % B ≠ 0)
    (hshort : min B (area B l).length < 2 ^ 31) : Tailable s .next := by
  obtain ⟨head, hh⟩ := h.handle
  intro it' hit'
  cases hi.symm.trans hit'
  unfold AtFileEnd FirstTooLong
  rw [hh.block, hh.offset, h.length, Nat.add_sub_cancel_left]
  constructor
  · rintro ⟨-, hoff, hN⟩
    exact hend hoff (by rw [Nat.add_left_cancel hN, Nat.mul_mod_right])
  · rintro ⟨-, hb⟩
    exact absurd hshort (Nat.not_lt.mpr hb)

/-- Behind all records of a file that ends with a block. -/
theorem Good.atBlockEnd {i : Nat} (hg : Good B l it i) (hi : i = l.length) (hpos : 0 < i)
    (hN : (area B l).length % B = 0) : AtBlockEnd B l it := by
  obtain ⟨h0, -⟩ | ⟨r, hst⟩ := hg.stands
  · omega
  · have h8 := hst.head
    have hoff := hst.off
    have hle := hst.cached.le
    have hp := hst.pos
    rw [hi, endOf_length] at hp
    rw [← hp, Nat.mul_add_mod] at hN
    have hB : it.dwOffset = B := by
      by_contra hne
      rw [Nat.mod_eq_of_lt (by omega)] at hN
      omega
    exact ⟨hB, by rw [← hp, hB, Nat.mul_succ]⟩

/-- In a run that makes no `Next` at a full last block, and none before
anything was read from a first block of 2^31 bytes or more, nothing is lost or
repeated. -/
theorem tail_faithful (B : UInt32) (s : Tail) (h : ((tail B).guard Tailable).Reachable s) :
    s.returned <+: s.written ∧ (s.last = some 0 → s.returned = s.written) ∧
      ∀ it, s.iter = some it → Tailable s .next → ∃ it' v, Returns s.binlog s.sys it it' v := by
  obtain ⟨l, ht⟩ := (tails_inductive B).reachable s h
  refine ⟨ht.returned, ht.caught, fun it hi ha => ?_⟩
  obtain ⟨it', v, hr, -⟩ := tails_next ht hi ha
  exact ⟨it', v, hr⟩

/-- One record, read, and one more `Next`. -/
theorem tail_faithful_run : ∃ s, ((tail 64).guard Tailable).Reachable s ∧ s.written = [[7]] ∧ s.last = some 0 ∧
    s.returned = [[7]] := by
  obtain ⟨s₀, h0, t0, hi0, hr0⟩ := can_start 64
  obtain ⟨s₁, it₁, h1, t1, hi1, -, -, hr1⟩ := can_getIterator t0 hi0
  obtain ⟨s₂, h2, t2, hi2, hr2⟩ := can_write t1 (0, [7]) (by decide) (by decide)
  rw [hi1] at hi2
  rw [hr1, hr0] at hr2
  have a2 := tailable_of t2 hi2 (fun _ => by decide) (by decide)
  obtain ⟨s₃, it₃, h3, t3, hi3, hr3⟩ := can_next t2 hi2 a2 (by decide)
  rw [hr2] at hr3
  have a3 := tailable_of t3 hi3 (fun _ => by decide) (by decide)
  obtain ⟨s₄, it₄, h4, t4, -, hr4⟩ := can_next t3 hi3 a3 (by decide)
  rw [hr3] at hr4
  have r0 : ((tail 64).guard Tailable).Reachable s₀ := .init h0
  have r2 := (r0.allowed h1 trivial).allowed h2 trivial
  have r4 := (r2.allowed h3 a2).allowed h4 a3
  exact ⟨s₄, r4, t4.written, hr4.2, ((tail_faithful 64 s₄ r4).2.1 hr4.2).trans t4.written⟩

/-- A record that is written after a `Next` at the end of a full block is never returned. -/
theorem tail_loses_record : ∃ s, (tail 14).Reachable s ∧ s.written = [[], []] ∧ s.last = some 0 ∧
    s.returned = [[]] := by
  obtain ⟨s₀, h0, t0, hi0, hr0⟩ := can_start 14
  obtain ⟨s₁, it₁, h1, t1, hi1, -, hoff, hr1⟩ := can_getIterator t0 hi0
  obtain ⟨s₂, h2, t2, hi2, hr2⟩ := can_write t1 (0, []) (by decide) (by decide)
  rw [hi1] at hi2
  rw [hr1, hr0] at hr2
  have a2 := tailable_of t2 hi2 (fun h => absurd (hoff.symm.trans h) (by decide)) (by decide)
  obtain ⟨s₃, it₃, h3, t3, hi3, hr3⟩ := can_next t2 hi2 a2 (by decide)
  rw [hr2] at hr3
  -- the block is full and read to its end
  have hg := t3.iter it₃ hi3
  rw [hr3] at hg
  obtain ⟨it₄, hn4, hahead⟩ := next_moves_on t3.log (by decide) hg (hg.atBlockEnd rfl (by decide) (by decide))
  have h4 : TailStep 14 s₃ .next _ := .nothing hi3 hn4 (.inl rfl)
  obtain ⟨head, hh⟩ := t3.handle
  obtain ⟨sys, hw, hh'⟩ := write_spec (p := []) hh (by decide) 0
  have hlen : sys.data.length < 2 ^ 32 := by
    rw [hh'.data, List.length_append, hh.head]
    decide
  have h5 := TailStep.write (s := { s₃ with iter := some it₄, last := some 0 }) (B := 14) (by decide) hw hlen
  have hlog : Log s₃.binlog sys 14 ([(0, [])] ++ [(0, [])]) :=
    ⟨⟨_, head, by rw [area_concat]; exact hh'⟩, by decide, by decide⟩
  have hidx : 14 = 14 * it₄.dwBlockIndex := hahead.pos
  obtain ⟨it₆, hn6⟩ := next_misses hlog hahead (by omega)
  have h6 := TailStep.nothing (B := 14)
    (s := { s₃ with sys, iter := some it₄, written := s₃.written ++ [[]], last := none }) rfl hn6 (.inl rfl)
  have hr : (tail 14).Reachable _ :=
    .step (.step (.step (.step (.step (.step (.init h0) h1) h2) h3) h4) h5) h6
  exact ⟨_, hr, by rw [t3.written]; rfl, rfl, hr3⟩

end SimpleSvr.L3.Binlog
