import SimpleSvr.L3Storage.BinlogParse

/-!
# What `Next` returns

`Cached A it r`: the cache of iterator `it` holds the first `r` bytes of its
block of the data area `A`. `Good l it i`: `it` stands behind the first `i` of
the records `l`, with a prefix of its block in the cache that ends behind a
record or with the block. Writes keep it (`Good.extend`).

`next_spec`: from such an iterator `Next` ends, and returns record `i`, or 0
when there is none, or -1 when the block it loads is too long for `dwRealSize`;
it is again such an iterator, except that 0 at a block that is exactly full
leaves it one block too far (`Ahead`).
-/
namespace SimpleSvr.L3.Binlog
open L1

/-! ## Turns -/

/-- System calls that succeed. -/
def readOk : ReadCalls := ⟨true, .full⟩

/-- `Next`'s loop ends with `r`. -/
def Reaches (b : Binlog) (sys : Sys) (it : BinlogIterator) (r : Result) : Prop :=
  ∃ n, turns b sys (fun _ => readOk) n it = some r

/-- `Next` returns `v` and leaves the iterator `it'`. -/
def Returns (b : Binlog) (sys : Sys) (it it' : BinlogIterator) (v : Int) : Prop :=
  ∃ n, next b sys (fun _ => readOk) n it = some (.ret it' v)

variable {b : Binlog} {sys : Sys} {it it' : BinlogIterator} {r : Result}

theorem Reaches.again (h : turn b sys readOk it = .again it') (hr : Reaches b sys it' r) :
    Reaches b sys it r := by
  obtain ⟨n, hn⟩ := hr
  exact ⟨n + 1, by simp only [turns, h]; exact hn⟩

theorem Reaches.done (h : turn b sys readOk it = .done r) : Reaches b sys it r :=
  ⟨1, by simp only [turns, h]⟩

theorem Reaches.returns {v : Int} (h : Reaches b sys it (.ret it' v))
    (hs : b.stHead.dwBlockSize.toNat ≤ it.dwBlockSize) : Returns b sys it it' v := by
  obtain ⟨n, hn⟩ := h
  exact ⟨n, by rw [next, if_neg (Nat.not_lt.mpr hs)]; exact hn⟩

theorem turns_more {io : Nat → ReadCalls} {n m : Nat} (h : turns b sys io n it = some r) (hm : n ≤ m) :
    turns b sys io m it = some r := by
  induction n generalizing io it m with
  | zero => cases h
  | succ n ih =>
    obtain ⟨k, rfl⟩ : ∃ k, m = k + 1 := ⟨m - 1, by omega⟩
    unfold turns at h ⊢
    cases ht : turn b sys (io 0) it with
    | again it' =>
      simp only [ht] at h ⊢
      exact ih h (by omega)
    | done r' => simpa only [ht] using h

/-- `Next` is a function. -/
theorem Returns.unique {it₁ it₂ : BinlogIterator} {v₁ v₂ : Int} (h₁ : Returns b sys it it₁ v₁)
    (h₂ : Returns b sys it it₂ v₂) : it₁ = it₂ ∧ v₁ = v₂ := by
  obtain ⟨n, hn⟩ := h₁
  obtain ⟨m, hm⟩ := h₂
  unfold next at hn hm
  split at hn
  · next hlt =>
    rw [if_pos hlt] at hm
    cases hn; cases hm
    exact ⟨rfl, rfl⟩
  · next hlt =>
    rw [if_neg hlt] at hm
    have h1 := turns_more hn (Nat.le_max_left n m)
    rw [turns_more hm (Nat.le_max_right n m)] at h1
    cases h1
    exact ⟨rfl, rfl⟩

/-! ## The cache -/

structure Cached (B : Nat) (A : Bytes) (it : BinlogIterator) (r : Nat) : Prop where
  real : it.dwRealSize = toInt32 r
  le : r ≤ B
  inside : B * it.dwBlockIndex + r ≤ A.length
  bytes : it.cBlockBuffer.take r = (A.drop (B * it.dwBlockIndex)).take r
  room : B ≤ it.cBlockBuffer.length

/-- The iterator after a `pread` of its block. -/
def loaded (B : Nat) (A : Bytes) (it : BinlogIterator) : BinlogIterator :=
  let got := (A.drop (B * it.dwBlockIndex)).take B
  { it with cBlockBuffer := got ++ it.cBlockBuffer.drop got.length, dwRealSize := toInt32 got.length }

variable {B : Nat} {A A' : Bytes} {n : Nat}

theorem Cached.extend (h : Cached B A it n) (hA : A <+: A') : Cached B A' it n where
  real := h.real
  le := h.le
  inside := Nat.le_trans h.inside hA.length_le
  bytes := by
    obtain ⟨Z, rfl⟩ := hA
    have hin := h.inside
    rw [h.bytes, List.drop_append_of_le_length (by omega),
      List.take_append_of_le_length (by rw [List.length_drop]; omega)]
  room := h.room

theorem cached_loaded (hroom : B ≤ it.cBlockBuffer.length) (hi : B * it.dwBlockIndex ≤ A.length) :
    Cached B A (loaded B A it) (min B (A.length - B * it.dwBlockIndex)) := by
  have hlen : ((A.drop (B * it.dwBlockIndex)).take B).length = min B (A.length - B * it.dwBlockIndex) := by
    rw [List.length_take, List.length_drop]
  refine ⟨congrArg toInt32 hlen, Nat.min_le_left _ _, ?_, ?_, ?_⟩
  · show B * it.dwBlockIndex + _ ≤ _
    omega
  · show ((A.drop (B * it.dwBlockIndex)).take B ++ _).take _ = (A.drop (B * it.dwBlockIndex)).take _
    rw [← hlen, List.take_left, hlen, List.take_eq_take_min, List.length_drop]
  · simp only [loaded, List.length_append, List.length_drop]
    omega

/-- What the area has at a position inside the cached prefix is in the cache. -/
theorem Cached.at (h : Cached B A it n) (off : Nat) {bytes : Bytes}
    (hb : bytes <+: A.drop (B * it.dwBlockIndex + off)) (hin : off + bytes.length ≤ n) :
    ∃ mid extra, it.cBlockBuffer.drop off = bytes ++ mid ++ extra ∧ bytes.length + mid.length = n - off := by
  have hle := h.le
  have hroom := h.room
  have hcut : (it.cBlockBuffer.drop off).take (n - off) =
      (A.drop (B * it.dwBlockIndex + off)).take (n - off) := by
    rw [← List.drop_drop, ← List.drop_take, ← List.drop_take, h.bytes]
  obtain ⟨rest, hrest⟩ := hb
  rw [← hrest, List.take_append,
    List.take_of_length_le (show bytes.length ≤ n - off by omega)] at hcut
  refine ⟨rest.take (n - off - bytes.length), it.cBlockBuffer.drop n, ?_, ?_⟩
  · rw [← hcut, show it.cBlockBuffer.drop n = (it.cBlockBuffer.drop off).drop (n - off) by
      rw [List.drop_drop]; congr 1; omega, List.take_append_drop]
  · have := congrArg List.length hcut
    rw [List.length_take, List.length_drop, List.length_append] at this
    omega

theorem Cached.getElem? (h : Cached B A it n) {off : Nat} (hin : off < n) :
    it.cBlockBuffer[off]? = A[B * it.dwBlockIndex + off]? := by
  have := congrArg (·[off]?) h.bytes
  simpa [List.getElem?_take, hin, List.getElem?_drop] using this

/-! ## System calls on a log -/

/-- The file of the open handle `b` holds the records `l`. -/
structure Log (b : Binlog) (sys : Sys) (B : Nat) (l : List Entry) : Prop where
  handle : ∃ app head, Handle b sys app B head (area B l)
  fits : Fits B l
  small : 4096 + (area B l).length < 2 ^ 32

variable {l : List Entry} {e : Entry} {i off : Nat} {cont : BinlogIterator → Turn}

theorem Log.block (h : Log b sys B l) : b.stHead.dwBlockSize.toNat = B := by
  obtain ⟨app, head, hh⟩ := h.handle
  exact hh.block

theorem Log.blockOffset (h : Log b sys B l) {k : Nat} (hk : 4096 + B * k < 2 ^ 32) :
    blockOffset b k = 4096 + B * k := by
  obtain ⟨app, head, hh⟩ := h.handle
  rw [Binlog.blockOffset, hh.offset, hh.block, u32_of_lt hk]

theorem Log.pread (h : Log b sys B l) {k : Nat} (hk : 4096 + B * k < 2 ^ 32) :
    sys.pread b.fdBinlog .full B (Binlog.blockOffset b k) = some (((area B l).drop (B * k)).take B) := by
  rw [h.blockOffset hk]
  obtain ⟨app, head, hh⟩ := h.handle
  obtain ⟨pos, hd, -⟩ := hh.desc
  rw [Sys.pread_full hd, hh.data, ← List.drop_drop, ← hh.head, List.drop_left]

theorem Log.size (h : Log b sys B l) :
    sys.size b.fdBinlog true = some (4096 + (area B l).length) := by
  obtain ⟨app, head, hh⟩ := h.handle
  obtain ⟨pos, hd, -⟩ := hh.desc
  rw [Sys.size_ok hd, hh.data, List.length_append, hh.head]

/-- `preadBlock` loads the block, unless it holds nothing or too much. -/
theorem preadBlock_spec (h : Log b sys B l) (hroom : B ≤ it.cBlockBuffer.length)
    (hk : 4096 + B * it.dwBlockIndex < 2 ^ 32)
    (hr : n = min B ((area B l).length - B * it.dwBlockIndex)) :
    preadBlock b sys readOk it cont =
      if n = 0 then .done (.ret (loaded B (area B l) it) 0)
      else if n < 8 ∨ 2 ^ 31 ≤ n then .done (.ret (loaded B (area B l) it) (-1))
      else cont (loaded B (area B l) it) := by
  have hsmall := h.small
  have hlen : (((area B l).drop (B * it.dwBlockIndex)).take B).length = n := by
    rw [List.length_take, List.length_drop, hr]
  have hread : sys.pread b.fdBinlog readOk.pread b.stHead.dwBlockSize.toNat (Binlog.blockOffset b it.dwBlockIndex) =
      some (((area B l).drop (B * it.dwBlockIndex)).take B) := by
    rw [h.block]
    exact h.pread hk
  have hspec := preadBlock_eq cont hread (by rw [hlen]; omega) (by rw [hlen]; omega)
  rw [hlen] at hspec
  exact hspec

/-- A block head is found where one was written. -/
theorem checkBlockHead_spec {time : UInt32} (h : Cached B A it n) (hn : 8 ≤ n) (hn' : n < 2 ^ 31)
    (hhead : blockHeadBuf time <+: A.drop (B * it.dwBlockIndex)) :
    checkBlockHead b it cont =
      cont { it with stBlockHead := { cMagic := blockheadMagic, dwCreateTime := time } } := by
  obtain ⟨mid, extra, hbuf, hlen⟩ := h.at 0 hhead (by rw [length_blockHeadBuf]; omega)
  rw [length_blockHeadBuf] at hlen
  rw [List.drop_zero, blockHeadBuf_eq] at hbuf
  have hword : ofBe ((be 4 time.toNat ++ ([0, 0, 0] ++ mid)).take 4) = time.toNat := by
    rw [List.take_left' (length_be 4 _), ofBe_be]
    exact Nat.mod_eq_of_lt time.toNat_lt
  have hrest : (blockheadMagic :: (be 4 time.toNat ++ ([0, 0, 0] ++ mid))).length = n := by
    simp
    omega
  have hget := @getBlockHead_front (be 4 time.toNat ++ ([0, 0, 0] ++ mid)) extra blockheadMagic
    (by simp) (by simp; omega)
  rw [hword, UInt32.ofNat_toNat] at hget
  have hcheck := checkBlockHead_eq (b := b) cont (show it.cBlockBuffer = _ by rw [hbuf]; simp)
    (by rw [h.real, toInt32_lt hn', hrest]) hget
  simpa using hcheck

/-! ## Parsing -/

/-- The iterator after it found record `p`. -/
def found (B : Nat) (it : BinlogIterator) (p : Bytes) : BinlogIterator :=
  { it with
    dwLogSize := p.length
    cLogBuffer := it.dwOffset + 5
    dwLogOffset := 4096 + B * it.dwBlockIndex + it.dwOffset
    dwOffset := it.dwOffset + (p.length + 6) }

theorem Cached.buffSize (h : Cached B A it n) (hn : n < 2 ^ 32) (hoff : it.dwOffset ≤ n) :
    logBuffSize it = n - it.dwOffset := by
  rw [logBuffSize, h.real, ofInt32_toInt32 hn]
  unfold u32
  omega

/-- A record that is in the cache is returned. -/
theorem parse_record {p : Bytes} (hlog : Log b sys B l) (h : Cached B (area B l) it n)
    (hrec : record p <+: (area B l).drop (B * it.dwBlockIndex + it.dwOffset))
    (hin : it.dwOffset + (p.length + 6) ≤ n) :
    parseLog b it = .done (.ret (found B it p) (toInt32 (p.length + 6))) ∧ (found B it p).payload = p := by
  have hsmall := hlog.small
  have hle := h.inside
  obtain ⟨mid, extra, hbuf, hlen⟩ := h.at it.dwOffset hrec (by rw [length_record]; omega)
  rw [length_record] at hlen
  have hmod : p.length % 2 ^ 32 = p.length := Nat.mod_eq_of_lt (by omega)
  have hfront : it.cBlockBuffer.drop it.dwOffset = smagic :: (be 4 p.length ++ (p ++ emagic :: mid)) ++ extra := by
    rw [hbuf, record, hmod]
    simp
  have hbs : logBuffSize it = (be 4 p.length ++ (p ++ emagic :: mid)).length + 1 := by
    rw [h.buffSize (by omega) (by omega)]
    simp
    omega
  have hoff : u32 (Binlog.blockOffset b it.dwBlockIndex + it.dwOffset) =
      4096 + B * it.dwBlockIndex + it.dwOffset := by
    rw [hlog.blockOffset (by omega), u32_of_lt (by omega)]
  have hnext : u32 (it.dwOffset + u32 (6 + p.length)) = it.dwOffset + (p.length + 6) := by
    rw [u32_of_lt (show 6 + p.length < 2 ^ 32 by omega), u32_of_lt (by omega), Nat.add_comm 6]
  have hret : u32 (p.length + 6) = p.length + 6 := u32_of_lt (by omega)
  constructor
  · rw [parseLog_eq hfront hbs (by simp; omega), parsed_record b it (by omega), accepted, hoff, hnext, hret]
    rfl
  · show (it.cBlockBuffer.drop (it.dwOffset + 5)).take p.length = p
    rw [← List.drop_drop, hfront]
    simp

/-- Where a block was padded, the rest of it is skipped. -/
theorem parse_padding (hlog : Log b sys B l) (h : Cached B (area B l) it n) (hin : it.dwOffset < n)
    (hpad : (area B l)[B * it.dwBlockIndex + it.dwOffset]? = some 0) :
    parseLog b it = .again { it with dwOffset := B } := by
  unfold parseLog
  rw [h.getElem? hin, hpad]
  simp [smagic, skipBlock, hlog.block]

/-! ## Where an iterator stands -/

/-- `it` stands behind record `i` in its block, of which `r` bytes are cached:
all of it, or up to the end of a record. -/
structure Standing (B : Nat) (l : List Entry) (it : BinlogIterator) (i r : Nat) : Prop where
  cached : Cached B (area B l) it r
  head : 8 ≤ it.dwOffset
  off : it.dwOffset ≤ r
  pos : B * it.dwBlockIndex + it.dwOffset = endOf B l i
  whole : r = B ∨ ∃ j ≤ l.length, B * it.dwBlockIndex + r = endOf B l j

/-- As `GetIterator` leaves it, or behind record `i`. -/
structure Good (B : Nat) (l : List Entry) (it : BinlogIterator) (i : Nat) : Prop where
  size : it.dwBlockSize = B
  room : B ≤ it.cBlockBuffer.length
  count : i ≤ l.length
  stands : (i = 0 ∧ it.dwBlockIndex = 0 ∧ it.dwOffset = 0 ∧ it.dwRealSize = 0) ∨
    ∃ r, Standing B l it i r

/-- The block was read to its end, and the file ends with it. -/
def AtBlockEnd (B : Nat) (l : List Entry) (it : BinlogIterator) : Prop :=
  it.dwOffset = B ∧ (area B l).length = B * (it.dwBlockIndex + 1)

/-- Moved on to a block that does not exist yet. -/
structure Ahead (B : Nat) (l : List Entry) (it : BinlogIterator) : Prop where
  size : it.dwBlockSize = B
  room : B ≤ it.cBlockBuffer.length
  off : it.dwOffset = B
  real : it.dwRealSize = 0
  pos : (area B l).length = B * it.dwBlockIndex

theorem Good.extend (h : Good B l it i) (m : List Entry) : Good B (l ++ m) it i where
  size := h.size
  room := h.room
  count := by rw [List.length_append]; exact Nat.le_add_right_of_le h.count
  stands := by
    refine h.stands.imp_right fun ⟨r, s⟩ => ⟨r, s.cached.extend (area_grows B l m), s.head, s.off, ?_, ?_⟩
    · rw [endOf_append m h.count, s.pos]
    · refine s.whole.imp_right fun ⟨j, hj, e⟩ => ⟨j, ?_, by rw [endOf_append m hj, e]⟩
      rw [List.length_append]
      exact Nat.le_add_right_of_le hj

/-- What a call of `Next` with `it₀` behind record `i` may come to. -/
inductive NextResult (B : Nat) (l : List Entry) (i : Nat) (it₀ : BinlogIterator) : BinlogIterator → Int → Prop
  | record {e : Entry} {it : BinlogIterator} (he : l[i]? = some e) (hp : it.payload = e.2)
      (hs : it.dwLogSize = e.2.length) (ho : it.dwLogOffset = 4096 + place B (endOf B l i) (e.2.length + 6))
      (h : Good B l it (i + 1)) : NextResult B l i it₀ it (toInt32 (e.2.length + 6))
  | endOfFile {it : BinlogIterator} (hi : i = l.length) (h : Good B l it i ∨ AtBlockEnd B l it₀ ∧ Ahead B l it) :
      NextResult B l i it₀ it 0
  | tooLong {it : BinlogIterator} (hB : 2 ^ 31 ≤ min B (area B l).length) (h : Good B l it i) :
      NextResult B l i it₀ it (-1)

/-- From `it` the loop of a `Next` that was called with `it₀` comes to one of these. -/
def Continues (b : Binlog) (sys : Sys) (B : Nat) (l : List Entry) (i : Nat) (it₀ it : BinlogIterator) : Prop :=
  ∃ it' v, Reaches b sys it (.ret it' v) ∧ NextResult B l i it₀ it' v

variable {it₀ : BinlogIterator}

theorem Continues.again {i : Nat} (h : turn b sys readOk it = .again it') (hc : Continues b sys B l i it₀ it') :
    Continues b sys B l i it₀ it := by
  obtain ⟨it₁, v, hr, hn⟩ := hc
  exact ⟨it₁, v, hr.again h, hn⟩

theorem Continues.done {i : Nat} {v : Int} (h : turn b sys readOk it = .done (.ret it' v))
    (hn : NextResult B l i it₀ it' v) : Continues b sys B l i it₀ it :=
  ⟨it', v, .done h, hn⟩

/-! ## The next record -/

theorem Cached.turn_parse (h : Cached B A it n) (hn : n < 2 ^ 32) (hoff : it.dwOffset < n) :
    turn b sys readOk it = parseLog b it := by
  unfold turn
  rw [h.real, ofInt32_toInt32 hn, if_neg (Nat.not_le.mpr hoff)]

theorem Cached.turn_refill (h : Cached B A it n) (hn : n < 2 ^ 32) (hoff : n ≤ it.dwOffset) :
    turn b sys readOk it = refill b sys readOk it := by
  unfold turn
  rw [h.real, ofInt32_toInt32 hn, if_pos hoff]

/-- At the place of record `i`, in a cached prefix that ends behind a record. -/
theorem continues_record (hlog : Log b sys B l) (h : Cached B (area B l) it n) (hs : it.dwBlockSize = B)
    (he : l[i]? = some e) (hpos : B * it.dwBlockIndex + it.dwOffset = place B (endOf B l i) (e.2.length + 6))
    (hoff : it.dwOffset < n) (hwhole : n = B ∨ ∃ j ≤ l.length, B * it.dwBlockIndex + n = endOf B l j) :
    Continues b sys B l i it₀ it := by
  have hle := h.le
  have hsmall := hlog.small
  have hin := h.inside
  have hfit := fits_get hlog.fits he
  obtain ⟨h8, hend⟩ := place_fits (n := endOf B l i) (r := e.2.length + 6) (by omega) (by omega)
    (endOf_settled hlog.fits)
  rw [← hpos, Nat.mul_add_mod, Nat.mod_eq_of_lt (by omega)] at h8 hend
  have hsucc := endOf_succ (B := B) he
  rw [← hpos] at hsucc
  have hcached : it.dwOffset + (e.2.length + 6) ≤ n := by
    obtain rfl | ⟨j, -, hj⟩ := hwhole
    · exact hend
    · have hplace : endOf B l i ≤ place B (endOf B l i) (e.2.length + 6) := by
        unfold place
        split <;> [omega; split <;> omega]
      have hij : i < j := lt_of_endOf_lt (by omega : endOf B l i < endOf B l j)
      have := endOf_mono (B := B) (l := l) (show i + 1 ≤ j from hij)
      omega
  obtain ⟨hparse, hpay⟩ := parse_record hlog h (p := e.2) (by rw [hpos]; exact record_at he) hcached
  refine .done ((h.turn_parse (by omega) hoff).trans hparse) (.record he hpay rfl ?_ ?_)
  · show 4096 + B * it.dwBlockIndex + it.dwOffset = _
    omega
  · have hilt : i < l.length := (List.getElem?_eq_some_iff.mp he).1
    refine ⟨hs, h.room, hilt, .inr ⟨n, ⟨h.real, h.le, h.inside, h.bytes, h.room⟩, ?_, hcached, ?_, hwhole⟩⟩
    · show 8 ≤ it.dwOffset + _
      omega
    · show B * it.dwBlockIndex + (it.dwOffset + (e.2.length + 6)) = _
      omega

/-- Loading the block that holds record `i`, at `off`. -/
theorem enter_block (it : BinlogIterator) (cont : BinlogIterator → Turn) (hlog : Log b sys B l)
    (hroom : B ≤ it.cBlockBuffer.length) (hs : it.dwBlockSize = B) (he : l[i]? = some e)
    (hpos : place B (endOf B l i) (e.2.length + 6) = B * it.dwBlockIndex + off) (hoff : off < B)
    {time : UInt32} (hhead : blockHeadBuf time <+: (area B l).drop (B * it.dwBlockIndex))
    (hr : min B ((area B l).length - B * it.dwBlockIndex) < 2 ^ 31)
    (hcont : ∀ it' : BinlogIterator, it'.dwOffset = it.dwOffset → cont it' = .again { it' with dwOffset := off }) :
    ∃ it', preadBlock b sys readOk it (fun it => checkBlockHead b it cont) = .again it' ∧
      Continues b sys B l i it₀ it' := by
  have hsmall := hlog.small
  have hfit := fits_get hlog.fits he
  have hsucc := endOf_succ (B := B) he
  have hle := endOf_le (B := B) (l := l) (i + 1)
  obtain ⟨h8, hend⟩ := place_fits (n := endOf B l i) (r := e.2.length + 6) (by omega) (by omega)
    (endOf_settled hlog.fits)
  rw [hpos, Nat.mul_add_mod, Nat.mod_eq_of_lt hoff] at h8 hend
  rw [preadBlock_spec hlog hroom (by omega) rfl, if_neg (by omega), if_neg (by omega),
    checkBlockHead_spec (cached_loaded hroom (by omega)) (by omega) hr hhead]
  have hc := cached_loaded (A := area B l) hroom (by omega)
  refine ⟨_, hcont _ rfl, continues_record hlog (n := min B ((area B l).length - B * it.dwBlockIndex))
    ⟨hc.real, hc.le, hc.inside, hc.bytes, hc.room⟩ hs he hpos.symm (show off < _ by omega) ?_⟩
  show _ ∨ ∃ j ≤ l.length, B * it.dwBlockIndex + _ = _
  by_cases hB : B ≤ (area B l).length - B * it.dwBlockIndex
  · left
    omega
  · right
    exact ⟨l.length, Nat.le_refl _, by rw [endOf_length]; omega⟩

/-- The three ways `refill` reads a block. -/
theorem refill_next (hlog : Log b sys B l) (hoff : it.dwOffset = B) :
    refill b sys readOk it = preadBlock b sys readOk { it with dwBlockIndex := u32 (it.dwBlockIndex + 1) }
      fun it => checkBlockHead b it fun it => .again { it with dwOffset := blockheadSize } := by
  unfold refill
  simp only [hlog.block, hoff]
  rw [if_pos (Nat.le_refl B)]

theorem refill_load (hlog : Log b sys B l) (hoff : it.dwOffset < B) (hreal : it.dwRealSize ≤ 0) :
    refill b sys readOk it = preadBlock b sys readOk it fun it => checkBlockHead b it fun it =>
      .again { it with dwOffset := if it.dwOffset < blockheadSize then blockheadSize else it.dwOffset } := by
  unfold refill
  simp only [hlog.block]
  rw [if_neg (Nat.not_le.mpr hoff), if_neg fun h => Int.not_lt.mpr hreal h.1]

theorem refill_reload (hlog : Log b sys B l) (h : Cached B (area B l) it n) (hoff : it.dwOffset ≤ n) (hn : 0 < n)
    (hn' : n < 2 ^ 31) (hnB : n < B) :
    refill b sys readOk it = if (area B l).length ≤ B * it.dwBlockIndex + it.dwOffset then .done (.ret it 0)
      else preadBlock b sys readOk it .again := by
  have hin := h.inside
  have hsmall := hlog.small
  have hB : B < 2 ^ 32 := by rw [← hlog.block]; exact b.stHead.dwBlockSize.toNat_lt
  unfold refill
  simp only [hlog.block]
  rw [if_neg (by omega), h.real, ofInt32_toInt32 (by omega), toInt32_lt hn', if_pos (by omega)]
  simp only [readOk, hlog.size, hlog.blockOffset (k := it.dwBlockIndex) (by omega)]
  rw [u32_of_lt (by omega)]
  by_cases hN : (area B l).length ≤ B * it.dwBlockIndex + it.dwOffset
  · rw [if_pos hN, if_pos (by omega)]
  · rw [if_neg hN, if_neg (by omega)]

/-- From the end of a block into the one where record `i` is the first. -/
theorem next_block (hlog : Log b sys B l) (h : Cached B (area B l) it n) (hs : it.dwBlockSize = B)
    (he : l[i]? = some e) (hoff : it.dwOffset = B)
    (hpos : place B (endOf B l i) (e.2.length + 6) = B * (it.dwBlockIndex + 1) + 8) {time : UInt32}
    (hhead : blockHeadBuf time <+: (area B l).drop (B * (it.dwBlockIndex + 1))) :
    Continues b sys B l i it₀ it := by
  have hle := h.le
  have hsmall := hlog.small
  have hB : B < 2 ^ 32 := by rw [← hlog.block]; exact b.stHead.dwBlockSize.toNat_lt
  have hfit := fits_get hlog.fits he
  have hsucc := endOf_succ (B := B) he
  have hend := endOf_le (B := B) (l := l) (i + 1)
  rw [Nat.mul_succ] at hpos
  have hidx : it.dwBlockIndex + 1 < 2 ^ 32 := by
    have := Nat.le_mul_of_pos_left it.dwBlockIndex (show 0 < B by omega)
    omega
  obtain ⟨it', hread, hc⟩ := enter_block { it with dwBlockIndex := u32 (it.dwBlockIndex + 1) }
    (fun it => .again { it with dwOffset := blockheadSize }) hlog h.room hs he
    (by rw [u32_of_lt hidx, Nat.mul_succ]; exact hpos) (show 8 < B by omega) (by rw [u32_of_lt hidx]; exact hhead)
    (by rw [u32_of_lt hidx, Nat.mul_succ]; omega) (fun _ _ => rfl)
  exact .again ((h.turn_refill (by omega) (by omega)).trans ((refill_next hlog hoff).trans hread)) hc

/-- Behind record `i` with more of the block in the cache. -/
theorem standing_continues (hlog : Log b sys B l) (h : Standing B l it i n) (hs : it.dwBlockSize = B)
    (hoff : it.dwOffset < n) : Continues b sys B l i it₀ it := by
  have h8 := h.head
  have hle := h.cached.le
  have hin := h.cached.inside
  have hpos := h.pos
  have hsmall := hlog.small
  obtain ⟨e, he⟩ := getElem?_of_endOf_lt (B := B) (l := l) (i := i) (by omega)
  have hmod : endOf B l i % B = it.dwOffset := by
    rw [← hpos, Nat.mul_add_mod, Nat.mod_eq_of_lt (by omega)]
  by_cases hp : Pads B (endOf B l i) (e.2.length + 6)
  · obtain ⟨hzero, hhead⟩ := padding_at (by omega) he hp
    rw [hmod, show endOf B l i + (B - it.dwOffset) = B * (it.dwBlockIndex + 1) by rw [Nat.mul_succ]; omega] at hhead
    refine .again ((h.cached.turn_parse (by omega) hoff).trans
      (parse_padding hlog h.cached hoff (by rw [hpos]; exact hzero))) ?_
    have hc : Cached B (area B l) { it with dwOffset := B } n :=
      ⟨h.cached.real, hle, hin, h.cached.bytes, h.cached.room⟩
    refine next_block hlog hc hs he rfl ?_ hhead
    unfold place
    rw [if_neg hp.1, if_pos hp.2, hmod, ← hpos, Nat.mul_succ]
    show B * it.dwBlockIndex + it.dwOffset + (B - it.dwOffset) + 8 = B * it.dwBlockIndex + B + 8
    omega
  · refine continues_record hlog h.cached hs he ?_ hoff h.whole
    unfold place
    rw [if_neg (by omega), if_neg fun hr => hp ⟨by omega, hr⟩, hpos]

theorem good_loaded (hroom : B ≤ it.cBlockBuffer.length) (h8 : 8 ≤ it.dwOffset)
    (hpos : B * it.dwBlockIndex + it.dwOffset = endOf B l i)
    (hoff : it.dwOffset ≤ min B ((area B l).length - B * it.dwBlockIndex)) :
    Standing B l (loaded B (area B l) it) i (min B ((area B l).length - B * it.dwBlockIndex)) := by
  refine ⟨cached_loaded hroom (by omega), h8, hoff, hpos, ?_⟩
  by_cases hB : B ≤ (area B l).length - B * it.dwBlockIndex
  · left
    omega
  · right
    refine ⟨l.length, Nat.le_refl _, ?_⟩
    rw [endOf_length]
    show B * it.dwBlockIndex + _ = _
    omega

/-- Behind record `i`, at the end of the cached prefix of a block that is not full. -/
theorem reload_continues (hlog : Log b sys B l) (h : Standing B l it i n) (hg : Good B l it i)
    (hoff : it.dwOffset = n) (hnB : n < B) : Continues b sys B l i it₀ it := by
  have h8 := h.head
  have hin := h.cached.inside
  have hpos := h.pos
  have hsmall := hlog.small
  have hturn : turn b sys readOk it = refill b sys readOk it := h.cached.turn_refill (by omega) (by omega)
  have hst := good_loaded hg.room h8 hpos (by omega)
  have hgood : Good B l (loaded B (area B l) it) i := by
    refine ⟨hg.size, ?_, hg.count, .inr ⟨_, hst⟩⟩
    exact hst.cached.room
  have hbad : 2 ^ 31 ≤ min B ((area B l).length - B * it.dwBlockIndex) → 2 ^ 31 ≤ min B (area B l).length := by
    omega
  by_cases hn : n < 2 ^ 31
  · rw [refill_reload hlog h.cached (by omega) (by omega) hn hnB] at hturn
    by_cases hN : (area B l).length ≤ B * it.dwBlockIndex + it.dwOffset
    · rw [if_pos hN] at hturn
      refine .done hturn (.endOfFile ?_ (.inl hg))
      by_contra hi
      have hlt : i < l.length := Nat.lt_of_le_of_ne hg.count hi
      have hsucc := endOf_succ (B := B) (List.getElem?_eq_getElem hlt)
      have hle := endOf_le (B := B) (l := l) (i + 1)
      unfold place at hsucc
      split at hsucc <;> [omega; split at hsucc <;> omega]
    · rw [if_neg hN, preadBlock_spec hlog hg.room (by omega) rfl, if_neg (by omega)] at hturn
      by_cases hr : 2 ^ 31 ≤ min B ((area B l).length - B * it.dwBlockIndex)
      · rw [if_pos (.inr hr)] at hturn
        exact .done hturn (.tooLong (hbad hr) hgood)
      · rw [if_neg (by omega)] at hturn
        exact .again hturn (standing_continues hlog hst hg.size (show it.dwOffset < _ by omega))
  · have hreal : it.dwRealSize ≤ 0 := by
      rw [h.cached.real, toInt32_ge (by omega) (by omega)]
      omega
    rw [refill_load hlog (by omega) hreal, preadBlock_spec hlog hg.room (by omega) rfl, if_neg (by omega),
      if_pos (by omega)] at hturn
    exact .done hturn (.tooLong (hbad (by omega)) hgood)

/-- Moving on to a block of which nothing is in the file. -/
theorem turn_past_end (hlog : Log b sys B l) (hB : 0 < B) (hroom : B ≤ it.cBlockBuffer.length)
    (hreal : ofInt32 it.dwRealSize ≤ B) (hoff : it.dwOffset = B) (hidx : 4096 + B * (it.dwBlockIndex + 1) < 2 ^ 32)
    (hN : (area B l).length ≤ B * (it.dwBlockIndex + 1)) :
    turn b sys readOk it = .done (.ret
      { it with dwBlockIndex := it.dwBlockIndex + 1, dwRealSize := 0 } 0) := by
  have hu : u32 (it.dwBlockIndex + 1) = it.dwBlockIndex + 1 := by
    have := Nat.le_mul_of_pos_left (it.dwBlockIndex + 1) hB
    exact u32_of_lt (by omega)
  have hgot : ((area B l).drop (B * (it.dwBlockIndex + 1))).take B = [] := by
    rw [List.drop_eq_nil_of_le hN, List.take_nil]
  unfold turn
  rw [if_pos (by omega), refill_next hlog hoff, hu,
    @preadBlock_spec b sys { it with dwBlockIndex := it.dwBlockIndex + 1 } B 0 l _ hlog hroom hidx
      (by show 0 = min B ((area B l).length - B * (it.dwBlockIndex + 1)); omega), if_pos rfl]
  simp only [loaded, hgot]
  rfl

/-- At the end of a block. -/
theorem block_end_continues (hlog : Log b sys B l) (h : Standing B l it i B) (hg : Good B l it i)
    (hoff : it.dwOffset = B) : Continues b sys B l i it it := by
  have h8 := h.head
  have hin := h.cached.inside
  have hpos := h.pos
  have hsmall := hlog.small
  have hB : B < 2 ^ 32 := by rw [← hlog.block]; exact b.stHead.dwBlockSize.toNat_lt
  have hblock : endOf B l i = B * (it.dwBlockIndex + 1) := by rw [← hpos, hoff, Nat.mul_succ]
  have hmod : endOf B l i % B = 0 := by rw [hblock, Nat.mul_mod_right]
  by_cases hi : i = l.length
  · have hN : (area B l).length = B * (it.dwBlockIndex + 1) := by rw [← hblock, hi, endOf_length]
    have hreal : ofInt32 it.dwRealSize ≤ B := Nat.le_of_eq (by rw [h.cached.real, ofInt32_toInt32 hB])
    exact .done (turn_past_end hlog (by omega) hg.room hreal hoff (by omega) (Nat.le_of_eq hN))
      (.endOfFile hi (.inr ⟨⟨hoff, hN⟩, hg.size, hg.room, hoff, rfl, hN⟩))
  · have hlt : i < l.length := Nat.lt_of_le_of_ne hg.count hi
    have he := List.getElem?_eq_getElem hlt
    have hhead := head_at he hmod
    rw [hblock] at hhead
    refine next_block hlog h.cached hg.size he hoff ?_ hhead
    unfold place
    rw [if_pos hmod, hblock]

/-- Nothing was read yet. -/
theorem fresh_continues (hlog : Log b sys B l) (hg : Good B l it 0) (h0 : it.dwBlockIndex = 0)
    (hoff : it.dwOffset = 0) (hreal : it.dwRealSize = 0) (hB : 0 < B) (hshort : min B (area B l).length < 2 ^ 31) :
    Continues b sys B l 0 it₀ it := by
  have hturn : turn b sys readOk it = refill b sys readOk it := by
    unfold turn
    rw [hreal, hoff]
    exact if_pos (Nat.le_refl 0)
  rw [refill_load hlog (by omega) (by omega)] at hturn
  cases l with
  | nil =>
    rw [preadBlock_spec hlog (n := 0) hg.room (by rw [h0]; omega) (by simp), if_pos rfl] at hturn
    refine .done hturn (.endOfFile rfl (.inl ⟨hg.size, ?_, Nat.le_refl _, .inl ⟨rfl, h0, hoff, ?_⟩⟩))
    · simpa [loaded] using hg.room
    · simp [loaded, toInt32]
  | cons e l =>
    have he : (e :: l)[0]? = some e := rfl
    have hmod : endOf B (e :: l) 0 % B = 0 := by rw [endOf_zero, Nat.zero_mod]
    have hhead := head_at he hmod
    have hfit := fits_get hlog.fits he
    rw [endOf_zero] at hhead
    obtain ⟨it', hread, hc⟩ := enter_block it
      (fun it => .again
        { it with dwOffset := if it.dwOffset < blockheadSize then blockheadSize else it.dwOffset })
      hlog hg.room hg.size he (by simp [place, endOf_zero, h0]) (show 8 < B by omega) (by rw [h0]; exact hhead)
      (by rw [h0, Nat.mul_zero, Nat.sub_zero]; exact hshort)
      (fun it' h => by rw [h, hoff]; rfl)
    exact .again (hturn.trans hread) hc

/-- From a good iterator `Next` returns, with one of these results. -/
theorem next_spec (hlog : Log b sys B l) (hB : 0 < B) (hg : Good B l it i)
    (hshort : it.dwRealSize = 0 → min B (area B l).length < 2 ^ 31) :
    ∃ it' v, Returns b sys it it' v ∧ NextResult B l i it it' v := by
  have hc : Continues b sys B l i it it := by
    obtain ⟨rfl, h0, hoff, hreal⟩ | ⟨r, hst⟩ := hg.stands
    · exact fresh_continues hlog hg h0 hoff hreal hB (hshort hreal)
    · have hoff := hst.off
      have hle := hst.cached.le
      by_cases hlt : it.dwOffset < r
      · exact standing_continues hlog hst hg.size hlt
      · by_cases hr : r = B
        · subst hr
          exact block_end_continues hlog hst hg (by omega)
        · exact reload_continues hlog hst hg (by omega) (by omega)
  obtain ⟨it', v, hr, hn⟩ := hc
  exact ⟨it', v, hr.returns (Nat.le_of_eq (by rw [hlog.block, hg.size])), hn⟩

/-- `GetIterator` starts before the first record. -/
theorem good_getIterator (hlog : Log b sys B l) (mem : Nat → UInt8) : Good B l (getIterator b mem) 0 where
  size := hlog.block
  room := by simp [getIterator, hlog.block]
  count := Nat.zero_le _
  stands := .inl ⟨rfl, rfl, rfl, rfl⟩

end SimpleSvr.L3.Binlog
