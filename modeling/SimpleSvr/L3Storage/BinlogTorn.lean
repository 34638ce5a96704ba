import SimpleSvr.L3Storage.BinlogErrors
import SimpleSvr.L3Storage.BinlogRoundTrip

/-!
# A log that was cut off

A write that did not come to its end (a crash, a full disk) leaves the file cut
off somewhere: in the zeros of a padding, in a block head, in a record.
`Torn b sys B l A`: the data area `A` is any such part of the area of the
records `l`. `Next` reads the records that are whole, and then stops.

* `parsed_torn`: a record that was cut off is never taken for one.
* `torn_next`: one call of `Next` on a torn log.
* `torn_reads`: what `OpenLog` and an iterator find, for every length of the
  file from the file head on.
-/
namespace SimpleSvr.L3.Binlog

/-- An open handle on what is left of the records `l`. -/
structure Torn (b : Binlog) (sys : Sys) (B : Nat) (l : List Entry) (A : Bytes) : Prop where
  handle : ∃ app head, Handle b sys app B head A
  torn : A <+: area B l
  fits : Fits B l
  small : 4096 + (area B l).length + B < 2 ^ 32
  short : B < 2 ^ 31

/-- What `Next` returns at the end of `n` bytes of blocks: a block head that was cut off is an error. -/
def stopValue (B n : Nat) : Int := if 0 < n % B ∧ n % B < 8 then -1 else 0

/-- The record lies in the first `n` bytes of the file. -/
def Complete (n : Nat) (x : Bytes × Int) : Prop := x.2 + (x.1.length + 6) ≤ n

instance (n : Nat) : DecidablePred (Complete n) := fun x => inferInstanceAs (Decidable (x.2 + _ ≤ (n : Int)))

/-- The part of its block that is in the file. -/
def present (B : Nat) (A : Bytes) (it : BinlogIterator) : Nat := min B (A.length - B * it.dwBlockIndex)

/-- `it` has all of its block that is in the file, and stands at a byte of it. -/
structure StandsAt (B : Nat) (A : Bytes) (it : BinlogIterator) (pos : Nat) : Prop where
  size : it.dwBlockSize = B
  cached : Cached B A it (present B A it)
  head : 8 ≤ it.dwOffset
  off : it.dwOffset ≤ present B A it
  pos : B * it.dwBlockIndex + it.dwOffset = pos

/-- Nothing was read yet, or the first `i` records were. -/
def Before (B : Nat) (l : List Entry) (A : Bytes) (it : BinlogIterator) (i : Nat) : Prop :=
  (i = 0 ∧ it.dwBlockSize = B ∧ B ≤ it.cBlockBuffer.length ∧ it.dwBlockIndex = 0 ∧ it.dwOffset = 0 ∧
    it.dwRealSize = 0) ∨ StandsAt B A it (endOf B l i)

/-- What a call of `Next` behind record `i` comes to. -/
inductive TornResult (B : Nat) (l : List Entry) (A : Bytes) (i : Nat) : BinlogIterator → Int → Prop
  | record {e : Entry} {it : BinlogIterator} (he : l[i]? = some e) (hin : endOf B l (i + 1) ≤ A.length)
      (hp : it.payload = e.2) (hs : it.dwLogSize = e.2.length)
      (ho : it.dwLogOffset = 4096 + place B (endOf B l i) (e.2.length + 6)) (h : StandsAt B A it (endOf B l (i + 1))) :
      TornResult B l A i it (e.2.length + 6)
  | stop {it : BinlogIterator} (hi : l[i]? = none ∨ A.length < endOf B l (i + 1)) :
      TornResult B l A i it (stopValue B A.length)

/-- From `it` the loop comes to one of these. -/
def TornContinues (b : Binlog) (sys : Sys) (B : Nat) (l : List Entry) (A : Bytes) (i : Nat)
    (it : BinlogIterator) : Prop :=
  ∃ it' v, Reaches b sys it (.ret it' v) ∧ TornResult B l A i it' v

variable {b : Binlog} {sys : Sys} {it it' : BinlogIterator} {B i j : Nat} {l m : List Entry} {e : Entry} {A : Bytes}

theorem TornContinues.again (h : turn b sys readOk it = .again it') (hc : TornContinues b sys B l A i it') :
    TornContinues b sys B l A i it := by
  obtain ⟨it₁, v, hr, hn⟩ := hc
  exact ⟨it₁, v, hr.again h, hn⟩

theorem TornContinues.done {v : Int} (h : turn b sys readOk it = .done (.ret it' v)) (hn : TornResult B l A i it' v) :
    TornContinues b sys B l A i it :=
  ⟨it', v, .done h, hn⟩

/-! ## The file -/

theorem Torn.block (h : Torn b sys B l A) : b.stHead.dwBlockSize.toNat = B := by
  obtain ⟨app, head, hh⟩ := h.handle
  exact hh.block

theorem Torn.blockOffset (h : Torn b sys B l A) {k : Nat} (hk : 4096 + B * k < 2 ^ 32) :
    blockOffset b k = 4096 + B * k := by
  obtain ⟨app, head, hh⟩ := h.handle
  rw [Binlog.blockOffset, hh.offset, hh.block, u32_of_lt hk]

theorem Torn.readable (h : Torn b sys B l A) : Readable b sys := by
  obtain ⟨app, head, hh⟩ := h.handle
  obtain ⟨pos, hd, -⟩ := hh.desc
  exact ⟨_, hd⟩

theorem Torn.length (h : Torn b sys B l A) : sys.data.length = 4096 + A.length := by
  obtain ⟨app, head, hh⟩ := h.handle
  rw [hh.data, List.length_append, hh.head]

/-- The same handle on the file as it would have become. -/
theorem Torn.log (h : Torn b sys B l A) : ∃ sys', Log b sys' B l := by
  have hsmall := h.small
  obtain ⟨app, head, hh⟩ := h.handle
  exact ⟨⟨head ++ area B l, fun _ => some ⟨0, true⟩⟩,
    ⟨true, head, hh.fd, ⟨0, rfl, fun h => by cases h⟩, rfl, hh.head, hh.offset, hh.block⟩, h.fits, by omega⟩

/-- `preadBlock` loads what is there of the block. -/
theorem preadBlock_torn (h : Torn b sys B l A) (cont : BinlogIterator → Turn) (hroom : B ≤ it.cBlockBuffer.length)
    (hk : 4096 + B * it.dwBlockIndex < 2 ^ 32) :
    preadBlock b sys readOk it cont =
      if present B A it = 0 then .done (.ret (loaded B A it) 0)
      else if present B A it < 8 then .done (.ret (loaded B A it) (-1))
      else cont (loaded B A it) := by
  have hshort := h.short
  have hlen : ((A.drop (B * it.dwBlockIndex)).take B).length = present B A it := by
    rw [List.length_take, List.length_drop, present]
  have hle : present B A it ≤ B := Nat.min_le_left _ _
  have hread : sys.pread b.fdBinlog readOk.pread b.stHead.dwBlockSize.toNat (Binlog.blockOffset b it.dwBlockIndex) =
      some ((A.drop (B * it.dwBlockIndex)).take B) := by
    rw [h.blockOffset hk, h.block]
    obtain ⟨app, head, hh⟩ := h.handle
    obtain ⟨pos, hd, -⟩ := hh.desc
    rw [readOk, Sys.pread_full hd, hh.data, ← List.drop_drop, ← hh.head, List.drop_left]
  have hspec := preadBlock_eq cont hread (by omega) (by omega)
  rw [hlen] at hspec
  simp only [show ¬2 ^ 31 ≤ present B A it by omega, or_false] at hspec
  exact hspec

theorem StandsAt.loadedSize (h : StandsAt B A it i) (hB : B < 2 ^ 31) : it.loadedSize = present B A it := by
  have hle : present B A it ≤ B := Nat.min_le_left _ _
  rw [BinlogIterator.loadedSize, h.cached.real, ofInt32_toInt32 (by omega)]

/-- A record lies in one block. -/
theorem StandsAt.record_in (h : StandsAt B A it (place B (endOf B l j) (e.2.length + 6))) (hl : Fits B l)
    (he : l[j]? = some e) : it.dwOffset + (e.2.length + 6) ≤ B := by
  have hfit := fits_get hl he
  have hle : present B A it ≤ B := Nat.min_le_left _ _
  have hoff := h.off
  obtain ⟨h8, hend⟩ := place_fits (n := endOf B l j) (r := e.2.length + 6) (B := B) (by omega) (by omega)
    (endOf_settled hl)
  have hlt : it.dwOffset < B := by
    by_contra hge
    -- a place is not on a boundary
    rw [← h.pos, Nat.mul_add_mod, show it.dwOffset = B by omega, Nat.mod_self] at h8
    omega
  rwa [← h.pos, Nat.mul_add_mod, Nat.mod_eq_of_lt hlt] at hend

/-! ## Records that were cut off -/

/-- The first `t` bytes of a record that has more of them. -/
theorem parsed_torn {p : Bytes} {t : Nat} (b : Binlog) (it : BinlogIterator) (ht : t < p.length + 5)
    (hlt : p.length + 6 < 2 ^ 32) :
    parsed b it smagic ((be 4 p.length ++ (p ++ [emagic])).take t) = .again (skipBlock b it) := by
  have hlen : ((be 4 p.length ++ (p ++ [emagic])).take t).length = t := by
    simp
    omega
  unfold parsed
  by_cases h5 : t < 5
  · simp [hlen, h5]
  · have hfield : ofBe (((be 4 p.length ++ (p ++ [emagic])).take t).take 4) = p.length := by
      rw [List.take_take, Nat.min_eq_left (by omega), List.take_left' (length_be 4 _), ofBe_be,
        Nat.mod_eq_of_lt (by omega)]
    have hmore : t + 1 < u32 (6 + p.length) := by
      rw [u32_of_lt (by omega)]
      omega
    simp only [hlen, hfield, hmore, or_true, if_true]

/-- `Next` does not take the front of a record for a record, and skips the block. -/
theorem parse_torn (h : Torn b sys B l A) (hs : StandsAt B A it i) (he : l[j]? = some e)
    (hplace : i = place B (endOf B l j) (e.2.length + 6)) (htorn : A.length < endOf B l (j + 1))
    (hoff : it.dwOffset < present B A it) : parseLog b it = .again { it with dwOffset := B } := by
  have hsmall := h.small
  have hpos := hs.pos
  have hsucc := endOf_succ (B := B) he
  have hle := endOf_le (B := B) (l := l) (j + 1)
  have hfit := fits_get h.fits he
  have hB : present B A it ≤ B := Nat.min_le_left _ _
  have hA : present B A it ≤ A.length - B * it.dwBlockIndex := Nat.min_le_right _ _
  have hend := (hplace ▸ hs).record_in h.fits he
  have hpresent : present B A it = A.length - B * it.dwBlockIndex := by
    unfold present
    omega
  -- what is in the file from the place of the record on
  have hcut : A.drop i = (record e.2).take (A.length - i) := by
    obtain ⟨Z, hZ⟩ := h.torn
    obtain ⟨Y, hY⟩ := record_at (B := B) he
    rw [← hplace, ← hZ, List.drop_append_of_le_length (by omega)] at hY
    have htake := congrArg (List.take (A.length - i)) hY
    rw [List.take_append_of_le_length (by rw [length_record]; omega),
      List.take_left' (by rw [List.length_drop])] at htake
    exact htake.symm
  obtain ⟨mid, extra, hbuf, hlen⟩ := hs.cached.at it.dwOffset
    (show A.drop i <+: _ by simp only [hpos, List.prefix_refl]) (by rw [List.length_drop]; omega)
  have hmid : mid = [] := by
    rw [List.length_drop] at hlen
    exact List.eq_nil_of_length_eq_zero (by omega)
  have hmod : e.2.length % 2 ^ 32 = e.2.length := Nat.mod_eq_of_lt (by omega)
  obtain ⟨t, ht⟩ : ∃ t, A.length - i = t + 1 := ⟨A.length - i - 1, by omega⟩
  have hrec : (record e.2).take (t + 1) = smagic :: (be 4 e.2.length ++ (e.2 ++ [emagic])).take t := by
    rw [record, hmod]
    simp
  rw [hmid, hcut, ht, hrec, List.append_nil] at hbuf
  have hsize : logBuffSize it = ((be 4 e.2.length ++ (e.2 ++ [emagic])).take t).length + 1 := by
    rw [hs.cached.buffSize (by omega) hs.off]
    simp
    omega
  rw [parseLog_eq hbuf hsize (by simp; omega), parsed_torn b it (by omega) (by omega), skipBlock, h.block]

/-! ## The end -/

/-- `Next` at the end of a block, where the file ends too. -/
theorem turn_stops (h : Torn b sys B l A) (hused : it.loadedSize ≤ B) (hroom : B ≤ it.cBlockBuffer.length)
    (hoff : it.dwOffset = B) (hin : B * it.dwBlockIndex ≤ (area B l).length) (hB : 0 < B)
    (hA : A.length ≤ B * (it.dwBlockIndex + 1)) :
    ∃ it', turn b sys readOk it = .done (.ret it' 0) := by
  have hsmall := h.small
  have hidx : u32 (it.dwBlockIndex + 1) = it.dwBlockIndex + 1 := by
    have := Nat.le_mul_of_pos_left it.dwBlockIndex hB
    exact u32_of_lt (by omega)
  have hnext : preadIndex b it = it.dwBlockIndex + 1 := by
    rw [preadIndex, h.block, if_pos (Nat.le_of_eq hoff.symm), hidx]
  have hnone : present B A { it with dwBlockIndex := it.dwBlockIndex + 1 } = 0 := by
    show min B (A.length - B * (it.dwBlockIndex + 1)) = 0
    omega
  have hturn := @turn_refill it b sys readOk (by omega)
  rw [refill_next_block (by rw [h.block, hoff]), hnext,
    @preadBlock_torn _ _ { it with dwBlockIndex := it.dwBlockIndex + 1 } _ _ _ h _ hroom
      (show 4096 + B * (it.dwBlockIndex + 1) < 2 ^ 32 by rw [Nat.mul_succ]; omega), if_pos hnone] at hturn
  exact ⟨_, hturn⟩

theorem stopValue_settled {n : Nat} (h : Settled B n) : stopValue B n = 0 := by
  have : ¬(0 < n % B ∧ n % B < 8) := by
    unfold Settled at h
    omega
  rw [stopValue, if_neg this]

/-- `Next` behind all bytes of the file. -/
theorem end_stops (h : Torn b sys B l A) (hs : StandsAt B A it i) (hB : 0 < B) (hA : A.length ≤ i) :
    ∃ it', turn b sys readOk it = .done (.ret it' 0) := by
  have hshort := h.short
  have hsmall := h.small
  have h8 := hs.head
  have hoff := hs.off
  have hpos := hs.pos
  have hin := hs.cached.inside
  have hle := h.torn.length_le
  have hroom := hs.cached.room
  have hloaded := hs.loadedSize hshort
  have hpresent : present B A it = min B (A.length - B * it.dwBlockIndex) := rfl
  by_cases hend : it.dwOffset = B
  · exact turn_stops h (by omega) hroom hend (by omega) hB (by rw [Nat.mul_succ]; omega)
  · have hreal := hs.cached.real
    rw [toInt32_lt (by omega)] at hreal
    have hasks : AsksSize b it := ⟨by omega, by rw [h.block]; omega, by omega, by rw [h.block]; omega⟩
    have hturn := @turn_refill it b sys readOk (by omega)
    rw [refill_asks h.readable hasks, if_pos (show readOk.fstat = true from rfl), h.blockOffset (by omega),
      u32_of_lt (by omega), if_pos (by rw [h.length]; omega)] at hturn
    exact ⟨it, hturn⟩

/-- At the place of a record that is not whole, `Next` stops. -/
theorem torn_stops (h : Torn b sys B l A) (he : l[j]? = some e)
    (hs : StandsAt B A it (place B (endOf B l j) (e.2.length + 6))) (htorn : A.length < endOf B l (j + 1)) :
    TornContinues b sys B l A j it := by
  have hshort := h.short
  have h8 := hs.head
  have hoff := hs.off
  have hpos := hs.pos
  have hin := hs.cached.inside
  have hle := h.torn.length_le
  have hfit := fits_get h.fits he
  have hsucc := endOf_succ (B := B) he
  have hpresent : present B A it = min B (A.length - B * it.dwBlockIndex) := rfl
  have hend := hs.record_in h.fits he
  have hvalue : stopValue B A.length = 0 := by
    apply stopValue_settled
    right
    rw [show A.length = B * it.dwBlockIndex + (A.length - B * it.dwBlockIndex) by omega, Nat.mul_add_mod,
      Nat.mod_eq_of_lt (by omega)]
    omega
  have hstop {it' : BinlogIterator} : TornResult B l A j it' 0 := by
    rw [← hvalue]
    exact .stop (.inr htorn)
  by_cases hmore : it.dwOffset < present B A it
  · have hparse := parse_torn h hs he rfl htorn hmore
    obtain ⟨it', hturn⟩ := @turn_stops _ _ { it with dwOffset := B } _ _ _ h (by
        show it.loadedSize ≤ B
        rw [hs.loadedSize hshort]
        omega) hs.cached.room rfl (by show B * it.dwBlockIndex ≤ _; omega) (by omega)
      (by show A.length ≤ B * (it.dwBlockIndex + 1); rw [Nat.mul_succ]; omega)
    exact .again ((turn_parse b sys readOk (by rw [hs.loadedSize hshort]; exact hmore)).trans hparse)
      (.done hturn hstop)
  · obtain ⟨it', hturn⟩ := end_stops h hs (by omega) (by omega)
    exact .done hturn hstop

/-- At the place of a record that is whole, `Next` returns it. -/
theorem whole_continues (h : Torn b sys B l A) (he : l[j]? = some e)
    (hs : StandsAt B A it (place B (endOf B l j) (e.2.length + 6))) (hin : endOf B l (j + 1) ≤ A.length) :
    TornContinues b sys B l A j it := by
  have hshort := h.short
  have h8 := hs.head
  have hoff := hs.off
  have hpos := hs.pos
  have hsmall := h.small
  have hle := h.torn.length_le
  have hfit := fits_get h.fits he
  have hsucc := endOf_succ (B := B) he
  have hpresent : present B A it = min B (A.length - B * it.dwBlockIndex) := rfl
  have hend := hs.record_in h.fits he
  obtain ⟨sys', hlog⟩ := h.log
  obtain ⟨hparse, hpay⟩ := parse_record hlog (hs.cached.extend h.torn) (p := e.2)
    (by rw [hpos]; exact record_at he) (by omega)
  have hturn := @turn_parse it b sys readOk (by rw [hs.loadedSize hshort]; omega)
  rw [hparse, toInt32_lt (by omega)] at hturn
  refine .done hturn (.record he hin hpay rfl ?_ ⟨hs.size, ?_, ?_, ?_, ?_⟩)
  · show 4096 + B * it.dwBlockIndex + it.dwOffset = _
    omega
  · exact ⟨hs.cached.real, hs.cached.le, hs.cached.inside, hs.cached.bytes, hs.cached.room⟩
  · show 8 ≤ it.dwOffset + _
    omega
  · show it.dwOffset + (e.2.length + 6) ≤ present B A it
    omega
  · show B * it.dwBlockIndex + (it.dwOffset + (e.2.length + 6)) = _
    omega

/-! ## Entering a block -/

theorem prefix_cut {x Y Z : Bytes} (h : x <+: Y) (hZ : Z <+: Y) (hlen : x.length ≤ Z.length) : x <+: Z :=
  List.prefix_of_prefix_length_le h hZ hlen

/-- Loading the block that record `j` is the first of. -/
theorem enter_torn (h : Torn b sys B l A) (cont : BinlogIterator → Turn) (hroom : B ≤ it.cBlockBuffer.length)
    (hs : it.dwBlockSize = B) (he : l[j]? = some e)
    (hplace : place B (endOf B l j) (e.2.length + 6) = B * it.dwBlockIndex + 8) {time : UInt32}
    (hhead : blockHeadBuf time <+: (area B l).drop (B * it.dwBlockIndex))
    (hbefore : A.length ≤ B * it.dwBlockIndex → stopValue B A.length = 0)
    (hcont : ∀ it' : BinlogIterator, it'.dwOffset = it.dwOffset → cont it' = .again { it' with dwOffset := 8 })
    (hturn : turn b sys readOk it' = preadBlock b sys readOk it (fun it => checkBlockHead b it cont)) :
    TornContinues b sys B l A j it' := by
  have hshort := h.short
  have hsmall := h.small
  have hsucc := endOf_succ (B := B) he
  have hend := endOf_le (B := B) (l := l) (j + 1)
  have hfit := fits_get h.fits he
  have hpresent : present B A it = min B (A.length - B * it.dwBlockIndex) := rfl
  rw [preadBlock_torn h _ hroom (by omega)] at hturn
  by_cases h0 : present B A it = 0
  · rw [if_pos h0] at hturn
    refine .done hturn ?_
    rw [← hbefore (by omega)]
    exact .stop (.inr (by omega))
  · rw [if_neg h0] at hturn
    by_cases h8 : present B A it < 8
    · rw [if_pos h8] at hturn
      refine .done hturn ?_
      have hmod : A.length % B = present B A it := by
        rw [show A.length = B * it.dwBlockIndex + present B A it by omega, Nat.mul_add_mod,
          Nat.mod_eq_of_lt (by omega)]
      have hvalue : stopValue B A.length = -1 := by rw [stopValue, hmod, if_pos (by omega)]
      rw [← hvalue]
      exact .stop (.inr (by omega))
    · have hc := cached_loaded (A := A) hroom (by omega)
      have hheadA : blockHeadBuf time <+: A.drop (B * it.dwBlockIndex) := by
        refine prefix_cut hhead ?_ (by rw [length_blockHeadBuf, List.length_drop]; omega)
        obtain ⟨Z, hZ⟩ := h.torn
        rw [← hZ, List.drop_append_of_le_length (by omega)]
        exact List.prefix_append _ _
      rw [if_neg h8, checkBlockHead_spec hc (by omega) (by omega) hheadA] at hturn
      have hst : StandsAt B A { loaded B A it with
          stBlockHead := { cMagic := blockheadMagic, dwCreateTime := time }, dwOffset := 8 }
          (place B (endOf B l j) (e.2.length + 6)) :=
        ⟨hs, ⟨hc.real, hc.le, hc.inside, hc.bytes, hc.room⟩, Nat.le_refl 8, Nat.not_lt.mp h8, hplace.symm⟩
      refine .again (hturn.trans (hcont _ rfl)) ?_
      by_cases hin : endOf B l (j + 1) ≤ A.length
      · exact whole_continues h he hst hin
      · exact torn_stops h he hst (Nat.not_le.mp hin)

/-- From the end of a block into the next. -/
theorem next_torn (h : Torn b sys B l A) (hused : it.loadedSize ≤ B) (hroom : B ≤ it.cBlockBuffer.length)
    (hs : it.dwBlockSize = B) (he : l[j]? = some e) (hoff : it.dwOffset = B)
    (hplace : place B (endOf B l j) (e.2.length + 6) = B * (it.dwBlockIndex + 1) + 8) {time : UInt32}
    (hhead : blockHeadBuf time <+: (area B l).drop (B * (it.dwBlockIndex + 1)))
    (hbefore : A.length ≤ B * (it.dwBlockIndex + 1) → stopValue B A.length = 0) :
    TornContinues b sys B l A j it := by
  have hsmall := h.small
  have hsucc := endOf_succ (B := B) he
  have hend := endOf_le (B := B) (l := l) (j + 1)
  have hfit := fits_get h.fits he
  have hidx : u32 (it.dwBlockIndex + 1) = it.dwBlockIndex + 1 := by
    have := Nat.le_mul_of_pos_left it.dwBlockIndex (show 0 < B by omega)
    rw [Nat.mul_succ] at hplace
    exact u32_of_lt (by omega)
  have hnext : preadIndex b it = it.dwBlockIndex + 1 := by
    rw [preadIndex, h.block, if_pos (Nat.le_of_eq hoff.symm), hidx]
  have hturn := @turn_refill it b sys readOk (by omega)
  rw [refill_next_block (by rw [h.block, hoff]), hnext] at hturn
  exact @enter_torn _ _ { it with dwBlockIndex := it.dwBlockIndex + 1 } _ _ _ _ _ _ h _ hroom hs he hplace _ hhead
    hbefore (fun _ _ => rfl) hturn

/-! ## Next -/

/-- From behind record `i`, what `Next` comes to. -/
theorem stands_continues (h : Torn b sys B l A) (hB : 0 < B) (hs : StandsAt B A it (endOf B l i)) :
    TornContinues b sys B l A i it := by
  have hshort := h.short
  have h8 := hs.head
  have hoff := hs.off
  have hpos := hs.pos
  have hin := hs.cached.inside
  have hloaded := hs.loadedSize hshort
  have hpresent : present B A it = min B (A.length - B * it.dwBlockIndex) := rfl
  cases he : l[i]? with
  | none =>
    -- all of the area is there
    have hall : endOf B l i = (area B l).length := by
      rw [endOf, List.take_of_length_le (List.getElem?_eq_none_iff.mp he)]
    have hle := h.torn.length_le
    obtain ⟨it', hturn⟩ := end_stops h hs hB (by omega)
    refine .done hturn ?_
    rw [← stopValue_settled (n := A.length) (B := B)
      (by rw [show A.length = (area B l).length by omega]; exact area_settled h.fits)]
    exact .stop (.inl he)
  | some e =>
    have hfit := fits_get h.fits he
    have hsettled := endOf_settled (i := i) h.fits
    by_cases h0 : endOf B l i % B = 0
    · have hend : it.dwOffset = B := by
        by_contra hne
        rw [← hpos, Nat.mul_add_mod, Nat.mod_eq_of_lt (by omega)] at h0
        omega
      have hblock : endOf B l i = B * (it.dwBlockIndex + 1) := by rw [← hpos, hend, Nat.mul_succ]
      have hhead := head_at he h0
      rw [hblock] at hhead
      refine next_torn h (by omega) hs.cached.room hs.size he hend ?_ hhead fun hA => ?_
      · rw [place, if_pos h0, hblock]
      · apply stopValue_settled
        left
        rw [show A.length = B * (it.dwBlockIndex + 1) by omega, Nat.mul_mod_right]
    · have hlt : it.dwOffset < B := by
        by_contra hge
        rw [← hpos, Nat.mul_add_mod, show it.dwOffset = B by omega, Nat.mod_self] at h0
        exact h0 rfl
      have hmod : endOf B l i % B = it.dwOffset := by rw [← hpos, Nat.mul_add_mod, Nat.mod_eq_of_lt hlt]
      by_cases hp : Pads B (endOf B l i) (e.2.length + 6)
      · obtain ⟨hzero, hhead⟩ := padding_at hB he hp
        have hnext : endOf B l i + (B - it.dwOffset) = B * (it.dwBlockIndex + 1) := by
          rw [Nat.mul_succ]
          omega
        have hplace : place B (endOf B l i) (e.2.length + 6) = B * (it.dwBlockIndex + 1) + 8 := by
          rw [place, if_neg h0, if_pos hp.2, hmod, hnext]
        rw [hmod, hnext] at hhead
        have hvalue (hA : A.length ≤ B * (it.dwBlockIndex + 1)) : stopValue B A.length = 0 := by
          apply stopValue_settled
          by_cases hfull : A.length = B * (it.dwBlockIndex + 1)
          · left
            rw [hfull, Nat.mul_mod_right]
          · right
            rw [Nat.mul_succ] at hA hfull
            rw [show A.length = B * it.dwBlockIndex + (A.length - B * it.dwBlockIndex) by omega, Nat.mul_add_mod,
              Nat.mod_eq_of_lt (by omega)]
            omega
        by_cases hmore : it.dwOffset < present B A it
        · obtain ⟨sys', hlog⟩ := h.log
          have hparse := parse_padding hlog (hs.cached.extend h.torn) hmore (by rw [hpos]; exact hzero)
          refine .again ((turn_parse b sys readOk (by omega)).trans hparse) ?_
          exact @next_torn _ _ { it with dwOffset := B } _ _ _ _ _ h (by show it.loadedSize ≤ B; omega) hs.cached.room
            hs.size he rfl hplace _ hhead hvalue
        · -- the file ends where the padding would begin
          have hsucc := endOf_succ (B := B) he
          rw [Nat.mul_succ] at hplace
          obtain ⟨it', hturn⟩ := end_stops h hs hB (by omega)
          refine .done hturn ?_
          rw [← hvalue (by rw [Nat.mul_succ]; omega)]
          exact .stop (.inr (by omega))
      · have hplace : place B (endOf B l i) (e.2.length + 6) = endOf B l i := by
          rw [place, if_neg h0, if_neg fun hr => hp ⟨h0, hr⟩]
        rw [← hplace] at hs
        by_cases hin : endOf B l (i + 1) ≤ A.length
        · exact whole_continues h he hs hin
        · exact torn_stops h he hs (Nat.not_le.mp hin)

/-- Before the first `Next`. -/
theorem fresh_torn (h : Torn b sys B l A) (hB : 0 < B) (hs : it.dwBlockSize = B) (hroom : B ≤ it.cBlockBuffer.length)
    (hidx : it.dwBlockIndex = 0) (hoff : it.dwOffset = 0) (hreal : it.dwRealSize = 0) :
    TornContinues b sys B l A 0 it := by
  have hused : it.loadedSize ≤ it.dwOffset := by
    rw [BinlogIterator.loadedSize, hreal, hoff]
    exact Nat.le_refl 0
  have hasks : ¬AsksSize b it := fun ha => by
    have := ha.2.2.1
    omega
  have hturn := @turn_refill it b sys readOk hused
  rw [refill_loads hused (by rw [h.block, hoff]; exact hB) hasks] at hturn
  cases l with
  | nil =>
    have hA : A = [] := List.prefix_nil.mp h.torn
    have hnone : present B A it = 0 := by
      rw [present, hA, List.length_nil, Nat.zero_sub]
      exact Nat.min_zero B
    rw [preadBlock_torn h _ hroom (by have := h.small; rw [hidx]; omega), if_pos hnone] at hturn
    refine .done hturn ?_
    have hvalue : stopValue B A.length = 0 := stopValue_settled (.inl (by rw [hA]; exact Nat.zero_mod B))
    rw [← hvalue]
    exact .stop (.inl rfl)
  | cons e l =>
    have he : (e :: l)[0]? = some e := rfl
    have hmod : endOf B (e :: l) 0 % B = 0 := by rw [endOf_zero, Nat.zero_mod]
    have hhead := head_at he hmod
    rw [endOf_zero] at hhead
    refine enter_torn h _ hroom hs he (by simp [place, endOf_zero, hidx]) (by rw [hidx]; exact hhead) ?_ ?_ hturn
    · intro hA
      apply stopValue_settled
      left
      rw [hidx] at hA
      rw [show A.length = 0 by omega, Nat.zero_mod]
    · intro it' h'
      rw [h', hoff]
      rfl

/-- One call of `Next`. -/
theorem torn_next (h : Torn b sys B l A) (hB : 0 < B) (hs : Before B l A it i) :
    ∃ it' v, Returns b sys it it' v ∧ TornResult B l A i it' v := by
  obtain ⟨hc, hsize⟩ : TornContinues b sys B l A i it ∧ it.dwBlockSize = B := by
    obtain ⟨rfl, hs, hroom, hidx, hoff, hreal⟩ | hs := hs
    · exact ⟨fresh_torn h hB hs hroom hidx hoff hreal, hs⟩
    · exact ⟨stands_continues h hB hs, hs.size⟩
  obtain ⟨it', v, hr, hn⟩ := hc
  exact ⟨it', v, hr.returns (Nat.le_of_eq (by rw [h.block, hsize])), hn⟩

/-! ## All records -/

theorem le_place {n r : Nat} : n ≤ place B n r := by
  unfold place
  split
  · exact Nat.le_add_right n 8
  · split <;> omega

/-- The first record ends before the others do. -/
theorem entries_end {n : Nat} {x : Bytes × Int} (hx : x ∈ entries (e :: m) (offsets B n (payloads (e :: m)))) :
    ((4096 + (place B n (e.2.length + 6) + (e.2.length + 6)) : Nat) : Int) ≤ x.2 + (x.1.length + 6) := by
  induction m generalizing e n with
  | nil =>
    cases List.mem_singleton.mp hx
    simp only [Nat.cast_add, Nat.cast_ofNat]
    omega
  | cons e' m ih =>
    cases hx with
    | head =>
      simp only [Nat.cast_add, Nat.cast_ofNat]
      omega
    | tail _ hx =>
      have h' := ih hx
      have := le_place (B := B) (n := place B n (e.2.length + 6) + (e.2.length + 6)) (r := e'.2.length + 6)
      omega

/-- The whole records that are left, and the end. -/
theorem iterates_torn (h : Torn b sys B (l ++ m) A) (hB : 0 < B) (hs : Before B (l ++ m) A it l.length) :
    ∃ it' it'', Iterates b sys it
        ((entries m (offsets B (area B l).length (payloads m))).filter (Complete (4096 + A.length))) it' ∧
      Returns b sys it' it'' (stopValue B A.length) := by
  induction m generalizing l it with
  | nil =>
    obtain ⟨it', v, hr, hn⟩ := torn_next h hB hs
    cases hn with
    | record he => simp at he
    | stop => exact ⟨it, it', .nil, hr⟩
  | cons e m ih =>
    have hget : (l ++ e :: m)[l.length]? = some e := by simp
    have hend := endOf_succ (B := B) hget
    rw [endOf_append_length] at hend
    obtain ⟨it', v, hr, hn⟩ := torn_next h hB hs
    cases hn with
    | record he hin hp hsz ho hst =>
      cases hget.symm.trans he
      have hl : l ++ e :: m = (l ++ [e]) ++ m := by simp
      rw [hl] at h hst
      obtain ⟨it₁, it₂, hi, hz⟩ := ih h (.inr (by rwa [List.length_append]))
      rw [length_area_concat] at hi
      rw [endOf_append_length] at ho
      refine ⟨it₁, it₂, ?_, hz⟩
      have hcomplete : Complete (4096 + A.length)
          (e.2, ((4096 + place B (area B l).length (e.2.length + 6) : Nat) : Int)) := by
        show ((4096 + place B (area B l).length (e.2.length + 6) : Nat) : Int) + (e.2.length + 6) ≤ _
        omega
      rw [entries, payloads, List.map_cons, offsets, List.zip_cons_cons,
        List.filter_cons_of_pos (by simpa using hcomplete)]
      exact .cons hr hp hsz (by rw [ho]) hi
    | stop hi =>
      rw [hget] at hi
      have hcut := hi.resolve_left (Option.some_ne_none e)
      refine ⟨it, it', ?_, hr⟩
      rw [List.filter_eq_nil_iff.mpr]
      · exact .nil
      · intro x hx hin
        have hlast := entries_end hx
        have hin := of_decide_eq_true hin
        unfold Complete at hin
        omega

theorem before_getIterator (h : Torn b sys B l A) (mem : Nat → UInt8) : Before B l A (getIterator b mem) 0 :=
  .inl ⟨rfl, h.block, by simp [getIterator, h.block], rfl, rfl, rfl⟩

/-- An iterator over a torn log. -/
theorem iterates_cut (h : Torn b sys B l A) (mem : Nat → UInt8) :
    ∃ it it', Iterates b sys (getIterator b mem)
        ((entries l (offsets B 0 (payloads l))).filter (Complete (4096 + A.length))) it ∧
      Returns b sys it it' (stopValue B A.length) := by
  by_cases hB : 0 < B
  · exact iterates_torn (l := []) h hB (before_getIterator h mem)
  · obtain rfl : B = 0 := by omega
    obtain rfl := no_entries h.fits
    have hA : A = [] := List.prefix_nil.mp h.torn
    obtain ⟨app, head, hh⟩ := h.handle
    rw [hA] at hh ⊢
    have hlog : Log b sys 0 [] := ⟨⟨app, head, hh⟩, h.fits, by decide⟩
    obtain ⟨it', hr, -⟩ := next_no_blocks (getIterator b mem) hlog hlog.block rfl rfl
    exact ⟨_, it', .nil, hr⟩

/-- A log is written and its file cut off at `n` bytes: who opens it then reads the records that are
whole, with their offsets, and comes to an end. -/
theorem torn_reads (b₀ b₁ : Binlog) (sys₀ : Sys) {fd fd' : Int} (hfd : fd ≠ -1) (hfd' : fd' ≠ -1) (B time : UInt32)
    (hB : B.toNat < 2 ^ 31) {l : List Entry} (hl : Fits B.toNat l) (stale mem : Nat → UInt8) :
    ∃ b sys sys' offs, createLog b₀ sys₀ ⟨some fd, true, time, .full⟩ B = (b, sys, 0) ∧
      writeAll b sys l = some (sys', offs) ∧ offs.length = l.length ∧
      (sys'.data.length + B.toNat < 2 ^ 32 → ∀ n, headSize ≤ n → n ≤ sys'.data.length →
        ∀ left, left.data = sys'.data.take n →
          ∃ b' left', openLog b₁ left ⟨some fd', .full, stale⟩ = (b', left', 0) ∧ ∃ it it',
            Iterates b' left' (getIterator b' mem) ((entries l offs).filter (Complete n)) it ∧
              Returns b' left' it it' (stopValue B.toNat (n - headSize))) := by
  obtain ⟨b, sys, hc, h, -⟩ := createLog_spec b₀ sys₀ hfd B time
  obtain ⟨sys', hw, h'⟩ := writeAll_spec (l := []) h hl (by simp)
  rw [List.nil_append] at h'
  refine ⟨b, sys, sys', _, hc, hw, by rw [length_offsets, length_payloads], fun hs n hhead hn left hleft => ?_⟩
  have hlen : (fileHeadBuf (newHead B time)).length = 4096 := length_fileHeadBuf rfl
  have h4096 : headSize = 4096 := rfl
  rw [h'.data, List.length_append, h'.head] at hs hn
  have hdata : left.data = fileHeadBuf (newHead B time) ++ (area B.toNat l).take (n - 4096) := by
    rw [hleft, h'.data, List.take_append, hlen, List.take_of_length_le (by omega)]
  obtain ⟨b', left', ho, hh, -⟩ := openLog_spec b₁ left hfd' hdata stale
  have htorn : Torn b' left' B.toNat l ((area B.toNat l).take (n - 4096)) :=
    ⟨⟨true, _, hh⟩, List.take_prefix _ _, hl, hs, hB⟩
  have hA : ((area B.toNat l).take (n - 4096)).length = n - 4096 := by
    rw [List.length_take, Nat.min_eq_left (by omega)]
  obtain ⟨it, it', hi, hr⟩ := iterates_cut htorn mem
  rw [hA, show 4096 + (n - 4096) = n by omega] at hi
  rw [hA] at hr
  exact ⟨b', left', ho, it, it', hi, hr⟩

/-- The second of two records, cut off in its payload. -/
theorem torn_reads_half : ∃ b sys sys', createLog unopened noFile ⟨some 3, true, 9, .full⟩ 32 = (b, sys, 0) ∧
    writeAll b sys [(1, [7]), (2, [8, 9])] = some (sys', [4104, 4111]) ∧
    ∀ left, left.data = sys'.data.take 4117 →
      ∃ b' left', openLog unopened left ⟨some 3, .full, fun _ => 0⟩ = (b', left', 0) ∧ ∃ it it',
        Iterates b' left' (getIterator b' fun _ => 0) [([7], 4104)] it ∧ Returns b' left' it it' 0 := by
  have hl : Fits (32 : UInt32).toNat [(1, [7]), (2, [8, 9])] := by decide
  obtain ⟨b, sys, sys', offs, hc, hw, -, hread⟩ :=
    torn_reads unopened unopened noFile (show (3 : Int) ≠ -1 by decide) (show (3 : Int) ≠ -1 by decide) 32 9
      (by decide) hl (fun _ => 0) fun _ => 0
  obtain ⟨b₁, sys₁, hc₁, h, -⟩ := createLog_spec unopened noFile (show (3 : Int) ≠ -1 by decide) 32 9
  cases hc.symm.trans hc₁
  obtain ⟨sys₂, hw₂, h'⟩ := writeAll_spec (l := []) h hl (by simp)
  cases hw.symm.trans hw₂
  have hlen : sys'.data.length = 4119 := by
    rw [h'.data, List.length_append, h'.head]
    decide
  refine ⟨b, sys, sys', hc, hw, fun left hleft => ?_⟩
  obtain ⟨b', left', ho, it, it', hi, hr⟩ := hread (by rw [hlen]; decide) 4117 (by decide) (by omega) left hleft
  have hwhole : (entries [(1, [7]), (2, [8, 9])] [4104, 4111]).filter (Complete 4117) = [([7], 4104)] := by decide
  have hstop : stopValue (32 : UInt32).toNat (4117 - headSize) = 0 := by decide
  exact ⟨b', left', ho, it, it', hwhole ▸ hi, hstop ▸ hr⟩

end SimpleSvr.L3.Binlog
