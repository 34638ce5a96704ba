import SimpleSvr.L3Storage.BinlogRobust
import SimpleSvr.L3Storage.BinlogRoundTrip

/-!
# Reading from an offset

`GetIterator(offset)` takes the offset that `Write` returned apart into a block
and a place in it. The block is loaded by the first `Next`, which checks its head
and leaves the place as it is. `seek_agrees`: from the offset of a record on,
`Next` returns what a scan of the whole log returns from there.
-/
namespace SimpleSvr.L3.Binlog

variable {b : Binlog} {sys : Sys} {B i n : Nat} {l : List Entry} {e : Entry} {it₀ : BinlogIterator}
  {off : Int}

/-! ## Block heads -/

/-- What comes `k` bytes behind a boundary is in the block that begins there. -/
theorem mul_div_boundary {k : Nat} (hn : n % B = 0) (hk : k < B) : B * ((n + k) / B) = n := by
  have hdiv := Nat.div_add_mod (n + k) B
  rw [add_mod_of_zero hn hk] at hdiv
  omega

/-- A record that does not end its block ends in the block where it starts. -/
theorem end_block (hl : Fits B l) (he : l[i]? = some e) (h0 : endOf B l (i + 1) % B ≠ 0) :
    endOf B l (i + 1) / B = place B (endOf B l i) (e.2.length + 6) / B := by
  have hfit := fits_get hl he
  have hsucc := endOf_succ (B := B) he
  obtain ⟨-, hend⟩ := place_fits (n := endOf B l i) (r := e.2.length + 6) (by omega) (by omega) (endOf_settled hl)
  have hdiv := Nat.div_add_mod (place B (endOf B l i) (e.2.length + 6)) B
  have hsplit : endOf B l (i + 1) = B * (place B (endOf B l i) (e.2.length + 6) / B) +
      (place B (endOf B l i) (e.2.length + 6) % B + (e.2.length + 6)) := by omega
  have hlt : place B (endOf B l i) (e.2.length + 6) % B + (e.2.length + 6) < B := by
    apply Nat.lt_of_le_of_ne hend
    intro heq
    rw [hsplit, heq, Nat.mul_add_mod, Nat.mod_self] at h0
    exact h0 rfl
  rw [hsplit, Nat.mul_add_div (by omega), Nat.div_eq_of_lt hlt, Nat.add_zero]

/-- The block where a record starts begins with a block head. -/
theorem block_head (hl : Fits B l) (he : l[i]? = some e) :
    ∃ time, blockHeadBuf time <+: (area B l).drop (B * (place B (endOf B l i) (e.2.length + 6) / B)) := by
  induction i generalizing e with
  | zero =>
    have hfit := fits_get hl he
    have h0 : endOf B l 0 % B = 0 := by rw [endOf_zero, Nat.zero_mod]
    rw [place, if_pos h0, mul_div_boundary h0 (by omega)]
    exact ⟨e.1, head_at he h0⟩
  | succ i ih =>
    have hfit := fits_get hl he
    by_cases h0 : endOf B l (i + 1) % B = 0
    · rw [place, if_pos h0, mul_div_boundary h0 (by omega)]
      exact ⟨e.1, head_at he h0⟩
    · by_cases hp : Pads B (endOf B l (i + 1)) (e.2.length + 6)
      · rw [place, if_neg h0, if_pos hp.2, mul_div_boundary (boundary_mod B _ (by omega)) (by omega)]
        exact ⟨e.1, (padding_at (by omega) he hp).2⟩
      · -- the record before is in the same block
        have hlt : i + 1 < l.length := (List.getElem?_eq_some_iff.mp he).1
        have he' : l[i]? = some l[i] := List.getElem?_eq_getElem (by omega)
        rw [place, if_neg h0, if_neg fun hr => hp ⟨h0, hr⟩, end_block hl he' h0]
        exact ih he'

/-! ## The first record -/

/-- An iterator at record `i`, with nothing loaded. -/
structure SeekedTo (B : Nat) (l : List Entry) (it : BinlogIterator) (i : Nat) (e : Entry) : Prop where
  entry : l[i]? = some e
  size : it.dwBlockSize = B
  room : B ≤ it.cBlockBuffer.length
  real : it.dwRealSize = 0
  index : it.dwBlockIndex = place B (endOf B l i) (e.2.length + 6) / B
  off : it.dwOffset = place B (endOf B l i) (e.2.length + 6) % B

variable {it : BinlogIterator}

theorem seekedTo_getIteratorAt (hlog : Log b sys B l) (he : l[i]? = some e) (mem : Nat → UInt8) :
    SeekedTo B l (getIteratorAt b mem ((4096 + place B (endOf B l i) (e.2.length + 6) : Nat) : Int)) i e := by
  have hsucc := endOf_succ (B := B) he
  have hend := endOf_le (B := B) (l := l) (i + 1)
  have hsmall := hlog.small
  obtain ⟨app, head, hh⟩ := hlog.handle
  generalize hpos : place B (endOf B l i) (e.2.length + 6) = pos at hsucc ⊢
  have hge : ¬((4096 + pos : Nat) : Int) < (b.stHead.wDataOffset.toNat : Int) := by
    rw [hh.offset]
    omega
  have hsub : (((4096 + pos : Nat) : Int) - (b.stHead.wDataOffset.toNat : Int)).toNat = pos := by
    rw [hh.offset]
    omega
  have hdiv : u32 (pos / B) = pos / B := u32_of_lt (Nat.lt_of_le_of_lt (Nat.div_le_self pos B) (by omega))
  have hmod : u32 (pos % B) = pos % B := u32_of_lt (Nat.lt_of_le_of_lt (Nat.mod_le pos B) (by omega))
  simp only [getIteratorAt, if_neg hge, hsub, hh.block, hdiv, hmod]
  exact ⟨he, hh.block, by simp [getIterator, hh.block], rfl, congrArg (· / B) hpos.symm, congrArg (· % B) hpos.symm⟩

/-- The first `Next` loads the block and returns the record. -/
theorem seeked_continues (hlog : Log b sys B l) (h : SeekedTo B l it i e)
    (hshort : min B (area B l).length < 2 ^ 31) : Continues b sys B l i it₀ it := by
  have he := h.entry
  have hfit := fits_get hlog.fits he
  obtain ⟨h8, hend⟩ := place_fits (n := endOf B l i) (r := e.2.length + 6) (by omega) (by omega)
    (endOf_settled hlog.fits)
  rw [← h.off] at h8 hend
  have hpos : place B (endOf B l i) (e.2.length + 6) = B * it.dwBlockIndex + it.dwOffset := by
    rw [h.index, h.off, Nat.div_add_mod]
  obtain ⟨time, hhead⟩ := block_head hlog.fits he
  rw [← h.index] at hhead
  obtain ⟨it', hread, hc⟩ := enter_block it
    (fun it => .again { it with dwOffset := if it.dwOffset < blockheadSize then blockheadSize else it.dwOffset })
    hlog h.room h.size he hpos (by omega) hhead (by omega) (fun it' hoff => by
      rw [if_neg (show ¬it'.dwOffset < blockheadSize by rw [hoff]; exact Nat.not_lt.mpr h8), hoff])
  have hturn : turn b sys readOk it = refill b sys readOk it := by
    unfold turn
    rw [h.real]
    exact if_pos (Nat.zero_le _)
  exact .again (hturn.trans ((refill_load hlog (by omega) (Int.le_of_eq h.real)).trans hread)) hc

/-! ## The rest -/

variable {m : List Entry}

/-- From the offset of record `e` on, all that is left is returned, and then 0. -/
theorem iterates_from (hlog : Log b sys B (l ++ e :: m)) (hshort : min B (area B (l ++ e :: m)).length < 2 ^ 31)
    (mem : Nat → UInt8) :
    ∃ it it', Iterates b sys (getIteratorAt b mem ((4096 + place B (area B l).length (e.2.length + 6) : Nat) : Int))
        (entries (e :: m) (offsets B (area B l).length (payloads (e :: m)))) it ∧ Returns b sys it it' 0 := by
  have hget : (l ++ e :: m)[l.length]? = some e := by simp
  have hfit := fits_get hlog.fits hget
  have hseek := seekedTo_getIteratorAt hlog hget mem
  rw [endOf_append_length] at hseek
  have hcont : Continues b sys B (l ++ e :: m) l.length (getIterator b mem) _ := seeked_continues hlog hseek hshort
  obtain ⟨it₁, v, hr, hn⟩ := hcont
  obtain ⟨rfl, hp, hs, ho, hg⟩ := next_record hlog hshort hn
  have hr := hr.returns (Nat.le_of_eq (by rw [hlog.block, hseek.size]))
  have hl : l ++ e :: m = (l ++ [e]) ++ m := by simp
  rw [hl] at hlog hshort hg
  obtain ⟨it, hi, hg'⟩ := iterates_rest hlog (by omega) hshort (by rwa [List.length_append])
  obtain ⟨it', hz⟩ := returns_zero hlog (by omega) hshort hg'
  rw [length_area_concat] at hi
  exact ⟨it, it', .cons hr hp hs (by rw [ho]) hi, hz⟩

/-- What is left of a log behind its first `i` records. -/
theorem entries_drop (l m : List Entry) :
    (entries (l ++ m) (offsets B 0 (payloads (l ++ m)))).drop l.length =
      entries m (offsets B (area B l).length (payloads m)) := by
  have hend : endAt B 0 (payloads l) = (area B l).length := (length_area_append [] l).symm
  have hlen : (payloads l).length = (offsets B 0 (payloads l)).length := (length_offsets B 0 _).symm
  rw [payloads_append, offsets_append, hend, entries, payloads_append, List.zip_append hlen]
  apply List.drop_left'
  simp [length_offsets]

theorem offsets_get (l m : List Entry) (e : Entry) :
    (offsets B 0 (payloads (l ++ e :: m)))[l.length]? =
      some ((4096 + place B (area B l).length (e.2.length + 6) : Nat) : Int) := by
  have hend : endAt B 0 (payloads l) = (area B l).length := (length_area_append [] l).symm
  have hlen : (offsets B 0 (payloads l)).length = l.length := by rw [length_offsets, length_payloads]
  rw [payloads_append, offsets_append, hend, List.getElem?_append_right (Nat.le_of_eq hlen), hlen, Nat.sub_self]
  rfl

/-- A scan returns what was written with the offsets that `Write` returned; from any of these offsets on,
`Next` returns the rest of that scan, and then 0. -/
theorem seek_agrees (b₀ : Binlog) (sys₀ : Sys) {fd : Int} (hfd : fd ≠ -1) (B time : UInt32)
    (hB : B.toNat < 2 ^ 31) {l : List Entry} (hl : Fits B.toNat l) (mem : Nat → UInt8) :
    ∃ b sys sys' offs, createLog b₀ sys₀ ⟨some fd, true, time, .full⟩ B = (b, sys, 0) ∧
      writeAll b sys l = some (sys', offs) ∧ offs.length = l.length ∧
      (sys'.data.length < 2 ^ 32 →
        (∃ it it', Iterates b sys' (getIterator b mem) (entries l offs) it ∧ Returns b sys' it it' 0) ∧
        ∀ i o, offs[i]? = some o →
          ∃ it it', Iterates b sys' (getIteratorAt b mem o) ((entries l offs).drop i) it ∧
            Returns b sys' it it' 0) := by
  obtain ⟨b, sys, hc, h, -⟩ := createLog_spec b₀ sys₀ hfd B time
  obtain ⟨sys', hw, h'⟩ := writeAll_spec (l := []) h hl (by simp)
  refine ⟨b, sys, sys', _, hc, hw, by rw [length_offsets, length_payloads], fun hs => ?_⟩
  have hlog : Log b sys' B.toNat l := h'.log hl hs
  have hshort : min B.toNat (area B.toNat l).length < 2 ^ 31 := Nat.lt_of_le_of_lt (Nat.min_le_left _ _) hB
  refine ⟨iterates_all hlog hshort mem, fun i o ho => ?_⟩
  have hi : i < l.length := by
    have hlt := (List.getElem?_eq_some_iff.mp ho).1
    rwa [length_offsets, length_payloads] at hlt
  obtain ⟨l₁, e, m, rfl, rfl⟩ : ∃ l₁ e m, l = l₁ ++ e :: m ∧ l₁.length = i :=
    ⟨l.take i, l[i], l.drop (i + 1), by rw [List.getElem_cons_drop, List.take_append_drop],
      List.length_take_of_le (Nat.le_of_lt hi)⟩
  obtain rfl := Option.some.inj ((offsets_get l₁ m e).symm.trans ho)
  have hdrop := entries_drop (B := B.toNat) l₁ (e :: m)
  obtain ⟨it, it', hiter, hz⟩ := iterates_from hlog hshort mem
  exact ⟨it, it', hdrop ▸ hiter, hz⟩

/-- Three records in blocks of 32 bytes; the last of them is behind a gap and a head. -/
theorem seek_agrees_third : ∃ b sys sys' it it',
    createLog unopened noFile ⟨some 3, true, 9, .full⟩ 32 = (b, sys, 0) ∧
    writeAll b sys [(1, [smagic, emagic]), (2, []), (3, [5, 6, 7, 8, 9])] = some (sys', [4104, 4112, 4136]) ∧
    Iterates b sys' (getIteratorAt b (fun _ => 0) 4136) [([5, 6, 7, 8, 9], 4136)] it ∧ Returns b sys' it it' 0 := by
  have hl : Fits (32 : UInt32).toNat [(1, [smagic, emagic]), (2, []), (3, [5, 6, 7, 8, 9])] := by decide
  obtain ⟨b, sys, sys', offs, hc, hw, -, hread⟩ :=
    seek_agrees unopened noFile (show (3 : Int) ≠ -1 by decide) 32 9 (by decide) hl fun _ => 0
  obtain ⟨b₁, sys₁, hc₁, h, -⟩ := createLog_spec unopened noFile (show (3 : Int) ≠ -1 by decide) 32 9
  cases hc.symm.trans hc₁
  obtain ⟨sys₂, hw₂, h'⟩ := writeAll_spec (l := []) h hl (by simp)
  cases hw.symm.trans hw₂
  obtain ⟨-, hseek⟩ := hread (by rw [h'.data, List.length_append, h'.head]; decide)
  obtain ⟨it, it', hi, hr⟩ := hseek 2 4136 (by decide)
  exact ⟨b, sys, sys', it, it', hc, hw, hi, hr⟩

end SimpleSvr.L3.Binlog
