import SimpleSvr.L1Encoding.IOBufferCodec
import SimpleSvr.L3Storage.BinlogLayout

/-!
# The block cache as bytes

What `pread`, the block head check and `parseLog` do, as functions of the bytes
that are in the cache (`preadBlock_eq`, `checkBlockHead_eq`, `parseLog_eq`).
The cursor of an `IOBuffer` over the cache is then gone, and with it the memory
behind the loaded bytes.
-/
namespace SimpleSvr.L3.Binlog
open L1

/-! ## Machine integers -/

theorem toInt32_lt {n : Nat} (h : n < 2 ^ 31) : toInt32 n = n := by
  unfold toInt32
  omega

theorem toInt32_ge {n : Nat} (h : 2 ^ 31 ≤ n) (h' : n < 2 ^ 32) : toInt32 n = (n : Int) - 2 ^ 32 := by
  unfold toInt32
  omega

theorem ofInt32_toInt32 {n : Nat} (h : n < 2 ^ 32) : ofInt32 (toInt32 n) = n := by
  unfold ofInt32 toInt32
  omega

theorem ofInt_natCast (n : Nat) : UInt64.ofInt n = UInt64.ofNat n := by
  apply UInt64.toNat_inj.mp
  rw [UInt64.ofInt, UInt64.toNat_ofNat', UInt64.toNat_ofNat']
  omega

theorem u32_of_lt {n : Nat} (h : n < 2 ^ 32) : u32 n = n := Nat.mod_eq_of_lt h

variable {b : Binlog} {sys : Sys} {io : ReadCalls} {it : BinlogIterator}
variable {got rest extra : Bytes} {c : UInt8} {k : Nat}

/-! ## Reads at the front of the cache -/

theorem toNat_word {l : Bytes} (hl : l.length = 4) : (UInt32.ofNat (ofBe l)).toNat = ofBe l := by
  have hlt := ofBe_lt l
  rw [hl] at hlt
  rw [UInt32.toNat_ofNat']
  exact Nat.mod_eq_of_lt (by omega)

theorem getUInt32_behind (h4 : 4 ≤ rest.length) (hlt : rest.length < 2 ^ 32) :
    (IOBuffer.reading [c] rest extra).getUInt32 =
      .ok (IOBuffer.reading (c :: rest.take 4) (rest.drop 4) extra, UInt32.ofNat (ofBe (rest.take 4))) := by
  have hlen : (rest.take 4).length = 4 := by simp; omega
  have hword : be 4 (UInt32.ofNat (ofBe (rest.take 4))).toNat = rest.take 4 := by
    rw [toNat_word hlen]
    exact be_ofBe_len hlen
  have h2 := @IOBuffer.getUInt32_reading [c] (rest.drop 4) extra (UInt32.ofNat (ofBe (rest.take 4)))
    (by simp; omega)
  rwa [hword, List.take_append_drop] at h2

theorem getLogHead_front (h4 : 4 ≤ rest.length) (hlt : rest.length < 2 ^ 32) :
    getLogHead (IOBuffer.reading [] (c :: rest) extra) =
      .ok (IOBuffer.reading (c :: rest.take 4) (rest.drop 4) extra, UInt32.ofNat (ofBe (rest.take 4))) := by
  have h1 := @IOBuffer.getUInt8_reading [] rest extra c (by simp; omega)
  exact (except_bind_ok _ h1).trans (getUInt32_behind h4 hlt)

theorem getBlockHead_front (h4 : 4 ≤ rest.length) (hlt : rest.length < 2 ^ 32) :
    getBlockHead (IOBuffer.reading [] (c :: rest) extra) =
      .ok { cMagic := c, dwCreateTime := UInt32.ofNat (ofBe (rest.take 4)) } := by
  have h1 := @IOBuffer.getUInt8_reading [] rest extra c (by simp; omega)
  exact (except_bind_ok _ h1).trans (except_bind_ok _ (getUInt32_behind h4 hlt))

/-- `>> cMagicE`, behind `k` bytes. -/
theorem getUInt8_inside {pre : Bytes} (extra : Bytes) {e : UInt8} (he : rest[k]? = some e)
    (hs : pre.length + rest.length < 2 ^ 64) :
    ∃ io', ((IOBuffer.reading pre rest extra).readSeek (UInt64.ofNat k)).getUInt8 = .ok (io', e) := by
  obtain ⟨hk, rfl⟩ := List.getElem?_eq_some_iff.mp he
  have hlen : (rest.take k).length = k := by simp; omega
  have hsplit : rest.take k ++ rest[k] :: rest.drop (k + 1) = rest := by
    rw [← List.drop_eq_getElem_cons hk, List.take_append_drop]
  have hseek := @IOBuffer.readSeek_reading pre (rest[k] :: rest.drop (k + 1)) extra (rest.take k)
    (by rw [hsplit]; exact hs)
  rw [hlen, hsplit] at hseek
  have hget := @IOBuffer.getUInt8_reading (pre ++ rest.take k) (rest.drop (k + 1)) extra rest[k]
    (by simp; omega)
  exact ⟨_, by rw [hseek, hget]⟩

theorem getUInt8_past {pre : Bytes} (hk : rest.length ≤ k) (hs : pre.length + rest.length + k < 2 ^ 63) :
    ((IOBuffer.reading pre rest extra).readSeek (UInt64.ofNat k)).getUInt8 = .error .noSpaceToRead := by
  have hshort := @IOBuffer.get_short (pre ++ rest) [] extra 1 (by simp) (by simp; omega)
  rw [IOBuffer.readSeek_clamped hk (by omega), IOBuffer.getUInt8, hshort]
  rfl

/-! ## Reading a block -/

/-- The iterator after `pread` gave `got`. -/
def fill (it : BinlogIterator) (got : Bytes) : BinlogIterator :=
  { it with cBlockBuffer := got ++ it.cBlockBuffer.drop got.length, dwRealSize := toInt32 got.length }

/-- `preadBlock`, by the bytes that `pread` gave. -/
theorem preadBlock_eq (cont : BinlogIterator → Turn)
    (hgot : sys.pread b.fdBinlog io.pread b.stHead.dwBlockSize.toNat (blockOffset b it.dwBlockIndex) = some got)
    (hroom : got.length ≤ it.cBlockBuffer.length) (hlt : got.length < 2 ^ 32) :
    preadBlock b sys io it cont =
      if got.length = 0 then .done (.ret (fill it got) 0)
      else if got.length < 8 ∨ 2 ^ 31 ≤ got.length then .done (.ret (fill it got) (-1))
      else cont (fill it got) := by
  have hsz : ((blockheadSize : Nat) : Int) = 8 := rfl
  have hzero : toInt32 got.length = 0 ↔ got.length = 0 := by unfold toInt32; omega
  have hshort : toInt32 got.length < 8 ↔ got.length < 8 ∨ 2 ^ 31 ≤ got.length := by unfold toInt32; omega
  unfold preadBlock
  simp only [hgot, hsz]
  rw [if_neg (Nat.not_lt.mpr hroom)]
  show (if toInt32 got.length = -1 then Turn.done (.ret (fill it got) (-1))
    else if toInt32 got.length = 0 then .done (.ret (fill it got) 0)
    else if toInt32 got.length < 8 then .done (.ret (fill it got) (-1))
    else cont (fill it got)) = _
  simp only [hzero, hshort]
  by_cases h1 : toInt32 got.length = -1
  · have hneg : 2 ^ 31 ≤ got.length := by
      unfold toInt32 at h1
      omega
    rw [if_pos h1, if_neg (by omega), if_pos (.inr hneg)]
  · rw [if_neg h1]

theorem checkBlockHead_eq {head : BinlogBlockHead} (cont : BinlogIterator → Turn)
    (hbuf : it.cBlockBuffer = got ++ extra) (hreal : it.dwRealSize = got.length)
    (hhead : getBlockHead (IOBuffer.reading [] got extra) = .ok head) :
    checkBlockHead b it cont =
      if head.cMagic ≠ blockheadMagic then .again (skipBlock b { it with stBlockHead := head })
      else cont { it with stBlockHead := head } := by
  unfold checkBlockHead
  simp only [hreal, ofInt_natCast, hbuf, IOBuffer.new_reading got extra, hhead]

/-! ## Parsing -/

/-- The iterator once a length field of `x` was accepted. -/
def accepted (b : Binlog) (it : BinlogIterator) (x : Nat) : BinlogIterator :=
  { it with
    dwLogSize := x
    cLogBuffer := it.dwOffset + 5
    dwLogOffset := u32 (blockOffset b it.dwBlockIndex + it.dwOffset) }

/-- `parseLog` as a function of the loaded bytes from `dwOffset` on: `c`, and `rest` behind it. -/
def parsed (b : Binlog) (it : BinlogIterator) (c : UInt8) (rest : Bytes) : Turn :=
  let x := ofBe (rest.take 4)
  if c ≠ smagic ∨ rest.length < 5 ∨ rest.length + 1 < u32 (6 + x) then .again (skipBlock b it)
  else
    match (rest.drop 4)[x]? with
    | none => .done (.throws (accepted b it x))
    | some e =>
      if e ≠ emagic then .again (skipBlock b (accepted b it x))
      else
        .done (.ret { accepted b it x with dwOffset := u32 (it.dwOffset + u32 (6 + x)) } (toInt32 (u32 (x + 6))))

theorem takeLog_eq {pre : Bytes} {x : UInt32} (hs : pre.length + rest.length < 2 ^ 32) :
    takeLog b it (IOBuffer.reading pre rest extra) x =
      match rest[x.toNat]? with
      | none => .done (.throws it)
      | some e =>
        if e ≠ emagic then .again (skipBlock b it)
        else .done (.ret { it with dwOffset := u32 (it.dwOffset + u32 (6 + x.toNat)) }
          (toInt32 (u32 (it.dwLogSize + 6)))) := by
  have hx := x.toNat_lt
  unfold takeLog
  cases he : rest[x.toNat]? with
  | none => rw [getUInt8_past (List.getElem?_eq_none_iff.mp he) (by omega)]; rfl
  | some e =>
    obtain ⟨io', hio'⟩ := getUInt8_inside extra he (show pre.length + rest.length < 2 ^ 64 by omega)
    rw [hio']

theorem parseLog_eq (hbuf : it.cBlockBuffer.drop it.dwOffset = c :: rest ++ extra)
    (hsize : logBuffSize it = rest.length + 1) (hlt : rest.length + 1 < 2 ^ 32) :
    parseLog b it = parsed b it c rest := by
  have hc : it.cBlockBuffer[it.dwOffset]? = some c := by
    have h0 : (it.cBlockBuffer.drop it.dwOffset)[0]? = some c := by simp [hbuf]
    rwa [List.getElem?_drop, Nat.add_zero] at h0
  unfold parseLog parsed
  simp only [hc, hsize]
  by_cases hs : c = smagic
  · by_cases h5 : rest.length < 5
    · simp [hs, h5, show rest.length + 1 < 6 by omega]
    · have hlen : (rest.take 4).length = 4 := by simp; omega
      have hx := toNat_word hlen
      have hbuf' : logBuf it = IOBuffer.reading [] (c :: rest) extra := by
        rw [logBuf, hbuf, hsize]
        exact IOBuffer.new_reading (c :: rest) extra
      have hpos : (IOBuffer.reading (c :: rest.take 4) (rest.drop 4) extra).readPosition.toNat = 5 := by
        simp only [IOBuffer.reading, List.length_cons, hlen]
        rfl
      rw [hbuf', getLogHead_front (by omega) (by omega)]
      simp only [hx]
      rw [takeLog_eq (by simp; omega), hx, setLog, hpos, hx]
      simp [hs, h5, show ¬rest.length + 1 < 6 by omega, accepted]
  · simp [hs]

/-- A record in front of other bytes. -/
theorem parsed_record {p mid : Bytes} (b : Binlog) (it : BinlogIterator) (hlt : p.length + 6 + mid.length < 2 ^ 32) :
    parsed b it smagic (be 4 p.length ++ (p ++ emagic :: mid)) =
      .done (.ret { accepted b it p.length with dwOffset := u32 (it.dwOffset + u32 (6 + p.length)) }
        (toInt32 (u32 (p.length + 6)))) := by
  have hfield : ofBe ((be 4 p.length ++ (p ++ emagic :: mid)).take 4) = p.length := by
    rw [List.take_left' (length_be 4 _), ofBe_be, Nat.mod_eq_of_lt (by omega)]
  have hend : ((be 4 p.length ++ (p ++ emagic :: mid)).drop 4)[p.length]? = some emagic := by
    rw [List.drop_left' (length_be 4 _)]
    simp
  have h6 : u32 (6 + p.length) = 6 + p.length := u32_of_lt (by omega)
  have hfits : ¬(smagic ≠ smagic ∨ (be 4 p.length ++ (p ++ emagic :: mid)).length < 5 ∨
      (be 4 p.length ++ (p ++ emagic :: mid)).length + 1 < u32 (6 + p.length)) := by
    rw [h6]
    simp
    omega
  simp only [parsed, hfield, hend]
  rw [if_neg hfits]
  simp

end SimpleSvr.L3.Binlog
