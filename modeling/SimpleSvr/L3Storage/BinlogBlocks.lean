import SimpleSvr.L3Storage.BinlogErrors

/-!
# The blocks of a file

`Next` computes the place of a block, `wDataOffset + dwBlockSize * dwBlockIndex`,
in `uint32_t` before it becomes an `off_t`. What a turn does that reads a block,
or loads once more the block it is in, is stated here on a file that stays as it
is (`turn_visits`, `turn_asks`).

`turns_end`: on a file that ends where these offsets do not wrap, every call of
`Next` ends. Each turn leaves fewer blocks to read, or less to do in the one that
was read.
-/
namespace SimpleSvr.L3.Binlog
open L1

/-! ## Offsets -/

/-- Where block `k` is in the file. -/
def blockStart (b : Binlog) (k : Nat) : Nat := b.stHead.wDataOffset.toNat + b.stHead.dwBlockSize.toNat * k

/-- The turn reads a block into the cache. To reload the block under the cursor is no new visit. -/
def VisitsBlock (b : Binlog) (it : BinlogIterator) : Prop := it.loadedSize ≤ it.dwOffset ∧ ¬AsksSize b it

instance (b : Binlog) (it : BinlogIterator) : Decidable (VisitsBlock b it) := inferInstanceAs (Decidable (_ ∧ _))

/-- The last block that starts below 2^32. -/
def lastBlock (b : Binlog) : Nat := (2 ^ 32 - 1 - b.stHead.wDataOffset.toNat) / b.stHead.dwBlockSize.toNat

/-- The file ends where that block starts, or before; and what has room for a block head at an offset that
`Next` may compute has room for a block below 2^32. -/
structure Addressable (b : Binlog) (size : Nat) : Prop where
  last : size ≤ blockStart b (lastBlock b)
  whole : ∀ idx, blockOffset b idx + 8 ≤ size → blockOffset b idx + b.stHead.dwBlockSize.toNat ≤ 2 ^ 32

variable {b : Binlog} {sys : Sys} {it x : BinlogIterator}
variable {idx j k n off : Nat}

theorem blockOffset_u32 (b : Binlog) (idx : Nat) : blockOffset b (u32 idx) = blockOffset b idx := by
  unfold blockOffset u32
  rw [Nat.add_mod, Nat.mul_mod, Nat.mod_mod, ← Nat.mul_mod, ← Nat.add_mod]

theorem blockOffset_eq (h : blockStart b k < 2 ^ 32) : blockOffset b k = blockStart b k := u32_of_lt h

theorem blockStart_succ (b : Binlog) (k : Nat) :
    blockStart b (k + 1) = blockStart b k + b.stHead.dwBlockSize.toNat := by
  unfold blockStart
  rw [Nat.mul_succ, Nat.add_assoc]

theorem blockStart_mono (b : Binlog) (h : j ≤ k) : blockStart b j ≤ blockStart b k :=
  Nat.add_le_add_left (Nat.mul_le_mul_left _ h) _

/-- The blocks that a pass visits. -/
theorem starts_succ (b : Binlog) (k : Nat) :
    (List.range (k + 1)).map (blockStart b) = (List.range k).map (blockStart b) ++ [blockStart b k] := by
  rw [List.range_succ, List.map_append]
  rfl

theorem lt_of_blockStart_lt (h : blockStart b j < blockStart b k) : j < k := by
  by_contra hle
  exact Nat.not_le.mpr h (blockStart_mono b (Nat.not_lt.mp hle))

theorem blockStart_lastBlock (b : Binlog) : blockStart b (lastBlock b) < 2 ^ 32 := by
  have hD := b.stHead.wDataOffset.toNat_lt
  have hdiv := Nat.mul_div_le (2 ^ 32 - 1 - b.stHead.wDataOffset.toNat) b.stHead.dwBlockSize.toNat
  unfold blockStart lastBlock
  omega

theorem blockStart_behind (hB : 0 < b.stHead.dwBlockSize.toNat) : 2 ^ 32 ≤ blockStart b (lastBlock b + 1) := by
  have hdiv := Nat.lt_mul_div_succ (2 ^ 32 - 1 - b.stHead.wDataOffset.toNat) hB
  unfold blockStart lastBlock
  omega

theorem lastBlock_lt (h8 : 8 ≤ b.stHead.dwBlockSize.toNat) : lastBlock b < 2 ^ 31 :=
  Nat.div_lt_of_lt_mul (Nat.lt_of_lt_of_le (by omega) (Nat.mul_le_mul_right (2 ^ 31) h8))

theorem lastBlock_pos (h8 : 8 ≤ b.stHead.dwBlockSize.toNat) (hB : b.stHead.dwBlockSize.toNat < 2 ^ 31) :
    0 < lastBlock b := by
  have hD := b.stHead.wDataOffset.toNat_lt
  exact Nat.div_pos (by omega) (by omega)

/-! ## Reading a block -/

/-- The bytes of block `idx`, as far as the file has them. -/
def blockBytes (b : Binlog) (sys : Sys) (idx : Nat) : Bytes :=
  (sys.data.drop (blockOffset b idx)).take b.stHead.dwBlockSize.toNat

theorem length_blockBytes (b : Binlog) (sys : Sys) (idx : Nat) : (blockBytes b sys idx).length =
    min b.stHead.dwBlockSize.toNat (sys.data.length - blockOffset b idx) := by
  simp [blockBytes]

theorem blockBytes_le (b : Binlog) (sys : Sys) (idx : Nat) :
    (blockBytes b sys idx).length ≤ b.stHead.dwBlockSize.toNat :=
  List.length_take_le _ _

theorem pread_block (hs : Readable b sys) (idx : Nat) :
    sys.pread b.fdBinlog readOk.pread b.stHead.dwBlockSize.toNat (blockOffset b idx) =
      some (blockBytes b sys idx) := by
  obtain ⟨d, hd⟩ := hs
  exact Sys.pread_full hd

/-- The cursor is in block `idx`, of which `n` bytes are loaded. -/
structure At (x : BinlogIterator) (idx off n : Nat) : Prop where
  index : x.dwBlockIndex = idx
  off : x.dwOffset = off
  real : x.dwRealSize = n

theorem loadedSize_of_real (h : x.dwRealSize = n) (hn : n < 2 ^ 31) : x.loadedSize = n := by
  rw [BinlogIterator.loadedSize, h, ofInt32]
  omega

/-- The ways out of a turn that reads block `idx` with the cursor at `off`; `dest` is where the bytes behind
the head are parsed. -/
inductive ReadCases (b : Binlog) (sys : Sys) (idx off dest : Nat) (t : Turn) : Prop
  | ends (x : BinlogIterator) (ht : t = .done (.ret x 0)) (h0 : (blockBytes b sys idx).length = 0)
  | short (x : BinlogIterator) (ht : t = .done (.ret x (-1))) (hx : At x idx off (blockBytes b sys idx).length)
      (h0 : 0 < (blockBytes b sys idx).length) (h8 : (blockBytes b sys idx).length < 8)
  | skips (x : BinlogIterator) (ht : t = .again x)
      (hx : At x idx b.stHead.dwBlockSize.toNat (blockBytes b sys idx).length)
      (h8 : 8 ≤ (blockBytes b sys idx).length) (hhead : (blockBytes b sys idx)[0]? ≠ some blockheadMagic)
  | goesOn (x : BinlogIterator) (ht : t = .again x) (hx : At x idx dest (blockBytes b sys idx).length)
      (h8 : 8 ≤ (blockBytes b sys idx).length) (hhead : (blockBytes b sys idx)[0]? = some blockheadMagic)

theorem fill_at (it : BinlogIterator) {got : Bytes} (hlt : got.length < 2 ^ 31) :
    At (fill it got) it.dwBlockIndex it.dwOffset got.length :=
  ⟨rfl, rfl, toInt32_lt hlt⟩

theorem preadBlock_cases (dest : Nat → Nat) (hi : Inv b it) (hs : Readable b sys)
    (hB : b.stHead.dwBlockSize.toNat < 2 ^ 31) :
    ReadCases b sys it.dwBlockIndex it.dwOffset (dest it.dwOffset) (preadBlock b sys readOk it fun it =>
      checkBlockHead b it fun it => .again { it with dwOffset := dest it.dwOffset }) := by
  have hroom := hi.room
  have hle := blockBytes_le b sys it.dwBlockIndex
  rw [preadBlock_eq _ (pread_block hs it.dwBlockIndex) (by omega) (by omega)]
  generalize hgot : blockBytes b sys it.dwBlockIndex = got at hle
  have hat := @fill_at it got (by omega)
  by_cases h0 : got.length = 0
  · rw [if_pos h0]
    exact .ends _ rfl (by rw [hgot, h0])
  · rw [if_neg h0]
    by_cases h8 : got.length < 8
    · rw [if_pos (.inl h8)]
      exact .short _ rfl (by rw [hgot]; exact hat) (by rw [hgot]; omega) (by rw [hgot]; exact h8)
    · rw [if_neg (by omega)]
      cases got with
      | nil => exact absurd rfl h0
      | cons c rest =>
        simp only [List.length_cons] at h8 hle
        have hhead := @getBlockHead_front rest (it.cBlockBuffer.drop (c :: rest).length) c (by omega) (by omega)
        have hcheck := @checkBlockHead_eq b (fill it (c :: rest)) _ _ _
          (fun it => .again { it with dwOffset := dest it.dwOffset }) rfl hat.real hhead
        rw [hcheck]
        by_cases hm : c = blockheadMagic
        · rw [if_neg (not_not_intro hm)]
          refine .goesOn _ rfl ?_ ?_ ?_
          · rw [hgot]
            exact ⟨rfl, rfl, hat.real⟩
          · rw [hgot]
            simp only [List.length_cons]
            omega
          · rw [hgot]
            exact congrArg some hm
        · rw [if_pos hm]
          refine .skips _ rfl ?_ ?_ ?_
          · rw [hgot]
            exact ⟨rfl, rfl, hat.real⟩
          · rw [hgot]
            simp only [List.length_cons]
            omega
          · rw [hgot]
            exact fun h => hm (Option.some.inj h)

/-- Where the parse goes on in a block that was read. -/
def parseFrom (b : Binlog) (off : Nat) : Nat :=
  if b.stHead.dwBlockSize.toNat ≤ off ∨ off < blockheadSize then blockheadSize else off

theorem turn_visits (hi : Inv b it) (hs : Readable b sys) (hB : b.stHead.dwBlockSize.toNat < 2 ^ 31)
    (hv : VisitsBlock b it) :
    ReadCases b sys (preadIndex b it) it.dwOffset (parseFrom b it.dwOffset) (turn b sys readOk it) := by
  obtain ⟨hused, ha⟩ := hv
  rw [turn_refill b sys readOk hused]
  by_cases hoff : b.stHead.dwBlockSize.toNat ≤ it.dwOffset
  · have hi' : Inv b { it with dwBlockIndex := preadIndex b it } := ⟨hi.size, hi.room, hi.off, hi.loaded⟩
    rw [refill_next_block hoff, parseFrom, if_pos (.inl hoff)]
    exact preadBlock_cases (fun _ => blockheadSize) hi' hs hB
  · have hlt := Nat.not_le.mp hoff
    have hto : parseFrom b it.dwOffset = if it.dwOffset < blockheadSize then blockheadSize else it.dwOffset := by
      unfold parseFrom
      simp only [hoff, false_or]
    rw [refill_loads hused hlt ha, preadIndex_of_lt hlt, hto]
    exact preadBlock_cases (fun off => if off < blockheadSize then blockheadSize else off) hi hs hB

/-! ## The reload -/

theorem turn_asks_end (hs : Readable b sys) (ha : AsksSize b it)
    (hS : sys.data.length ≤ u32 (blockOffset b it.dwBlockIndex + it.dwOffset)) :
    turn b sys readOk it = .done (.ret it 0) := by
  rw [turn_refill b sys readOk ha.1, refill_asks hs ha, if_pos (show readOk.fstat = true from rfl), if_pos hS]

theorem turn_asks (hi : Inv b it) (hs : Readable b sys) (hB : b.stHead.dwBlockSize.toNat < 2 ^ 31)
    (ha : AsksSize b it) (hS : u32 (blockOffset b it.dwBlockIndex + it.dwOffset) < sys.data.length) :
    turn b sys readOk it =
      if (blockBytes b sys it.dwBlockIndex).length = 0 then .done (.ret (fill it (blockBytes b sys it.dwBlockIndex)) 0)
      else if (blockBytes b sys it.dwBlockIndex).length < 8 then
        .done (.ret (fill it (blockBytes b sys it.dwBlockIndex)) (-1))
      else .again (fill it (blockBytes b sys it.dwBlockIndex)) := by
  have hroom := hi.room
  have hle := blockBytes_le b sys it.dwBlockIndex
  have hshort : ((blockBytes b sys it.dwBlockIndex).length < 8 ∨ 2 ^ 31 ≤ (blockBytes b sys it.dwBlockIndex).length) ↔
      (blockBytes b sys it.dwBlockIndex).length < 8 := by omega
  rw [turn_refill b sys readOk ha.1, refill_asks hs ha, if_pos (show readOk.fstat = true from rfl),
    if_neg (Nat.not_le.mpr hS), preadBlock_eq _ (pread_block hs it.dwBlockIndex) (by omega) (by omega)]
  simp only [hshort]

/-! ## Every call ends -/

/-- Blocks up to block `k`, behind the one under the cursor; the index wraps. -/
def blocksLeft (k idx : Nat) : Nat := (k + 2 ^ 32 - u32 (idx + 1)) % 2 ^ 32

/-- What can still happen in the block under the cursor: it is loaded, reloaded, parsed. -/
def phase (b : Binlog) (it : BinlogIterator) : Nat :=
  if it.dwOffset < it.loadedSize then 1
  else if b.stHead.dwBlockSize.toNat ≤ it.dwOffset then 0
  else if AsksSize b it then 2
  else 3

def turnsLeft (b : Binlog) (it : BinlogIterator) : Nat :=
  4 * blocksLeft (lastBlock b) it.dwBlockIndex + phase b it

theorem blocksLeft_next (hk : k < 2 ^ 32) (hne : u32 (idx + 1) ≠ k) :
    blocksLeft k (u32 (idx + 1)) + 1 = blocksLeft k idx := by
  unfold blocksLeft u32 at *
  omega

theorem phase_skipped (hle : it.loadedSize ≤ b.stHead.dwBlockSize.toNat)
    (hoff : it.dwOffset = b.stHead.dwBlockSize.toNat) : phase b it = 0 := by
  unfold phase
  rw [if_neg (by omega), if_pos (by omega)]

/-- With something loaded, a block is not loaded once more. -/
theorem phase_loaded (hx : At x idx off n) (h0 : 0 < n) (hn : n ≤ b.stHead.dwBlockSize.toNat)
    (hB : b.stHead.dwBlockSize.toNat < 2 ^ 31) : phase b x ≤ 2 := by
  have hsize := loadedSize_of_real hx.real (by omega)
  have hreal := hx.real
  unfold phase
  split_ifs with h1 h2 h3
  · omega
  · omega
  · omega
  · exact absurd ⟨by omega, by omega, by omega, by omega⟩ h3

/-- A block that the file has room for is not the last. -/
theorem not_last (ha : Addressable b sys.data.length) (h8 : 8 ≤ (blockBytes b sys idx).length) : idx ≠ lastBlock b := by
  rintro rfl
  have hlast := ha.last
  rw [length_blockBytes, blockOffset_eq (blockStart_lastBlock b)] at h8
  omega

/-- A reload that goes on has loaded bytes behind the cursor. -/
theorem reload_decreases (ha : Addressable b sys.data.length) (hB : b.stHead.dwBlockSize.toNat < 2 ^ 31)
    (hi : Inv b it) (hs : Readable b sys) (hask : AsksSize b it) (ht : turn b sys readOk it = .again x) :
    x.dwBlockIndex = it.dwBlockIndex ∧ phase b x = 1 := by
  by_cases hS : sys.data.length ≤ u32 (blockOffset b it.dwBlockIndex + it.dwOffset)
  · rw [turn_asks_end hs hask hS] at ht
    cases ht
  · have hle := blockBytes_le b sys it.dwBlockIndex
    have hlen := length_blockBytes b sys it.dwBlockIndex
    rw [turn_asks hi hs hB hask (Nat.not_le.mp hS)] at ht
    split_ifs at ht with h0 h8
    cases ht
    have hsize : (fill it (blockBytes b sys it.dwBlockIndex)).loadedSize = (blockBytes b sys it.dwBlockIndex).length :=
      fill_loadedSize it (by omega)
    have hwhole := ha.whole it.dwBlockIndex (by omega)
    have hoff := hask.2.1
    have hnowrap : u32 (blockOffset b it.dwBlockIndex + it.dwOffset) = blockOffset b it.dwBlockIndex + it.dwOffset :=
      u32_of_lt (by omega)
    refine ⟨rfl, if_pos ?_⟩
    rw [hsize]
    show it.dwOffset < _
    omega

theorem visit_again (h : ReadCases b sys idx off n (.again x)) :
    ∃ dest, At x idx dest (blockBytes b sys idx).length ∧ 8 ≤ (blockBytes b sys idx).length := by
  cases h with
  | ends y ht _ | short y ht _ _ _ => cases ht
  | skips y ht hx h8 _ =>
    cases ht
    exact ⟨_, hx, h8⟩
  | goesOn y ht hx h8 _ =>
    cases ht
    exact ⟨_, hx, h8⟩

theorem turn_decreases (ha : Addressable b sys.data.length) (h8 : 8 ≤ b.stHead.dwBlockSize.toNat)
    (hB : b.stHead.dwBlockSize.toNat < 2 ^ 31) (hi : Inv b it) (hs : Readable b sys)
    (ht : turn b sys readOk it = .again x) : turnsLeft b x < turnsLeft b it := by
  have hix := (turn_sound hi hs readOk_pread).inv x (by rw [ht]; rfl)
  have hK := lastBlock_lt h8
  unfold turnsLeft
  by_cases hoff : it.dwOffset < it.loadedSize
  · have hphase : phase b it = 1 := if_pos hoff
    cases (parse_cases sys readOk hi hoff).1 with
    | skips y hy hsame hskip _ =>
      cases hy.symm.trans ht
      rw [hsame.index, phase_skipped hix.loaded hskip]
      omega
    | throws y hy _ _ _ _ | returns y _ hy _ _ _ _ _ => cases hy.symm.trans ht
  · by_cases hask : AsksSize b it
    · have hphase : phase b it = 2 := by
        unfold phase
        rw [if_neg hoff, if_neg (Nat.not_le.mpr hask.2.1), if_pos hask]
      obtain ⟨hidx, hx⟩ := reload_decreases ha hB hi hs hask ht
      rw [hidx]
      omega
    · have hcases := turn_visits hi hs hB ⟨Nat.not_lt.mp hoff, hask⟩
      rw [ht] at hcases
      obtain ⟨dest, hx, hlen⟩ := visit_again hcases
      have hle := phase_loaded hx (by omega) (blockBytes_le b sys _) hB
      rw [hx.index]
      by_cases hend : b.stHead.dwBlockSize.toNat ≤ it.dwOffset
      · -- one block less, whatever is left to do in it
        have hidx : preadIndex b it = u32 (it.dwBlockIndex + 1) := if_pos hend
        rw [hidx] at hlen ⊢
        have hnext := blocksLeft_next (show lastBlock b < 2 ^ 32 by omega) (not_last ha hlen)
        omega
      · have hphase : phase b it = 3 := by
          unfold phase
          rw [if_neg hoff, if_neg hend, if_neg hask]
        rw [preadIndex_of_lt (Nat.not_le.mp hend)]
        omega

theorem turns_end (ha : Addressable b sys.data.length) (h8 : 8 ≤ b.stHead.dwBlockSize.toNat)
    (hB : b.stHead.dwBlockSize.toNat < 2 ^ 31) (hs : Readable b sys) (hi : Inv b it) :
    ∃ n r, turns b sys (fun _ => readOk) n it = some r := by
  induction hm : turnsLeft b it using Nat.strongRecOn generalizing it with
  | _ m ih =>
    cases ht : turn b sys readOk it with
    | again x =>
      have hix := (turn_sound hi hs readOk_pread).inv x (by rw [ht]; rfl)
      have hlt := turn_decreases ha h8 hB hi hs ht
      obtain ⟨n, r, hr⟩ := ih _ (by omega) hix rfl
      refine ⟨n + 1, r, ?_⟩
      simp only [turns, ht]
      exact hr
    | done r =>
      refine ⟨1, r, ?_⟩
      simp only [turns, ht]

end SimpleSvr.L3.Binlog
