import SimpleSvr.Core.LTS
import SimpleSvr.L3Storage.BinlogBlocks

/-!
# Files beyond 32 bits

Behind the last block that starts below 2^32 the offset of the next one wraps:
a pass over a longer file comes back to blocks at its front. A reload compares
an offset that may have wrapped with `st_size`, and `Next` then loads the same
bytes forever.

`scales_iff`: every call of `Next` ends, and a pass reads block after block, on
all files of a size exactly if the file ends where these offsets do not wrap.
-/
namespace SimpleSvr.L3.Binlog

/-! ## A pass -/

/-- Calls of `Next`, one after the other. `blocks` are the offsets of the blocks that were visited; `places`
are where the records that were returned begin in the file, and `offsets` what `GetOffset` said. -/
structure Pass where
  it : BinlogIterator
  blocks : List Nat
  places : List Nat
  offsets : List Nat
  ended : Bool

/-- What the turn reads. -/
def Pass.visit (b : Binlog) (p : Pass) : Pass :=
  if VisitsBlock b p.it then { p with blocks := p.blocks ++ [blockOffset b (preadIndex b p.it)] } else p

/-- How the turn ended. The pass is over when `Next` returns 0; after -1 or an exception it is called again. -/
def Pass.land (b : Binlog) (p : Pass) : Turn → Option Pass
  | .again it => some { p with it }
  | .done (.ret it v) => some
      { p with
        it
        places := if 0 < v then p.places ++ [blockOffset b p.it.dwBlockIndex + p.it.dwOffset] else p.places
        offsets := if 0 < v then p.offsets ++ [it.dwLogOffset] else p.offsets
        ended := v = 0 }
  | .done (.throws it) => some { p with it }
  | .done .fault => none

/-- One turn of the pass. -/
def Pass.turn (b : Binlog) (sys : Sys) (p : Pass) : Option Pass :=
  if p.ended then none else (p.visit b).land b (Binlog.turn b sys readOk p.it)

/-- One pass from `GetIterator()`, over a file that stays as it is. -/
def pass (b : Binlog) (sys : Sys) : LTS Pass Unit :=
  .ofFn (fun p => ∃ mem, p = ⟨getIterator b mem, [], [], [], false⟩) fun p _ => p.turn b sys

/-- Reading `sys`: every call ends, whatever was read before it, and a pass visits the blocks in order and
each at most once. -/
structure ScalesOn (b : Binlog) (sys : Sys) : Prop where
  ends : ∀ it, (reading b).Reachable it → ∃ n r, next b sys (fun _ => readOk) n it = some r
  visits : ∀ p, (pass b sys).Reachable p → ∃ n, p.blocks = (List.range n).map (blockStart b)
  increase : ∀ p, (pass b sys).Reachable p → p.offsets.Pairwise (· < ·)
  once : ∀ p, (pass b sys).Reachable p → p.places.Nodup

/-- On every file of `size` bytes. -/
def Scales (b : Binlog) (size : Nat) : Prop :=
  ∀ sys : Sys, Readable b sys → sys.data.length = size → ScalesOn b sys

variable {b : Binlog} {sys : Sys} {it x : BinlogIterator} {p p' : Pass}
variable {idx k n off : Nat}

/-! ## A pass reads block after block -/

/-- What the caller sees of a pass. -/
structure Ordered (b : Binlog) (p : Pass) : Prop where
  visits : ∃ n, p.blocks = (List.range n).map (blockStart b)
  places : p.places = p.offsets
  increase : p.offsets.Pairwise (· < ·)

/-- Nothing was read yet. -/
structure Fresh (p : Pass) : Prop where
  cursor : At p.it 0 0 0
  blocks : p.blocks = []
  offsets : p.offsets = []

/-- The cursor is in the last of the blocks that were visited, behind every record that was returned. -/
structure Within (b : Binlog) (size : Nat) (p : Pass) : Prop where
  real : p.it.dwRealSize = (min b.stHead.dwBlockSize.toNat (size - blockStart b p.it.dwBlockIndex) : Nat)
  blocks : p.blocks = (List.range (p.it.dwBlockIndex + 1)).map (blockStart b)
  inside : blockStart b p.it.dwBlockIndex < size
  behind : ∀ o ∈ p.offsets, o < blockStart b p.it.dwBlockIndex + p.it.dwOffset

structure PassInv (b : Binlog) (size : Nat) (p : Pass) : Prop where
  inv : Inv b p.it
  ordered : Ordered b p
  running : p.ended = false → Fresh p ∨ Within b size p

/-- `dwLogOffset` of a record that is returned. -/
theorem returned_offset {v : Int} (hi : Inv b it) (hoff : it.dwOffset < it.loadedSize)
    (ht : turn b sys readOk it = .done (.ret x v)) :
    x.dwLogOffset = u32 (blockOffset b it.dwBlockIndex + it.dwOffset) := by
  obtain ⟨c, rest, hf, -⟩ := front_exists hi hoff
  rw [turn_parse b sys readOk hoff, hf.parseLog_eq hi.loadedSize_lt] at ht
  simp only [parsed] at ht
  split at ht
  · cases ht
  · split at ht
    · cases ht
    · split at ht
      · cases ht
      · cases ht
        rfl

theorem land_left {t : Turn} (h : p.land b t = some p') : t.left = some p'.it := by
  cases t with
  | again y =>
    cases h
    rfl
  | done r =>
    cases r with
    | fault => cases h
    | ret y v | throws y =>
      cases h
      rfl

theorem turn_going (sys : Sys) (hgoing : p.ended = false) :
    p.turn b sys = (p.visit b).land b (turn b sys readOk p.it) := by
  unfold Pass.turn
  rw [hgoing]
  rfl

theorem turn_ended (sys : Sys) (hended : p.ended = true) : p.turn b sys = none := by
  unfold Pass.turn
  rw [hended]
  rfl

/-- A visit is only noted. -/
theorem visit_same (b : Binlog) (p : Pass) :
    (p.visit b).it = p.it ∧ (p.visit b).offsets = p.offsets ∧ (p.visit b).ended = p.ended := by
  unfold Pass.visit
  split <;> exact ⟨rfl, rfl, rfl⟩

theorem visit_of_visits (hv : VisitsBlock b p.it) :
    p.visit b = { p with blocks := p.blocks ++ [blockOffset b (preadIndex b p.it)] } :=
  if_pos hv

theorem visit_of_not (hv : ¬VisitsBlock b p.it) : p.visit b = p := if_neg hv

theorem pass_inv (hs : Readable b sys) : (pass b sys).Inductive fun p => Inv b p.it where
  init := by
    intro p hp
    obtain ⟨mem, rfl⟩ := hp
    exact inv_getIterator mem
  step := by
    intro p _ p' hi hstep
    have hturn : p.turn b sys = some p' := hstep
    cases hended : p.ended with
    | true =>
      rw [turn_ended sys hended] at hturn
      cases hturn
    | false =>
      rw [turn_going sys hended] at hturn
      exact (turn_sound hi hs readOk_pread).inv _ (land_left hturn)

/-- A call that returns is a run of turns of the pass: what it returned is noted, and after 0 the pass is
over. -/
theorem pass_call {v : Int} (hr : (pass b sys).Reachable p) (hs : Readable b sys) (hgoing : p.ended = false)
    (hn : next b sys (fun _ => readOk) n p.it = some (.ret x v)) :
    ∃ p', (pass b sys).Reachable p' ∧ p'.it = x ∧ p'.ended = decide (v = 0) ∧
      p'.offsets = if 0 < v then p.offsets ++ [x.dwLogOffset] else p.offsets := by
  rw [((pass_inv hs).reachable p hr).next_eq] at hn
  induction n generalizing p with
  | zero => cases hn
  | succ n ih =>
    obtain ⟨-, hoffsets, hsame⟩ := visit_same b p
    have hturn := turn_going (b := b) sys hgoing
    unfold turns at hn
    cases ht : turn b sys readOk p.it with
    | again y =>
      rw [ht] at hturn hn
      obtain ⟨p', hr', hit, hended, hlast⟩ := ih (.step (l := ()) hr hturn) (hsame.trans hgoing) hn
      refine ⟨p', hr', hit, hended, hlast.trans ?_⟩
      rw [hoffsets]
    | done r =>
      rw [ht] at hturn hn
      cases hn
      refine ⟨_, .step (l := ()) hr hturn, rfl, rfl, ?_⟩
      rw [hoffsets]

variable {size : Nat}

theorem Within.loadedSize (hw : Within b size p) (hB : b.stHead.dwBlockSize.toNat < 2 ^ 31) :
    p.it.loadedSize = min b.stHead.dwBlockSize.toNat (size - blockStart b p.it.dwBlockIndex) :=
  loadedSize_of_real hw.real (by omega)

/-- The next block begins below 2^32 too. -/
theorem Within.next_start (hw : Within b size p) (ha : Addressable b size) :
    blockStart b (p.it.dwBlockIndex + 1) < 2 ^ 32 := by
  have hlast := blockStart_lastBlock b
  have hidx := lt_of_blockStart_lt (Nat.lt_of_lt_of_le hw.inside ha.last)
  exact Nat.lt_of_le_of_lt (blockStart_mono b hidx) hlast

theorem Within.blockOffset (hw : Within b size p) (ha : Addressable b size) :
    blockOffset b p.it.dwBlockIndex = blockStart b p.it.dwBlockIndex := by
  have hnext := hw.next_start ha
  rw [blockStart_succ] at hnext
  exact blockOffset_eq (by omega)

/-- The cursor moves on in the same block. -/
theorem Within.same (hw : Within b size p) (hsame : SameBlock p.it p'.it) (hblocks : p'.blocks = p.blocks)
    (hbehind : ∀ o ∈ p'.offsets, o < blockStart b p.it.dwBlockIndex + p'.it.dwOffset) : Within b size p' where
  real := by rw [hsame.real, hsame.index]; exact hw.real
  blocks := by rw [hblocks, hsame.index]; exact hw.blocks
  inside := by rw [hsame.index]; exact hw.inside
  behind := by rw [hsame.index]; exact hbehind

/-- Nothing was returned. -/
theorem PassInv.moves (h : PassInv b size p) (hw : Within b size p) (hinv : Inv b p'.it) (hsame : SameBlock p.it p'.it)
    (hoff : p.it.dwOffset ≤ p'.it.dwOffset) (hblocks : p'.blocks = p.blocks) (hplaces : p'.places = p.places)
    (hoffsets : p'.offsets = p.offsets) : PassInv b size p' := by
  refine ⟨hinv, ⟨?_, ?_, ?_⟩, fun _ => .inr (hw.same hsame hblocks fun o ho => ?_)⟩
  · rw [hblocks]
    exact h.ordered.visits
  · rw [hplaces, hoffsets]
    exact h.ordered.places
  · rw [hoffsets]
    exact h.ordered.increase
  · rw [hoffsets] at ho
    exact Nat.lt_of_lt_of_le (hw.behind o ho) (Nat.add_le_add_left hoff _)

theorem PassInv.ends (hinv : Inv b p.it) (hord : Ordered b p) (hended : p.ended = true) : PassInv b size p := by
  refine ⟨hinv, hord, fun h => ?_⟩
  rw [hended] at h
  cases h

theorem step_parse (ha : Addressable b sys.data.length) (hB : b.stHead.dwBlockSize.toNat < 2 ^ 31)
    (h : PassInv b sys.data.length p) (hw : Within b sys.data.length p) (hs : Readable b sys)
    (hoff : p.it.dwOffset < p.it.loadedSize) (hland : p.land b (turn b sys readOk p.it) = some p') :
    PassInv b sys.data.length p' := by
  have hinv := (turn_sound h.inv hs readOk_pread).inv _ (land_left hland)
  have hsize := hw.loadedSize hB
  have hord := h.ordered
  cases (parse_cases sys readOk h.inv hoff).1 with
  | skips y hy hsame hskip _ =>
    have hle : p.it.dwOffset ≤ y.dwOffset := by omega
    rw [hy] at hland
    cases hland
    exact h.moves hw hinv hsame hle rfl rfl rfl
  | throws y hy hsame hstay _ _ =>
    rw [hy] at hland
    cases hland
    exact h.moves hw hinv hsame (Nat.le_of_eq hstay.symm) rfl rfl rfl
  | returns y v hy hsame hmove _ _ _ =>
    have hlt : p.it.dwOffset < y.dwOffset := by omega
    have hlog := returned_offset h.inv hoff hy
    have hnext := hw.next_start ha
    rw [blockStart_succ] at hnext
    rw [hw.blockOffset ha, u32_of_lt (by omega)] at hlog
    rw [hy] at hland
    cases hland
    by_cases hv : 0 < v
    · -- the record is behind those that were returned, and the cursor behind it
      simp only [if_pos hv] at hinv ⊢
      rw [hw.blockOffset ha, hlog]
      refine ⟨hinv, ⟨hord.visits, by rw [hord.places], ?_⟩, fun _ => .inr (hw.same hsame rfl ?_)⟩
      · refine List.pairwise_append.mpr ⟨hord.increase, List.pairwise_singleton _ _, fun o ho o' ho' => ?_⟩
        rw [List.mem_singleton.mp ho']
        exact hw.behind o ho
      · intro o ho
        rcases List.mem_append.mp ho with ho | ho
        · exact Nat.lt_trans (hw.behind o ho) (Nat.add_lt_add_left hlt _)
        · rw [List.mem_singleton.mp ho]
          exact Nat.add_lt_add_left hlt _
    · simp only [if_neg hv] at hinv ⊢
      exact h.moves hw hinv hsame (Nat.le_of_lt hlt) rfl rfl rfl

/-- On a file that stays as it is, what was not loaded of a block is not there. -/
theorem step_asks (ha : Addressable b sys.data.length) (hB : b.stHead.dwBlockSize.toNat < 2 ^ 31)
    (h : PassInv b sys.data.length p) (hw : Within b sys.data.length p) (hs : Readable b sys)
    (hask : AsksSize b p.it) (hland : p.land b (turn b sys readOk p.it) = some p') :
    PassInv b sys.data.length p' := by
  have hsize := hw.loadedSize hB
  have hnext := hw.next_start ha
  rw [blockStart_succ] at hnext
  obtain ⟨hused, hoff, -, hpart⟩ := id hask
  have hend : sys.data.length ≤ u32 (blockOffset b p.it.dwBlockIndex + p.it.dwOffset) := by
    rw [hw.blockOffset ha, u32_of_lt (by omega)]
    omega
  rw [turn_asks_end hs hask hend] at hland
  cases hland
  exact .ends h.inv ⟨h.ordered.visits, h.ordered.places, h.ordered.increase⟩ rfl

/-- The block that is read is the one behind those that were. -/
structure Arrives (b : Binlog) (p : Pass) : Prop where
  start : blockOffset b (preadIndex b p.it) = blockStart b (preadIndex b p.it)
  blocks : p.blocks = (List.range (preadIndex b p.it)).map (blockStart b)
  behind : ∀ o ∈ p.offsets, o < blockStart b (preadIndex b p.it)

theorem Arrives.visited (h : Arrives b p) : p.blocks ++ [blockOffset b (preadIndex b p.it)] =
    (List.range (preadIndex b p.it + 1)).map (blockStart b) := by
  rw [h.start, h.blocks, starts_succ]

theorem Fresh.visits (hf : Fresh p) : VisitsBlock b p.it := by
  have hreal : p.it.dwRealSize = 0 := hf.cursor.real
  have hzero : p.it.loadedSize = 0 := loadedSize_of_real hf.cursor.real (by decide)
  refine ⟨by omega, fun hask => ?_⟩
  have hpos := hask.2.2.1
  omega

theorem Fresh.arrives (hf : Fresh p) (hB : 0 < b.stHead.dwBlockSize.toNat) : Arrives b p := by
  obtain ⟨hidx, hoff, -⟩ := hf.cursor
  have hpread : preadIndex b p.it = 0 := by rw [preadIndex_of_lt (by omega), hidx]
  have hD : blockStart b 0 < 2 ^ 32 := Nat.lt_of_lt_of_le b.stHead.wDataOffset.toNat_lt (by decide)
  constructor
  · rw [hpread]
    exact blockOffset_eq hD
  · rw [hpread]
    exact hf.blocks
  · intro o ho
    rw [hf.offsets] at ho
    cases ho

theorem Within.arrives (hw : Within b size p) (ha : Addressable b size) (h8 : 8 ≤ b.stHead.dwBlockSize.toNat)
    (hB : b.stHead.dwBlockSize.toNat < 2 ^ 31) (hi : Inv b p.it) (hv : VisitsBlock b p.it) : Arrives b p := by
  obtain ⟨hused, hask⟩ := hv
  have hsize := hw.loadedSize hB
  have hinside := hw.inside
  have hnext := hw.next_start ha
  have hreal := hw.real
  have hK := lastBlock_lt h8
  have hidx := lt_of_blockStart_lt (Nat.lt_of_lt_of_le hw.inside ha.last)
  -- a block that is not used up is loaded already
  have hend : b.stHead.dwBlockSize.toNat ≤ p.it.dwOffset := by
    by_contra hlt
    exact hask ⟨hused, by omega, by omega, by omega⟩
  have hpread : preadIndex b p.it = p.it.dwBlockIndex + 1 := (if_pos hend).trans (u32_of_lt (by omega))
  constructor
  · rw [hpread]
    exact blockOffset_eq hnext
  · rw [hpread]
    exact hw.blocks
  · intro o ho
    have hlt := hw.behind o ho
    have hoff := hi.off
    rw [hpread, blockStart_succ]
    omega

/-- The block was there. -/
theorem Arrives.within (harr : Arrives b p) (h : PassInv b sys.data.length p) (hinv : Inv b p'.it)
    (hx : At p'.it (preadIndex b p.it) off (blockBytes b sys (preadIndex b p.it)).length)
    (h0 : 0 < (blockBytes b sys (preadIndex b p.it)).length)
    (hblocks : p'.blocks = p.blocks ++ [blockOffset b (preadIndex b p.it)]) (hplaces : p'.places = p.places)
    (hoffsets : p'.offsets = p.offsets) : PassInv b sys.data.length p' := by
  have hlen := length_blockBytes b sys (preadIndex b p.it)
  have hrange := hblocks.trans harr.visited
  rw [harr.start] at hlen
  refine ⟨hinv, ⟨⟨_, hrange⟩, ?_, ?_⟩, fun _ => .inr ⟨?_, ?_, ?_, fun o ho => ?_⟩⟩
  · rw [hplaces, hoffsets]
    exact h.ordered.places
  · rw [hoffsets]
    exact h.ordered.increase
  · rw [hx.real, hx.index, hlen]
  · rw [hx.index]
    exact hrange
  · rw [hx.index]
    omega
  · rw [hoffsets] at ho
    rw [hx.index]
    exact Nat.lt_of_lt_of_le (harr.behind o ho) (Nat.le_add_right _ _)

theorem step_visits (hB : b.stHead.dwBlockSize.toNat < 2 ^ 31) (h : PassInv b sys.data.length p) (hs : Readable b sys)
    (hv : VisitsBlock b p.it) (harr : Arrives b p) (hland : (p.visit b).land b (turn b sys readOk p.it) = some p') :
    PassInv b sys.data.length p' := by
  have hinv := (turn_sound h.inv hs readOk_pread).inv _ (land_left hland)
  rw [visit_of_visits hv] at hland
  cases turn_visits h.inv hs hB hv with
  | ends x ht h0 =>
    rw [ht] at hland
    cases hland
    exact .ends hinv ⟨⟨_, harr.visited⟩, h.ordered.places, h.ordered.increase⟩ rfl
  | short x ht hx h0 _ =>
    rw [ht] at hland
    cases hland
    exact harr.within h hinv hx h0 rfl rfl rfl
  | skips x ht hx h8 _ | goesOn x ht hx h8 _ =>
    rw [ht] at hland
    cases hland
    exact harr.within h hinv hx (by omega) rfl rfl rfl

theorem passInv_inductive (ha : Addressable b sys.data.length) (h8 : 8 ≤ b.stHead.dwBlockSize.toNat)
    (hB : b.stHead.dwBlockSize.toNat < 2 ^ 31) (hs : Readable b sys) :
    (pass b sys).Inductive (PassInv b sys.data.length) where
  init := by
    intro p hp
    obtain ⟨mem, rfl⟩ := hp
    exact ⟨inv_getIterator mem, ⟨⟨0, rfl⟩, rfl, .nil⟩, fun _ => .inl ⟨⟨rfl, rfl, rfl⟩, rfl, rfl⟩⟩
  step := by
    intro p _ p' h hstep
    have hturn : p.turn b sys = some p' := hstep
    cases hended : p.ended with
    | true =>
      rw [turn_ended sys hended] at hturn
      cases hturn
    | false =>
      rw [turn_going sys hended] at hturn
      rcases h.running hended with hf | hw
      · exact step_visits hB h hs hf.visits (hf.arrives (by omega)) hturn
      · by_cases hoff : p.it.dwOffset < p.it.loadedSize
        · rw [visit_of_not fun hv => Nat.not_le.mpr hoff hv.1] at hturn
          exact step_parse ha hB h hw hs hoff hturn
        · by_cases hask : AsksSize b p.it
          · rw [visit_of_not fun hv => hv.2 hask] at hturn
            exact step_asks ha hB h hw hs hask hturn
          · have hv : VisitsBlock b p.it := ⟨Nat.not_lt.mp hoff, hask⟩
            exact step_visits hB h hs hv (hw.arrives ha h8 hB h.inv hv) hturn

theorem scalesOn (ha : Addressable b sys.data.length) (h8 : 8 ≤ b.stHead.dwBlockSize.toNat)
    (hB : b.stHead.dwBlockSize.toNat < 2 ^ 31) (hs : Readable b sys) : ScalesOn b sys := by
  have hpass := (passInv_inductive ha h8 hB hs).reachable
  refine ⟨fun it hr => ?_, fun p hr => (hpass p hr).ordered.visits, fun p hr => (hpass p hr).ordered.increase,
    fun p hr => ?_⟩
  · have hi := (inv_inductive (by omega)).reachable it hr
    simp only [hi.next_eq]
    exact turns_end ha h8 hB hs hi
  · have hord := (hpass p hr).ordered
    rw [hord.places]
    exact hord.increase.imp Nat.ne_of_lt

/-! ## Files that end too late -/

/-- A file of `size` bytes that are all `c`. -/
def filled (size : Nat) (c : UInt8) : Sys where
  data := List.replicate size c
  desc _ := some ⟨0, true⟩

theorem filled_readable (b : Binlog) (size : Nat) (c : UInt8) : Readable b (filled size c) := ⟨_, rfl⟩

theorem length_filled (size : Nat) (c : UInt8) : (filled size c).data.length = size := List.length_replicate

theorem length_block_filled (b : Binlog) (size : Nat) (c : UInt8) (idx : Nat) :
    (blockBytes b (filled size c) idx).length = min b.stHead.dwBlockSize.toNat (size - blockOffset b idx) := by
  rw [length_blockBytes, length_filled]

theorem block_filled {c : UInt8} (h : 0 < (blockBytes b (filled size c) idx).length) :
    (blockBytes b (filled size c) idx)[0]? = some c := by
  have hrep : blockBytes b (filled size c) idx = List.replicate (blockBytes b (filled size c) idx).length c := by
    simp [blockBytes, filled, List.drop_replicate, List.take_replicate]
  rw [hrep, List.getElem?_replicate, if_pos h]

/-- The pass skipped block `k`, and every block before it. -/
structure Skipped (b : Binlog) (k : Nat) (p : Pass) : Prop where
  inv : Inv b p.it
  going : p.ended = false
  index : p.it.dwBlockIndex = k
  off : p.it.dwOffset = b.stHead.dwBlockSize.toNat
  blocks : p.blocks = (List.range (k + 1)).map (blockStart b)
  behind : ∀ o ∈ p.offsets, o < blockStart b k

theorem Skipped.visits (h : Skipped b k p) : VisitsBlock b p.it := by
  have hle := h.inv.loaded
  have hoff := h.off
  exact ⟨by omega, fun hask => Nat.not_lt.mpr (Nat.le_of_eq hoff.symm) hask.2.1⟩

theorem Skipped.preadIndex (h : Skipped b k p) : preadIndex b p.it = u32 (k + 1) := by
  rw [Binlog.preadIndex, if_pos (Nat.le_of_eq h.off.symm), h.index]

theorem Skipped.arrives (h : Skipped b k p) (h8 : 8 ≤ b.stHead.dwBlockSize.toNat) (hk : k < lastBlock b) :
    Arrives b p := by
  have hK := lastBlock_lt h8
  have hnext := blockStart_mono b (show k + 1 ≤ lastBlock b from hk)
  have hlast := blockStart_lastBlock b
  have hidx : Binlog.preadIndex b p.it = k + 1 := h.preadIndex.trans (u32_of_lt (by omega))
  constructor
  · rw [hidx]
    exact blockOffset_eq (by omega)
  · rw [hidx]
    exact h.blocks
  · intro o ho
    rw [hidx]
    exact Nat.lt_of_lt_of_le (h.behind o ho) (blockStart_mono b (Nat.le_succ k))

/-- A block without a head is skipped. -/
theorem skips_block (hB : b.stHead.dwBlockSize.toNat < 2 ^ 31) (hi : Inv b p.it) (hgoing : p.ended = false)
    (hv : VisitsBlock b p.it) (harr : Arrives b p) (hsize : blockStart b (preadIndex b p.it) < size)
    (hoff : p.it.dwOffset = b.stHead.dwBlockSize.toNat ∨ blockStart b (preadIndex b p.it) + 8 ≤ size)
    (h8 : 8 ≤ b.stHead.dwBlockSize.toNat) :
    ∃ p', p.turn b (filled size 0) = some p' ∧ Skipped b (preadIndex b p.it) p' := by
  have hs := filled_readable b size 0
  have hlen := length_block_filled b size 0 (preadIndex b p.it)
  rw [harr.start] at hlen
  have hinv := (turn_sound hi hs readOk_pread).inv
  rw [turn_going _ hgoing, visit_of_visits hv]
  cases turn_visits hi hs hB hv with
  | ends x ht h0 => omega
  | short x ht hx _ hlt =>
    have hfull : p.it.dwOffset = b.stHead.dwBlockSize.toNat := hoff.resolve_right (by omega)
    have hix := hinv x (by rw [ht]; rfl)
    rw [ht]
    exact ⟨_, rfl, hix, rfl, hx.index, hx.off.trans hfull, harr.visited, harr.behind⟩
  | skips x ht hx _ _ =>
    have hix := hinv x (by rw [ht]; rfl)
    rw [ht]
    exact ⟨_, rfl, hix, hgoing, hx.index, hx.off, harr.visited, harr.behind⟩
  | goesOn x ht hx _ hhead =>
    rw [block_filled (by omega)] at hhead
    exact absurd hhead (by decide)

theorem reaches_block (h8 : 8 ≤ b.stHead.dwBlockSize.toNat) (hB : b.stHead.dwBlockSize.toNat < 2 ^ 31)
    (hsize : blockStart b (lastBlock b) < size) (hk : k ≤ lastBlock b) :
    ∃ p, (pass b (filled size 0)).Reachable p ∧ Skipped b k p := by
  have hK := lastBlock_lt h8
  have hlast := blockStart_lastBlock b
  induction k with
  | zero =>
    have hfresh : Fresh (⟨getIterator b fun _ => 0, [], [], [], false⟩ : Pass) := ⟨⟨rfl, rfl, rfl⟩, rfl, rfl⟩
    have harr := hfresh.arrives (b := b) (by omega)
    have hidx : preadIndex b (getIterator b fun _ => 0) = 0 := preadIndex_of_lt (show 0 < _ by omega)
    -- the file does not end in the first block
    have hfirst := blockStart_mono b (lastBlock_pos h8 hB)
    rw [blockStart_succ] at hfirst
    have hin : blockStart b (preadIndex b (getIterator b fun _ => 0)) + 8 ≤ size := by
      rw [hidx]
      omega
    obtain ⟨p', hp', hskip⟩ := skips_block hB (inv_getIterator _) rfl hfresh.visits harr
      (Nat.lt_of_lt_of_le (Nat.lt_add_of_pos_right (by decide)) hin) (.inr hin) h8
    rw [hidx] at hskip
    exact ⟨p', .step (l := ()) (.init ⟨_, rfl⟩) hp', hskip⟩
  | succ k ih =>
    obtain ⟨p, hr, hp⟩ := ih (Nat.le_of_succ_le hk)
    have hidx : preadIndex b p.it = k + 1 := hp.preadIndex.trans (u32_of_lt (by omega))
    have hle := blockStart_mono b hk
    have hin : blockStart b (preadIndex b p.it) < size := by
      rw [hidx]
      omega
    obtain ⟨p', hp', hskip⟩ := skips_block hB hp.inv hp.going hp.visits (hp.arrives h8 hk) hin (.inl hp.off) h8
    rw [hidx] at hskip
    exact ⟨p', .step (l := ()) hr hp', hskip⟩

/-- Whatever a turn does that reads a block, the block was visited. -/
theorem visit_blocks (hB : b.stHead.dwBlockSize.toNat < 2 ^ 31) (hi : Inv b p.it) (hs : Readable b sys)
    (hgoing : p.ended = false) (hv : VisitsBlock b p.it) :
    ∃ p', p.turn b sys = some p' ∧ p'.blocks = p.blocks ++ [blockOffset b (preadIndex b p.it)] := by
  rw [turn_going _ hgoing, visit_of_visits hv]
  cases turn_visits hi hs hB hv with
  | ends x ht _ | short x ht _ _ _ | skips x ht _ _ _ | goesOn x ht _ _ _ =>
    rw [ht]
    exact ⟨_, rfl, rfl⟩

/-- The block behind the last one is read at an offset that wrapped. -/
theorem pass_wraps (h8 : 8 ≤ b.stHead.dwBlockSize.toNat) (hB : b.stHead.dwBlockSize.toNat < 2 ^ 31)
    (hsize : blockStart b (lastBlock b) < size) :
    ∃ p, (pass b (filled size 0)).Reachable p ∧
      p.blocks = (List.range (lastBlock b + 1)).map (blockStart b) ++ [blockOffset b (lastBlock b + 1)] := by
  have hK := lastBlock_lt h8
  obtain ⟨p, hr, hp⟩ := reaches_block h8 hB hsize (Nat.le_refl _)
  obtain ⟨p', hp', hblocks⟩ := visit_blocks hB hp.inv (filled_readable b size 0) hp.going hp.visits
  have hidx : preadIndex b p.it = lastBlock b + 1 := hp.preadIndex.trans (u32_of_lt (by omega))
  refine ⟨p', .step (l := ()) hr hp', ?_⟩
  rw [hblocks, hidx, hp.blocks]

theorem Scales.last (h : Scales b size) (h8 : 8 ≤ b.stHead.dwBlockSize.toNat)
    (hB : b.stHead.dwBlockSize.toNat < 2 ^ 31) : size ≤ blockStart b (lastBlock b) := by
  by_contra hlt
  obtain ⟨p, hr, hp⟩ := pass_wraps h8 hB (Nat.not_le.mp hlt)
  obtain ⟨n, hn⟩ := (h _ (filled_readable b size 0) (length_filled size 0)).visits p hr
  have hlen : n = lastBlock b + 2 := by
    have := congrArg List.length (hn.symm.trans hp)
    simpa using this
  rw [hp, hlen, starts_succ b (lastBlock b + 1), List.append_cancel_left_eq] at hn
  have hwrap : blockOffset b (lastBlock b + 1) = blockStart b (lastBlock b + 1) := List.head_eq_of_cons_eq hn
  have hlt : blockOffset b (lastBlock b + 1) < 2 ^ 32 := Nat.mod_lt _ (by decide)
  have hbehind := blockStart_behind (b := b) (by omega)
  omega

/-! ## The reload that never ends -/

/-- The bytes up to the cursor are not all there, and where the cursor is wraps to 0. -/
structure Stuck (b : Binlog) (size idx : Nat) (it : BinlogIterator) : Prop where
  inv : Inv b it
  index : it.dwBlockIndex = idx
  off : blockOffset b idx + it.dwOffset = 2 ^ 32
  real : it.dwRealSize = 0 ∨ it.dwRealSize = (size - blockOffset b idx : Nat)

theorem stuck_turn (hB : b.stHead.dwBlockSize.toNat < 2 ^ 31) (hin : blockOffset b idx + 8 ≤ size)
    (hsize : size < 2 ^ 32) (hwrap : 2 ^ 32 < blockOffset b idx + b.stHead.dwBlockSize.toNat)
    (h : Stuck b size idx it) :
    ∃ x, turn b (filled size blockheadMagic) readOk it = .again x ∧ Stuck b size idx x := by
  have hs := filled_readable b size blockheadMagic
  have hoff := h.off
  have hinv := (turn_sound h.inv hs readOk_pread).inv
  have hlt : it.dwOffset < b.stHead.dwBlockSize.toNat := by omega
  have hpread : preadIndex b it = idx := (preadIndex_of_lt hlt).trans h.index
  have hlen : (blockBytes b (filled size blockheadMagic) idx).length = size - blockOffset b idx := by
    rw [length_block_filled]
    omega
  rcases h.real with hreal | hreal
  · have hzero : it.loadedSize = 0 := loadedSize_of_real hreal (by decide)
    have hv : VisitsBlock b it := ⟨by omega, fun hask => by
      have hpos := hask.2.2.1
      omega⟩
    have hcases := turn_visits h.inv hs hB hv
    rw [hpread] at hcases
    cases hcases with
    | ends x ht h0 => omega
    | short x ht _ _ h8 => omega
    | skips x ht _ _ hhead => exact absurd (block_filled (by omega)) hhead
    | goesOn x ht hx _ _ =>
      have hstay : parseFrom b it.dwOffset = it.dwOffset := if_neg fun hor => by
        rcases hor with hge | hsmall
        · omega
        · have h8 : it.dwOffset < 8 := hsmall
          omega
      refine ⟨x, ht, hinv x (by rw [ht]; rfl), hx.index, ?_, .inr (by rw [hx.real, hlen])⟩
      rw [hx.off, hstay]
      exact hoff
  · have hloaded : it.loadedSize = size - blockOffset b idx := loadedSize_of_real hreal (by omega)
    have hask : AsksSize b it := ⟨by omega, hlt, by omega, by omega⟩
    have hzero : u32 (blockOffset b it.dwBlockIndex + it.dwOffset) < (filled size blockheadMagic).data.length := by
      rw [h.index, hoff, length_filled]
      show 2 ^ 32 % 2 ^ 32 < size
      omega
    have ht := turn_asks h.inv hs hB hask hzero
    rw [h.index, if_neg (by omega), if_neg (by omega)] at ht
    refine ⟨_, ht, hinv _ (by rw [ht]; rfl), h.index, hoff, .inr ?_⟩
    rw [(fill_at it (show _ < 2 ^ 31 by omega)).real, hlen]

theorem stuck_turns (hB : b.stHead.dwBlockSize.toNat < 2 ^ 31) (hin : blockOffset b idx + 8 ≤ size)
    (hsize : size < 2 ^ 32) (hwrap : 2 ^ 32 < blockOffset b idx + b.stHead.dwBlockSize.toNat)
    (h : Stuck b size idx it) : turns b (filled size blockheadMagic) (fun _ => readOk) n it = none := by
  induction n generalizing it with
  | zero => rfl
  | succ n ih =>
    obtain ⟨x, ht, hx⟩ := stuck_turn hB hin hsize hwrap h
    simp only [turns, ht]
    exact ih hx

theorem stuck_getIteratorAt (mem : Nat → UInt8) (h8 : 8 ≤ b.stHead.dwBlockSize.toNat)
    (hB : b.stHead.dwBlockSize.toNat < 2 ^ 31) (hidx : idx < 2 ^ 32)
    (hwrap : 2 ^ 32 < blockOffset b idx + b.stHead.dwBlockSize.toNat) :
    Stuck b size idx (getIteratorAt b mem ((blockStart b idx + (2 ^ 32 - blockOffset b idx) : Nat) : Int)) := by
  have hr : blockOffset b idx < 2 ^ 32 := Nat.mod_lt _ (by decide)
  obtain ⟨off, hoff⟩ : ∃ off, 2 ^ 32 - blockOffset b idx = off := ⟨_, rfl⟩
  have hlt : off < b.stHead.dwBlockSize.toNat := by omega
  have hge : ¬((blockStart b idx + off : Nat) : Int) < (b.stHead.wDataOffset.toNat : Int) := by
    unfold blockStart
    omega
  have hsub : (((blockStart b idx + off : Nat) : Int) - (b.stHead.wDataOffset.toNat : Int)).toNat =
      b.stHead.dwBlockSize.toNat * idx + off := by
    unfold blockStart
    omega
  have hdiv : u32 ((b.stHead.dwBlockSize.toNat * idx + off) / b.stHead.dwBlockSize.toNat) = idx := by
    rw [Nat.mul_add_div (by omega), Nat.div_eq_of_lt hlt]
    exact u32_of_lt hidx
  have hmod : u32 ((b.stHead.dwBlockSize.toNat * idx + off) % b.stHead.dwBlockSize.toNat) = off := by
    rw [Nat.mul_add_mod, Nat.mod_eq_of_lt hlt]
    exact u32_of_lt (by omega)
  rw [hoff]
  refine ⟨inv_getIteratorAt mem _ (by omega), ?_, ?_, .inl ?_⟩
  · simp only [getIteratorAt, if_neg hge, hsub, hdiv]
  · simp only [getIteratorAt, if_neg hge, hsub, hmod]
    omega
  · simp only [getIteratorAt, if_neg hge]
    rfl

theorem Scales.whole (h : Scales b size) (h8 : 8 ≤ b.stHead.dwBlockSize.toNat)
    (hB : b.stHead.dwBlockSize.toNat < 2 ^ 31) (idx : Nat) (hin : blockOffset b idx + 8 ≤ size) :
    blockOffset b idx + b.stHead.dwBlockSize.toNat ≤ 2 ^ 32 := by
  by_contra hwrap
  have hsize := Nat.lt_of_le_of_lt (h.last h8 hB) (blockStart_lastBlock b)
  rw [← blockOffset_u32] at hin hwrap
  have hstuck := @stuck_getIteratorAt b (u32 idx) size (fun _ => 0) h8 hB (Nat.mod_lt idx (by decide))
    (Nat.not_le.mp hwrap)
  obtain ⟨n, r, hr⟩ := (h _ (filled_readable b size blockheadMagic) (length_filled size _)).ends _
    (.init ⟨_, .inr ⟨_, rfl⟩⟩)
  rw [hstuck.inv.next_eq, stuck_turns hB hin hsize (Nat.not_le.mp hwrap) hstuck] at hr
  cases hr

/-! ## Scaling -/

/-- One block less than 2^32 bytes is enough. -/
theorem addressable_of_le (hB : 0 < b.stHead.dwBlockSize.toNat) (h : size + b.stHead.dwBlockSize.toNat ≤ 2 ^ 32) :
    Addressable b size := by
  have hbehind := blockStart_behind hB
  rw [blockStart_succ] at hbehind
  exact ⟨by omega, fun idx hin => by omega⟩

/-- Reading scales exactly to the files whose blocks have offsets below 2^32. -/
theorem scales_iff (h8 : 8 ≤ b.stHead.dwBlockSize.toNat) (hB : b.stHead.dwBlockSize.toNat < 2 ^ 31) :
    Scales b size ↔ Addressable b size := by
  constructor
  · intro h
    exact ⟨h.last h8 hB, h.whole h8 hB⟩
  · intro ha sys hs hsize
    rw [← hsize] at ha
    exact scalesOn ha h8 hB hs

/-- Blocks of 16 MB behind a head of 4096 bytes. -/
def wideLog : Binlog where
  fdBinlog := 3
  stHead :=
    { cMagic := headMagic, wVersion := headVersion, wDataOffset := 4096, dwBlockSize := 16777216, dwCreateTime := 0 }

theorem scales_iff_wide : Scales wideLog (2 ^ 32 - 2 ^ 24) :=
  (scales_iff (by decide) (by decide)).mpr (addressable_of_le (by decide) (by decide))

/-- In a file of 4 GB the block behind the last one is block 0 again. -/
theorem block_read_twice : 8 ≤ wideLog.stHead.dwBlockSize.toNat ∧ wideLog.stHead.dwBlockSize.toNat < 2 ^ 31 ∧
    (∃ p, (pass wideLog (filled (2 ^ 32) 0)).Reachable p ∧ ¬p.blocks.Nodup) ∧ ¬Scales wideLog (2 ^ 32) := by
  have h8 : 8 ≤ wideLog.stHead.dwBlockSize.toNat := by decide
  have hB : wideLog.stHead.dwBlockSize.toNat < 2 ^ 31 := by decide
  have hlast : lastBlock wideLog = 255 := by decide
  obtain ⟨p, hr, hp⟩ := pass_wraps h8 hB (blockStart_lastBlock wideLog)
  rw [hlast] at hp
  refine ⟨h8, hB, ⟨p, hr, fun hnodup => ?_⟩, fun h => ?_⟩
  · have hagain : blockOffset wideLog 256 = blockStart wideLog 0 := by decide
    rw [hp, hagain] at hnodup
    exact (List.nodup_append.mp hnodup).2.2 _ (List.mem_map_of_mem (List.mem_range.mpr (show 0 < 256 by decide))) _
      List.mem_cons_self rfl
  · have hle := h.last h8 hB
    have hlt := blockStart_lastBlock wideLog
    omega

end SimpleSvr.L3.Binlog
