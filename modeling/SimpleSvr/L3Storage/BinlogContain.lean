import SimpleSvr.Core.LTS
import SimpleSvr.L3Storage.BinlogLayout

/-!
# Records stay in their blocks

`contained`: as long as every payload fits into a block with both heads or is
refused by the size check of `Write`, every stored record lies in one block
behind its head, and every block has a head. The check compares the record
with the whole block, so a payload of up to 8 bytes more passes as well:
`overlong_stored` is what happens to it in an empty file, and `crosses_block`
is such a write.
-/
namespace SimpleSvr.L3

/-- One `Write`: what it returned, and the file before and after it. -/
structure WriteCall where
  buffer : Bytes
  ret : Int
  before : Bytes
  after : Bytes

structure Writer where
  binlog : Binlog
  sys : Sys
  calls : List WriteCall

namespace Binlog

inductive WriterStep : Writer → Bytes × UInt32 → Writer → Prop
  | write {s : Writer} {p : Bytes} {time : UInt32} {sys : Sys} {v : Int}
      (h : write s.binlog s.sys ⟨true, true, .full, time⟩ p = some (sys, v)) :
      WriterStep s (p, time) { s with sys, calls := s.calls ++ [⟨p, v, s.sys.data, sys.data⟩] }

def writer (B : UInt32) : LTS Writer (Bytes × UInt32) where
  init s := ∃ b₀ sys₀ fd time, fd ≠ -1 ∧
    createLog b₀ sys₀ ⟨some fd, true, time, .full⟩ B = (s.binlog, s.sys, 0) ∧ s.calls = []
  step := WriterStep

/-- The payload fits into a block with both heads, or `Write` sees that it does not. -/
def Admissible (B : Nat) (p : Bytes) : Prop := p.length + 14 ≤ B ∨ B < u32 (getLogSize p.length)

instance (B : Nat) (p : Bytes) : Decidable (Admissible B p) := inferInstanceAs (Decidable (_ ∨ _))

/-- The record of a call is in one block, behind its head. -/
def InBlock (B : Nat) (data : Bytes) (c : WriteCall) : Prop :=
  ∃ o k, c.ret = ((o : Nat) : Int) ∧ 4096 + k * B + 8 ≤ o ∧ o + (c.buffer.length + 6) ≤ 4096 + (k + 1) * B ∧
    record c.buffer <+: data.drop o

structure Contained (B : Nat) (s : Writer) : Prop where
  stored : ∀ c ∈ s.calls, c.ret ≠ -1 → InBlock B s.sys.data c
  heads : ∀ k, 4096 + k * B < s.sys.data.length → s.sys.data[4096 + k * B]? = some blockheadMagic
  refused : ∀ c ∈ s.calls, B < c.buffer.length + 14 → c.ret = -1 ∧ c.after = c.before

variable {B i k : Nat} {l : List Entry} {e : Entry} {s s' : Writer} {b : Binlog} {sys : Sys} {head Z p : Bytes}
  {app : Bool}

/-! ## Block heads -/

/-- Between two lengths of the area there is at most the boundary the chunk fills. -/
theorem chunk_head {n : Nat} {r : Bytes} {t : UInt32} (hr : r.length + 8 ≤ B) (h0 : 0 < r.length) (hn : n ≤ B * k)
    (hk : B * k < n + (chunk B n (blockHeadBuf t) r).length) :
    (chunk B n (blockHeadBuf t) r)[B * k - n]? = some blockheadMagic := by
  have hB : 0 < B := by omega
  have hd := Nat.div_add_mod n B
  have hlt := Nat.mod_lt n hB
  have hhead : (blockHeadBuf t)[0]? = some blockheadMagic := by rw [blockHeadBuf_eq]; rfl
  have hlen := length_blockHeadBuf t
  have hup : B * (n / B) < B * k → B * (n / B + 1) ≤ B * k := fun h =>
    Nat.mul_le_mul_left B (Nat.lt_of_mul_lt_mul_left h)
  have hdown : B * k < B * (n / B + 1) + B → B * k ≤ B * (n / B + 1) := fun h =>
    Nat.mul_le_mul_left B (Nat.le_of_lt_succ (Nat.lt_of_mul_lt_mul_left (by rwa [Nat.mul_succ B (n / B + 1)])))
  rw [Nat.mul_succ] at hup hdown
  unfold chunk added at hk ⊢
  split at hk
  · next hz =>
    rw [List.length_append, hlen] at hk
    rw [if_pos hz, show B * k - n = 0 by omega, List.getElem?_append_left (by omega), hhead]
  · next hz =>
    split at hk
    · next hpad =>
      simp only [Bool.false_eq_true, if_false, List.length_append, List.length_replicate, hlen] at hk
      rw [if_neg hz, if_pos hpad, show B * k - n = B - n % B by omega]
      simp only [Bool.false_eq_true, if_false]
      rw [List.append_assoc, List.getElem?_append_right (Nat.le_of_eq List.length_replicate), List.length_replicate,
        Nat.sub_self, List.getElem?_append_left (by omega), hhead]
    · omega

/-- Every block that was started has a head. -/
theorem area_heads (hl : Fits B l) (hk : B * k < (area B l).length) : (area B l)[B * k]? = some blockheadMagic := by
  induction l using List.reverseRecOn with
  | nil => exact absurd hk (Nat.not_lt_zero _)
  | append_singleton l e ih =>
    have he := hl e (by simp)
    rw [area_concat] at hk ⊢
    by_cases hlt : B * k < (area B l).length
    · rw [List.getElem?_append_left hlt]
      exact ih (fun e' he' => hl e' (List.mem_append_left _ he')) hlt
    · rw [List.length_append] at hk
      rw [List.getElem?_append_right (Nat.not_lt.mp hlt)]
      exact chunk_head (by rw [length_record]; omega) (by rw [length_record]; omega) (Nat.not_lt.mp hlt) hk

/-! ## Runs of admissible writes -/

/-- The stored calls are the entries of `l`. -/
structure WriterInv (B : Nat) (s : Writer) (l : List Entry) : Prop where
  handle : ∃ head, Handle s.binlog s.sys false B head (area B l)
  fits : Fits B l
  stored : ∀ c ∈ s.calls, c.ret ≠ -1 → ∃ i e, l[i]? = some e ∧ c.buffer = e.2 ∧
    c.ret = ((4096 + place B (endOf B l i) (e.2.length + 6) : Nat) : Int)
  refused : ∀ c ∈ s.calls, B < c.buffer.length + 14 → c.ret = -1 ∧ c.after = c.before

theorem WriterInv.holds (h : WriterInv B s l) : Contained B s := by
  obtain ⟨head, hh⟩ := h.handle
  refine ⟨fun c hc hret => ?_, fun k hk => ?_, h.refused⟩
  · obtain ⟨i, e, he, hbuf, hret⟩ := h.stored c hc hret
    have hfit := fits_get h.fits he
    obtain ⟨h8, hend⟩ := place_fits (n := endOf B l i) (r := e.2.length + 6) (by omega) (by omega)
      (endOf_settled h.fits)
    have hd := Nat.div_add_mod (place B (endOf B l i) (e.2.length + 6)) B
    rw [Nat.mul_comm] at hd
    refine ⟨_, place B (endOf B l i) (e.2.length + 6) / B, hret, by omega, ?_, ?_⟩
    · rw [Nat.succ_mul, hbuf]
      omega
    · rw [hbuf, hh.data, ← List.drop_drop, ← hh.head, List.drop_left]
      exact record_at he
  · rw [hh.data, List.length_append, hh.head, Nat.mul_comm] at hk
    rw [hh.data, ← hh.head, List.getElem?_append_right (Nat.le_add_right _ _), Nat.add_sub_cancel_left, Nat.mul_comm]
    exact area_heads h.fits (by omega)

theorem writerInv_init {B : UInt32} (h : (writer B).init s) : WriterInv B.toNat s [] := by
  obtain ⟨b₀, sys₀, fd, time, hfd, hc, hcalls⟩ := h
  obtain ⟨b, sys, hc', hh, -⟩ := createLog_spec b₀ sys₀ hfd B time
  cases hc.symm.trans hc'
  refine ⟨⟨_, hh⟩, (fun _ h => nomatch h), ?_, ?_⟩ <;> simp [hcalls]

/-- An admissible write returns, and keeps the invariant. -/
theorem writerInv_write (h : WriterInv B s l) (p : Bytes) (time : UInt32) (ha : Admissible B p) :
    ∃ s', WriterStep s (p, time) s' ∧ ∃ l', WriterInv B s' l' := by
  obtain ⟨head, hh⟩ := h.handle
  by_cases hfit : p.length + 14 ≤ B
  · obtain ⟨sys, hw, hh'⟩ := write_spec hh hfit time
    refine ⟨_, .write hw, l ++ [(time, p)], ⟨⟨head, by rw [area_concat]; exact hh'⟩, ?_, ?_, ?_⟩⟩
    · refine h.fits.append fun e he => ?_
      rw [List.mem_singleton.mp he]
      exact hfit
    · intro c hc hret
      obtain hc | hc := List.mem_append.mp hc
      · obtain ⟨i, e, he, hbuf, hret⟩ := h.stored c hc hret
        have hi : i < l.length := (List.getElem?_eq_some_iff.mp he).1
        exact ⟨i, e, by rw [List.getElem?_append_left hi, he], hbuf, by rw [endOf_append _ (Nat.le_of_lt hi), hret]⟩
      · rw [List.mem_singleton.mp hc]
        refine ⟨l.length, (time, p), by simp, rfl, ?_⟩
        rw [endOf, List.take_left]
    · intro c hc hbig
      obtain hc | hc := List.mem_append.mp hc
      · exact h.refused c hc hbig
      · rw [List.mem_singleton.mp hc] at hbig
        exact absurd hbig (Nat.not_lt.mpr hfit)
  · have hw := write_rejects hh (ha.resolve_left hfit) ⟨true, true, .full, time⟩
    refine ⟨_, .write hw, l, ⟨⟨head, hh⟩, h.fits, ?_, ?_⟩⟩
    · intro c hc hret
      obtain hc | hc := List.mem_append.mp hc
      · exact h.stored c hc hret
      · rw [List.mem_singleton.mp hc] at hret
        exact absurd rfl hret
    · intro c hc hbig
      obtain hc | hc := List.mem_append.mp hc
      · exact h.refused c hc hbig
      · rw [List.mem_singleton.mp hc]
        exact ⟨rfl, rfl⟩

theorem writer_inductive (B : UInt32) :
    ((writer B).guard fun _ a => Admissible B.toNat a.1).Inductive fun s => ∃ l, WriterInv B.toNat s l where
  init _ h := ⟨[], writerInv_init h⟩
  step := by
    rintro s ⟨p, time⟩ s' ⟨l, h⟩ ⟨ha, hs⟩
    obtain ⟨s₁, hs₁, h₁⟩ := writerInv_write h p time ha
    cases hs with
    | write hw =>
      cases hs₁ with
      | write hw₁ =>
        cases hw.symm.trans hw₁
        exact h₁

/-! ## A payload that only the size check lets through -/

/-- In an empty file it is stored, and runs over the end of the first block. -/
theorem overlong_stored (h : Handle b sys false B head []) (hB : 0 < B) (hp : u32 (getLogSize p.length) ≤ B)
    (time : UInt32) :
    ∃ sys', write b sys ⟨true, true, .full, time⟩ p = some (sys', ((4096 + 8 : Nat) : Int)) ∧
      Handle b sys' false B head (blockHeadBuf time ++ record p) := by
  obtain ⟨pos, hd, hpos⟩ := h.desc
  have hlen : sys.data.length = 4096 + 0 := by rw [h.data, List.length_append, h.head, List.length_nil]
  have hrem : remainSize b.stHead (4096 + 0) = B := by
    rw [remainSize_eq h.offset h.block hB, Nat.zero_mod, Nat.sub_zero]
  have hne : blockHeadBuf time ++ record p ≠ [] := by simp [record]
  obtain ⟨sys', e, h'⟩ := writevAt_spec h sys 0 rfl hd hpos hne time (4096 + 8)
  refine ⟨sys', ?_, by simpa using h'⟩
  unfold write
  simp only [h.fd, h.block, Sys.size_ok hd, hlen, hrem, Nat.ne_of_gt hB, if_false, if_true, Nat.not_lt.mpr hp,
    blockheadSize, Nat.add_zero]
  rw [e]

/-! ## Containment -/

/-- In a run of admissible writes every record is in a block, every block has a head,
and what is too long is refused; each such write returns. -/
theorem contained (B : UInt32) (s : Writer)
    (h : ((writer B).guard fun _ a => Admissible B.toNat a.1).Reachable s) :
    Contained B.toNat s ∧
      ∀ p time, Admissible B.toNat p → ∃ s', WriterStep s (p, time) s' := by
  obtain ⟨l, hl⟩ := (writer_inductive B).reachable s h
  refine ⟨hl.holds, fun p time ha => ?_⟩
  obtain ⟨s', hs, -⟩ := writerInv_write hl p time ha
  exact ⟨s', hs⟩

/-- A payload that is stored, and one that is refused. -/
theorem contained_run : ∃ s, ((writer 20).guard fun _ a => Admissible 20 a.1).Reachable s ∧
    s.calls.map WriteCall.buffer = [[7], List.replicate 15 0] ∧ Contained 20 s := by
  obtain ⟨b, sys, hc, -, -⟩ := createLog_spec unopened noFile (show (3 : Int) ≠ -1 by decide) 20 0
  have hinit : (writer 20).init ⟨b, sys, []⟩ := ⟨unopened, noFile, 3, 0, by decide, hc, rfl⟩
  have a₁ : Admissible 20 [7] := by decide
  have a₂ : Admissible 20 (List.replicate 15 0) := by decide
  have r₀ : ((writer 20).guard fun _ a => Admissible 20 a.1).Reachable _ := .init hinit
  obtain ⟨s₁, h₁, l₁, i₁⟩ := writerInv_write (writerInv_init hinit) [7] 0 a₁
  obtain ⟨s₂, h₂, -⟩ := writerInv_write i₁ (List.replicate 15 0) 0 a₂
  have r₂ := (r₀.allowed h₁ a₁).allowed h₂ a₂
  refine ⟨s₂, r₂, ?_, (contained 20 s₂ r₂).1⟩
  cases h₁
  cases h₂
  rfl

/-- Four bytes in blocks of ten. -/
theorem crosses_block : ∃ s, (writer 10).Reachable s ∧ s.calls.map WriteCall.buffer = [[1, 2, 3, 4]] ∧
    ¬Contained 10 s := by
  obtain ⟨b, sys, hc, h, -⟩ := createLog_spec unopened noFile (show (3 : Int) ≠ -1 by decide) 10 0
  have hinit : (writer 10).init ⟨b, sys, []⟩ := ⟨unopened, noFile, 3, 0, by decide, hc, rfl⟩
  obtain ⟨sys', hw, -⟩ := overlong_stored (p := [1, 2, 3, 4]) h (by decide) (by decide) 0
  refine ⟨_, .step (.init hinit) (.write hw), rfl, fun hcon => ?_⟩
  obtain ⟨o, k, hret, hlow, hup, -⟩ := hcon.stored _ List.mem_cons_self (by simp)
  have ho : ((4096 + 8 : Nat) : Int) = (o : Int) := hret
  have hlen : o + 10 ≤ 4096 + (k + 1) * 10 := hup
  omega

end Binlog
end SimpleSvr.L3
