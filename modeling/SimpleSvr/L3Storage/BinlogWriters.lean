import SimpleSvr.L3Storage.BinlogLayout
import SimpleSvr.Core.LTS
import Mathlib.Logic.Function.Basic

/-!
# Processes that write one log (`Binlog.cc`, `Application.hpp`, `Pool.cc`)

`AppRun` calls `Initialize` before the pool forks. A log that is created there is
written by every worker through one file description: they share its position.
`Write` takes the size of the file by `fstat`, moves over the padding by `lseek` and
stores by `writev`, three calls between which the others can make theirs.

`one_log`: whatever the interleaving, every record stays whole where it was stored,
and none is stored over another. But the offset that `Write` returns is where its
record is exactly when no other process moved the position from the `fstat` on, and
none had moved it without storing before. Where each `writev` comes so, the log is
the one that a single process writes.
-/
namespace SimpleSvr.L3

open Binlog (Entry)

/-- Where a process is in `Write`: behind `fstat`, at `lseek` or at `writev`. -/
inductive WritePc where
  | idle
  | lseek (e : Entry) (dwRemainSize : Nat) (iov : Bytes) (offset : Nat)
  | writev (e : Entry) (iov : Bytes) (offset : Nat)

/-- A record in the file: what `Write` returned, and where it starts. -/
structure Stored where
  entry : Entry
  offset : Nat
  place : Nat

/-- `alone`: the position was at the end of the file at the `fstat` of this process, and since then no other has
moved it. -/
structure Writers where
  sys : Sys
  pcs : Nat → WritePc := fun _ => .idle
  alone : Nat → Bool := fun _ => true
  stored : List Stored := []

namespace Writers
open Binlog

/-- The position of the file description. -/
def pos (b : Binlog) (s : Writers) : Nat := ((s.sys.desc b.fdBinlog).map Desc.pos).getD 0

/-- What `Write` sets up on a file of `stSize` bytes.
mirrors src/Binlog.cc:148-213 -/
def layout (b : Binlog) (e : Entry) (stSize : Nat) : WritePc :=
  let dwRemainSize := remainSize b.stHead stSize
  if dwRemainSize = b.stHead.dwBlockSize.toNat then
    .writev e (blockHeadBuf e.1 ++ record e.2) (stSize + blockheadSize)
  else if dwRemainSize < u32 (getLogSize e.2.length) then
    .lseek e dwRemainSize (blockHeadBuf e.1 ++ record e.2) (stSize + u32 (dwRemainSize + blockheadSize))
  else .writev e (record e.2) stSize

/-- mirrors src/Binlog.cc:135-148 -/
def fstat (b : Binlog) (s : Writers) (w : Nat) (ok : Bool) (e : Entry) : Option Writers :=
  if b.fdBinlog = -1 ∨ u32 (getLogSize e.2.length) > b.stHead.dwBlockSize.toNat then some s
  else
    match s.sys.size b.fdBinlog ok with
    | none => some s
    | some stSize =>
      if b.stHead.dwBlockSize.toNat = 0 then none    -- SIGFPE
      else some { s with
        pcs := Function.update s.pcs w (layout b e stSize)
        alone := Function.update s.alone w (s.pos b = stSize) }

/-- mirrors src/Binlog.cc:178-179 -/
def lseek (b : Binlog) (s : Writers) (w : Nat) (ok : Bool) (e : Entry) (dwRemainSize : Nat) (iov : Bytes)
    (offset : Nat) : Writers :=
  match s.sys.seekCur b.fdBinlog ok dwRemainSize with
  | none => { s with pcs := Function.update s.pcs w .idle }
  | some sys => { s with
      sys
      pcs := Function.update s.pcs w (.writev e iov offset)
      alone := fun v => v = w && s.alone v }

/-- mirrors src/Binlog.cc:215-218 -/
def writev (b : Binlog) (s : Writers) (w : Nat) (ok : Bool) (e : Entry) (iov : Bytes) (offset : Nat) : Writers :=
  match s.sys.write b.fdBinlog (if ok then .full else .fail) iov with
  | (sys, none) => { s with sys, pcs := Function.update s.pcs w .idle }
  | (sys, some _) =>
    let after : Writers := { s with
      sys
      pcs := Function.update s.pcs w .idle
      alone := fun v => v = w && s.alone v }
    { after with stored := s.stored ++ [⟨e, offset, after.pos b - (record e.2).length⟩] }

/-- The system calls of a `Write`, and whether they succeed. -/
inductive Label where
  | fstat (w : Nat) (ok : Bool) (e : Entry)
  | lseek (w : Nat) (ok : Bool)
  | writev (w : Nat) (ok : Bool)

def step (b : Binlog) (s : Writers) : Label → Option Writers
  | .fstat w ok e =>
    match s.pcs w with
    | .idle => s.fstat b w ok e
    | _ => none
  | .lseek w ok =>
    match s.pcs w with
    | .lseek e dwRemainSize iov offset => some (s.lseek b w ok e dwRemainSize iov offset)
    | _ => none
  | .writev w ok =>
    match s.pcs w with
    | .writev e iov offset => some (s.writev b w ok e iov offset)
    | _ => none

/-- The workers, behind the fork. -/
def writers (b : Binlog) (sys : Sys) : LTS Writers Label := .ofFn (fun s => s = { sys }) (step b)

/-- The payload fits into a block with both heads. -/
def Fitting (B : Nat) (_ : Writers) : Label → Prop
  | .fstat _ _ e => e.2.length + 14 ≤ B
  | _ => True

/-- Nobody stores behind another's move. -/
def Undisturbed (s : Writers) : Label → Prop
  | .writev w true => s.alone w = true
  | _ => True

variable {b : Binlog} {sys : Sys} {B : Nat} {head : Bytes} {s s' : Writers} {w v : Nat} {e : Entry} {iov : Bytes}
  {offset n dwRemainSize base : Nat} {l : Label}

/-! ## What a write sets up -/

/-- The handle that `CreateLog` left. -/
structure Created (b : Binlog) (B : Nat) : Prop where
  fd : b.fdBinlog ≠ -1
  offset : b.stHead.wDataOffset.toNat = 4096
  block : b.stHead.dwBlockSize.toNat = B

/-- What `lseek` moves over. -/
def padding (B n r : Nat) : Nat := if Pads B n r then B - n % B else 0

/-- What a `Write` of `e` has set up on a data area of `n` bytes. -/
structure Plan (B : Nat) (e : Entry) (n : Nat) (iov : Bytes) (offset : Nat) : Prop where
  fits : e.2.length + 14 ≤ B
  chunk : List.replicate (padding B n (e.2.length + 6)) 0 ++ iov = chunk B n (blockHeadBuf e.1) (record e.2)
  iov : ∃ h, iov = h ++ record e.2 ∧ n + padding B n (e.2.length + 6) + h.length = place B n (e.2.length + 6)
  offset : offset = 4096 + place B n (e.2.length + 6)

theorem layout_plan (hc : Created b B) (hp : e.2.length + 14 ≤ B) (n : Nat) :
    ∃ iov offset, Plan B e n iov offset ∧ layout b e (4096 + n) =
      if Pads B n (e.2.length + 6) then .lseek e (B - n % B) iov offset else .writev e iov offset := by
  have hB : B < 2 ^ 32 := by rw [← hc.block]; exact b.stHead.dwBlockSize.toNat_lt
  have h0 : 0 < B := by omega
  have hlt := Nat.mod_lt n h0
  have hhead : (blockHeadBuf e.1).length = 8 := length_blockHeadBuf _
  have hlen : (record e.2).length = e.2.length + 6 := length_record _
  unfold layout
  simp only [remainSize_eq hc.offset hc.block h0, hc.block, u32_logSize hp hB, blockheadSize]
  by_cases hz : n % B = 0
  · have hpad : ¬Pads B n (e.2.length + 6) := fun h => h.1 hz
    simp only [if_neg hpad]
    rw [if_pos (by omega)]
    refine ⟨_, _, ⟨hp, ?_, ⟨_, rfl, ?_⟩, ?_⟩, rfl⟩
    · rw [padding, if_neg hpad, Binlog.chunk, added, if_pos hz]
      rfl
    · rw [padding, if_neg hpad, place, if_pos hz, hhead, Nat.add_zero]
    · rw [place, if_pos hz, Nat.add_assoc]
  · rw [if_neg (by omega)]
    by_cases hr : B - n % B < e.2.length + 6
    · have hpad : Pads B n (e.2.length + 6) := ⟨hz, hr⟩
      have hu : u32 (B - n % B + 8) = B - n % B + 8 := by
        unfold u32
        omega
      simp only [if_pos hpad]
      rw [if_pos hr, hu]
      refine ⟨_, _, ⟨hp, ?_, ⟨_, rfl, ?_⟩, ?_⟩, rfl⟩
      · rw [padding, if_pos hpad, Binlog.chunk, added, if_neg hz, hlen, if_pos hr, if_neg Bool.false_ne_true,
          List.append_assoc]
      · rw [padding, if_pos hpad, place, if_neg hz, if_pos hr, hhead]
      · rw [place, if_neg hz, if_pos hr]
        omega
    · have hpad : ¬Pads B n (e.2.length + 6) := fun h => hr h.2
      simp only [if_neg hpad]
      rw [if_neg hr]
      refine ⟨_, _, ⟨hp, ?_, ⟨[], rfl, ?_⟩, ?_⟩, rfl⟩
      · rw [padding, if_neg hpad, Binlog.chunk, added, if_neg hz, hlen, if_neg hr]
        rfl
      · rw [padding, if_neg hpad, place, if_neg hz, if_neg hr]
        rfl
      · rw [place, if_neg hz, if_neg hr]

theorem Plan.ne_nil (h : Plan B e n iov offset) : iov ≠ [] := by
  obtain ⟨h, rfl, -⟩ := h.iov
  simp [record_ne_nil]

theorem padding_of_pads {r : Nat} (h : Pads B n r) : padding B n r = B - n % B := if_pos h

/-! ## The records in the file -/

/-- Every record is whole where it was stored, none over another. -/
structure Intact (data : Bytes) (stored : List Stored) : Prop where
  whole : ∀ u ∈ stored, record u.entry.2 <+: data.drop u.place
  order : stored.Pairwise fun u v => u.place + (u.entry.2.length + 6) ≤ v.place

theorem record_inside {data p : Bytes} {o : Nat} (h : record p <+: data.drop o) :
    o + (p.length + 6) ≤ data.length := by
  have hle := h.length_le
  rw [length_record, List.length_drop] at hle
  omega

theorem Intact.append {data tail : Bytes} {stored : List Stored} {u : Stored} (h : Intact data stored)
    (hplace : data.length ≤ u.place) (hu : record u.entry.2 <+: (data ++ tail).drop u.place) :
    Intact (data ++ tail) (stored ++ [u]) where
  whole v hv := by
    rcases List.mem_append.mp hv with hv | hv
    · have hin := record_inside (h.whole v hv)
      rw [List.drop_append_of_le_length (by omega)]
      exact (h.whole v hv).trans (List.prefix_append _ _)
    · rw [List.mem_singleton.mp hv]
      exact hu
  order := by
    rw [List.pairwise_append]
    refine ⟨h.order, List.pairwise_singleton _ _, fun v hv x hx => ?_⟩
    rw [List.mem_singleton.mp hx]
    exact Nat.le_trans (record_inside (h.whole v hv)) hplace

/-! ## The processes and the position -/

/-- `w` has set up a write on a data area of `n` bytes, and its offset is right if the position is `base`. -/
structure Waits (b : Binlog) (B : Nat) (s : Writers) (w : Nat) (e : Entry) (iov : Bytes) (offset n base : Nat) :
    Prop where
  plan : Plan B e n iov offset
  le : base ≤ s.pos b
  alone : s.alone w = true ↔ s.pos b = base
  same : s.alone w = true → s.sys.data.length = 4096 + n

def Ready (b : Binlog) (B : Nat) (s : Writers) (w : Nat) : WritePc → Prop
  | .idle => True
  | .lseek e dwRemainSize iov offset =>
    ∃ n, Pads B n (e.2.length + 6) ∧ dwRemainSize = B - n % B ∧ Waits b B s w e iov offset n (4096 + n)
  | .writev e iov offset => ∃ n, Waits b B s w e iov offset n (4096 + n + padding B n (e.2.length + 6))

structure Inv (b : Binlog) (B : Nat) (s : Writers) : Prop where
  desc : s.sys.desc b.fdBinlog = some ⟨s.pos b, false⟩
  head : 4096 ≤ s.sys.data.length
  le : s.sys.data.length ≤ s.pos b
  ready : ∀ w, Ready b B s w (s.pcs w)
  intact : Intact s.sys.data s.stored

theorem pos_of_desc {p : Nat} {append : Bool} (h : s.sys.desc b.fdBinlog = some ⟨p, append⟩) : s.pos b = p := by
  rw [pos, h]
  rfl

/-- Another process moves the position. -/
theorem Waits.moved (h : Waits b B s w e iov offset n base) (hpos : s.pos b < s'.pos b) (halone : s'.alone w = false) :
    Waits b B s' w e iov offset n base where
  plan := h.plan
  le := Nat.le_trans h.le (Nat.le_of_lt hpos)
  alone := by
    have hle := h.le
    rw [halone]
    exact ⟨nofun, fun heq => by omega⟩
  same ha := by
    rw [halone] at ha
    cases ha

theorem Waits.stays (h : Waits b B s w e iov offset n base) (hpos : s'.pos b = s.pos b)
    (hdata : s'.sys.data = s.sys.data) (halone : s'.alone w = s.alone w) : Waits b B s' w e iov offset n base where
  plan := h.plan
  le := hpos ▸ h.le
  alone := by rw [halone, hpos]; exact h.alone
  same ha := by rw [hdata]; exact h.same (halone ▸ ha)

theorem Ready.imp {pc : WritePc} (h : Ready b B s w pc) (hw : ∀ {e iov offset n base},
    Waits b B s w e iov offset n base → Waits b B s' w e iov offset n base) : Ready b B s' w pc := by
  cases pc with
  | idle => trivial
  | lseek e dwRemainSize iov offset =>
    obtain ⟨n, hpads, hr, h⟩ := h
    exact ⟨n, hpads, hr, hw h⟩
  | writev e iov offset =>
    obtain ⟨n, h⟩ := h
    exact ⟨n, hw h⟩

/-- `w` comes to `pc`, and the others stay where they are. -/
theorem ready_update {pc : WritePc} (hpcs : s'.pcs = Function.update s.pcs w pc) (hown : Ready b B s' w pc)
    (hother : ∀ v, v ≠ w → Ready b B s' v (s.pcs v)) (v : Nat) : Ready b B s' v (s'.pcs v) := by
  rw [hpcs]
  by_cases hv : v = w
  · subst hv
    rwa [Function.update_self]
  · rw [Function.update_of_ne hv]
    exact hother v hv

/-- A call that failed. -/
theorem Inv.returns (h : Inv b B s) (w : Nat) : Inv b B { s with pcs := Function.update s.pcs w .idle } where
  desc := h.desc
  head := h.head
  le := h.le
  ready := ready_update rfl trivial fun v _ => (h.ready v).imp fun hw => hw.stays rfl rfl rfl
  intact := h.intact

theorem fstat_eq (hc : Created b B) (h : Inv b B s) (hp : e.2.length + 14 ≤ B) (hn : s.sys.data.length = 4096 + n) :
    s.fstat b w true e = some { s with
      pcs := Function.update s.pcs w (layout b e (4096 + n))
      alone := Function.update s.alone w (s.pos b = 4096 + n) } := by
  have hB : B < 2 ^ 32 := by rw [← hc.block]; exact b.stHead.dwBlockSize.toNat_lt
  unfold fstat
  rw [if_neg (by rw [hc.block, u32_logSize hp hB]; exact not_or.mpr ⟨hc.fd, by omega⟩)]
  simp only [Sys.size_ok h.desc, hc.block, hn]
  rw [if_neg (by omega)]

theorem fstat_fails (h : Inv b B s) : s.fstat b w false e = some s := by
  unfold fstat
  split
  · rfl
  · simp only [Sys.size, h.desc, Bool.false_eq_true, if_false]

theorem inv_fstat {ok : Bool} (hc : Created b B) (h : Inv b B s) (hp : e.2.length + 14 ≤ B)
    (hs : s.fstat b w ok e = some s') : Inv b B s' := by
  cases ok with
  | false =>
    rw [fstat_fails h] at hs
    cases hs
    exact h
  | true =>
    obtain ⟨n, hn⟩ := Nat.exists_eq_add_of_le h.head
    rw [fstat_eq hc h hp hn] at hs
    cases hs
    refine ⟨h.desc, h.head, h.le, ready_update rfl ?_ fun v hv => ?_, h.intact⟩
    · obtain ⟨iov, offset, hplan, hlayout⟩ := layout_plan hc hp n
      have hle : 4096 + n ≤ s.pos b := hn ▸ h.le
      have halone : Function.update s.alone w (s.pos b = 4096 + n) w = true ↔ s.pos b = 4096 + n := by
        rw [Function.update_self, decide_eq_true_iff]
      rw [hlayout]
      split
      · next hpads => exact ⟨n, hpads, rfl, hplan, hle, halone, fun _ => hn⟩
      · next hpads =>
        have h0 : padding B n (e.2.length + 6) = 0 := if_neg hpads
        exact ⟨n, hplan, by rw [h0]; exact hle, by rw [h0]; exact halone, fun _ => hn⟩
    · exact (h.ready v).imp fun hw => hw.stays rfl rfl (Function.update_of_ne hv _ _)

/-- The padding moves the position only. -/
theorem inv_lseek {ok : Bool} (h : Inv b B s) (hpc : s.pcs w = .lseek e dwRemainSize iov offset) :
    Inv b B (s.lseek b w ok e dwRemainSize iov offset) := by
  have hw : Ready b B s w (.lseek e dwRemainSize iov offset) := hpc ▸ h.ready w
  obtain ⟨n, hpads, rfl, hw⟩ := hw
  have hmod := Nat.mod_lt n (show 0 < B by have := hw.plan.fits; omega)
  unfold lseek
  cases ok with
  | false =>
    simp only [Sys.seekCur, h.desc, Bool.false_eq_true, if_false]
    exact h.returns w
  | true =>
    rw [Sys.seekCur_ok h.desc]
    have hpos := pos_of_desc (b := b) (s := { s with
      sys := s.sys.setDesc b.fdBinlog (some ⟨s.pos b + (B - n % B), false⟩)
      pcs := Function.update s.pcs w (.writev e iov offset)
      alone := fun v => v = w && s.alone v }) (Sys.setDesc_self _)
    refine ⟨by rw [hpos]; exact Sys.setDesc_self _, h.head, ?_, ready_update rfl ?_ fun v hv => ?_, h.intact⟩
    · rw [hpos]
      exact Nat.le_trans h.le (Nat.le_add_right _ _)
    · have hle := hw.le
      refine ⟨n, hw.plan, ?_, ?_, fun ha => hw.same (by simpa using ha)⟩
      · rw [hpos, padding_of_pads hpads]
        omega
      · rw [hpos, padding_of_pads hpads, Nat.add_right_cancel_iff, ← hw.alone]
        simp
    · exact (h.ready v).imp fun hv' => hv'.moved (by rw [hpos]; omega) (by simp [hv])

/-- What a `writev` of `w` does. -/
structure Stores (b : Binlog) (s : Writers) (w : Nat) (e : Entry) (iov : Bytes) (offset : Nat) (s' : Writers) :
    Prop where
  data : s'.sys.data = s.sys.data ++ List.replicate (s.pos b - s.sys.data.length) 0 ++ iov
  desc : s'.sys.desc b.fdBinlog = some ⟨s'.pos b, false⟩
  pos : s'.pos b = s.pos b + iov.length
  pcs : s'.pcs = Function.update s.pcs w .idle
  alone : s'.alone = fun v => v = w && s.alone v
  stored : s'.stored = s.stored ++ [⟨e, offset, s.pos b + iov.length - (record e.2).length⟩]

theorem writev_stores (w : Nat) (e : Entry) (offset : Nat) (h : Inv b B s) (hne : iov ≠ []) :
    Stores b s w e iov offset (s.writev b w true e iov offset) := by
  have hw := @Sys.write_full s.sys _ _ iov h.desc
  obtain ⟨k, hk⟩ := Nat.exists_eq_add_of_le h.le
  have hdesc : (s.writev b w true e iov offset).sys.desc b.fdBinlog = some ⟨s.pos b + iov.length, false⟩ := by
    simp only [writev, if_true, hw]
    exact Sys.setDesc_self _
  have hpos := pos_of_desc hdesc
  have hplace : (s.writev b w true e iov offset).stored =
      s.stored ++ [⟨e, offset, (s.writev b w true e iov offset).pos b - (record e.2).length⟩] := by
    simp only [writev, if_true, hw]
    rfl
  refine ⟨?_, hpos.symm ▸ hdesc, hpos, ?_, ?_, hpos ▸ hplace⟩
  · simp only [writev, if_true, hw, Sys.setDesc_data, Sys.target, Bool.false_eq_true, if_false]
    rw [hk, Sys.store_past_end k hne, Nat.add_sub_cancel_left]
  all_goals simp only [writev, if_true, hw]

theorem Stores.length (h : Stores b s w e iov offset s') (hle : s.sys.data.length ≤ s.pos b) :
    s'.sys.data.length = s'.pos b := by
  rw [h.data, h.pos, List.length_append, List.length_append, List.length_replicate]
  omega

/-- The record is the end of what the call stored. -/
theorem Stores.intact (h : Stores b s w e iov offset s') (hle : s.sys.data.length ≤ s.pos b)
    (hi : Intact s.sys.data s.stored) (hiov : record e.2 <:+ iov) : Intact s'.sys.data s'.stored := by
  obtain ⟨h', rfl⟩ := hiov
  have hplace : s.pos b + (h' ++ record e.2).length - (record e.2).length = s.pos b + h'.length := by
    rw [List.length_append]
    omega
  have hfront : (s.sys.data ++ List.replicate (s.pos b - s.sys.data.length) 0 ++ h').length =
      s.pos b + h'.length := by
    rw [List.length_append, List.length_append, List.length_replicate]
    omega
  have hdrop : (s.sys.data ++ (List.replicate (s.pos b - s.sys.data.length) 0 ++ (h' ++ record e.2))).drop
      (s.pos b + h'.length) = record e.2 := by
    rw [← List.append_assoc, ← List.append_assoc, List.drop_left' hfront]
  rw [h.stored, hplace, h.data, List.append_assoc]
  exact hi.append (Nat.le_trans hle (Nat.le_add_right _ _)) ⟨[], (List.append_nil _).trans hdrop.symm⟩

theorem Inv.waits (h : Inv b B s) (hpc : s.pcs w = .writev e iov offset) :
    ∃ n, Waits b B s w e iov offset n (4096 + n + padding B n (e.2.length + 6)) := by
  have hw := h.ready w
  rwa [hpc] at hw

theorem inv_writev {ok : Bool} (h : Inv b B s) (hpc : s.pcs w = .writev e iov offset) :
    Inv b B (s.writev b w ok e iov offset) := by
  cases ok with
  | false =>
    have hfail : s.sys.write b.fdBinlog .fail iov = (s.sys, none) := by simp only [Sys.write, h.desc, Outcome.amount]
    simp only [writev, Bool.false_eq_true, if_false, hfail]
    exact h.returns w
  | true =>
    obtain ⟨n, hw⟩ := h.waits hpc
    have hst := writev_stores w e offset h hw.plan.ne_nil
    generalize s.writev b w true e iov offset = s' at hst ⊢
    have hlen := hst.length h.le
    have hpos : s.pos b < s'.pos b := by
      have := List.length_pos_iff.mpr hw.plan.ne_nil
      have := hst.pos
      omega
    have hiov : record e.2 <:+ iov := by
      obtain ⟨h', rfl, -⟩ := hw.plan.iov
      exact List.suffix_append _ _
    refine ⟨hst.desc, ?_, Nat.le_of_eq hlen, ready_update hst.pcs trivial fun v hv => ?_,
      hst.intact h.le h.intact hiov⟩
    · have hhead := h.head
      have hle := h.le
      omega
    · exact (h.ready v).imp fun hv' => hv'.moved hpos (by simp [hst.alone, hv])

theorem inv_step (hc : Created b B) (h : Inv b B s) (hl : Fitting B s l) (hs : step b s l = some s') :
    Inv b B s' := by
  cases l with
  | fstat w ok e =>
    cases hpc : s.pcs w with
    | idle =>
      simp only [step, hpc] at hs
      exact inv_fstat hc h hl hs
    | lseek | writev => simp [step, hpc] at hs
  | lseek w ok =>
    cases hpc : s.pcs w with
    | lseek e dwRemainSize iov offset =>
      simp only [step, hpc, Option.some.injEq] at hs
      exact hs ▸ inv_lseek h hpc
    | idle | writev => simp [step, hpc] at hs
  | writev w ok =>
    cases hpc : s.pcs w with
    | writev e iov offset =>
      simp only [step, hpc, Option.some.injEq] at hs
      exact hs ▸ inv_writev h hpc
    | idle | lseek => simp [step, hpc] at hs

theorem inv_init (h : Handle b sys false B head []) : Inv b B { sys } := by
  obtain ⟨p, hdesc, hpos⟩ := h.desc
  have hlen : sys.data.length = 4096 := by rw [h.data, List.append_nil, h.head]
  have hp : pos b { sys } = p := pos_of_desc hdesc
  exact ⟨hp ▸ hdesc, Nat.le_of_eq hlen.symm, by rw [hp, hpos rfl], fun _ => trivial, nofun, List.Pairwise.nil⟩

theorem inv_inductive (hc : Created b B) (h : Handle b sys false B head []) :
    ((writers b sys).guard (Fitting B)).Inductive (Inv b B) where
  init s hs := by
    have hs : s = { sys } := hs
    exact hs ▸ inv_init h
  step _ _ _ hi hs := inv_step hc hi hs.1 hs.2

/-- What `Write` returns is where the record is when nobody came between. -/
theorem offset_iff_alone (h : Inv b B s) (hs : step b s (.writev w true) = some s') :
    ∃ u, s'.stored = s.stored ++ [u] ∧ (u.offset = u.place ↔ s.alone w = true) := by
  cases hpc : s.pcs w with
  | writev e iov offset =>
    simp only [step, hpc, Option.some.injEq] at hs
    subst hs
    obtain ⟨n, hw⟩ := h.waits hpc
    refine ⟨_, (writev_stores w e offset h hw.plan.ne_nil).stored, ?_⟩
    obtain ⟨h', rfl, hplace⟩ := hw.plan.iov
    show offset = s.pos b + (h' ++ record e.2).length - (record e.2).length ↔ _
    rw [hw.alone, hw.plan.offset, List.length_append]
    omega
  | idle | lseek => simp [step, hpc] at hs

/-! ## One writer after the other -/

/-- The log is the one of a single process. -/
structure Sole (b : Binlog) (B : Nat) (head : Bytes) (s : Writers) : Prop where
  inv : Inv b B s
  data : s.sys.data = head ++ area B (s.stored.map Stored.entry)
  offsets : s.stored.map (fun u => (u.offset : Int)) = offsets B 0 (payloads (s.stored.map Stored.entry))
  fits : Fits B (s.stored.map Stored.entry)

/-- Only a `writev` changes the file. -/
theorem step_cases (h : Inv b B s) (hs : step b s l = some s') :
    (s'.sys.data = s.sys.data ∧ s'.stored = s.stored) ∨ ∃ w e iov offset, l = .writev w true ∧
      s.pcs w = .writev e iov offset ∧ s' = s.writev b w true e iov offset := by
  cases l with
  | fstat w ok e =>
    left
    cases hpc : s.pcs w with
    | idle =>
      simp only [step, hpc, fstat] at hs
      split at hs
      · cases hs
        exact ⟨rfl, rfl⟩
      split at hs
      · cases hs
        exact ⟨rfl, rfl⟩
      split at hs <;> cases hs
      exact ⟨rfl, rfl⟩
    | lseek | writev => simp [step, hpc] at hs
  | lseek w ok =>
    left
    cases hpc : s.pcs w with
    | lseek e dwRemainSize iov offset =>
      simp only [step, hpc, Option.some.injEq] at hs
      subst hs
      cases ok <;> simp [lseek, Sys.seekCur, h.desc]
    | idle | writev => simp [step, hpc] at hs
  | writev w ok =>
    cases hpc : s.pcs w with
    | writev e iov offset =>
      simp only [step, hpc, Option.some.injEq] at hs
      cases ok with
      | false =>
        left
        subst hs
        simp [writev, Sys.write, h.desc, Outcome.amount]
      | true => exact .inr ⟨w, e, iov, offset, rfl, hpc, hs.symm⟩
    | idle | lseek => simp [step, hpc] at hs

theorem sole_step (hc : Created b B) (hhead : head.length = 4096) (h : Sole b B head s) (hl : Fitting B s l)
    (hu : Undisturbed s l) (hs : step b s l = some s') : Sole b B head s' := by
  have hinv := inv_step hc h.inv hl hs
  obtain ⟨hdata, hstored⟩ | ⟨w, e, iov, offset, rfl, hpc, rfl⟩ := step_cases h.inv hs
  · exact ⟨hinv, by rw [hdata, hstored, h.data], by rw [hstored, h.offsets], by rw [hstored]; exact h.fits⟩
  obtain ⟨n, hw⟩ := h.inv.waits hpc
  have hn := hw.same hu
  have hpos := hw.alone.mp hu
  have hZ : (area B (s.stored.map Stored.entry)).length = n := by
    rw [h.data, List.length_append, hhead] at hn
    omega
  have hst := writev_stores w e offset h.inv hw.plan.ne_nil
  have hentries : (s.writev b w true e iov offset).stored.map Stored.entry = s.stored.map Stored.entry ++ [e] := by
    rw [hst.stored, List.map_append]
    rfl
  have hpad : s.pos b - s.sys.data.length = padding B n (e.2.length + 6) := by omega
  refine ⟨hinv, ?_, ?_, ?_⟩
  · rw [hst.data, hpad, List.append_assoc, hw.plan.chunk, hentries, area_concat, hZ, h.data, List.append_assoc]
  · have hend := length_area_append (B := B) [] (s.stored.map Stored.entry)
    rw [List.nil_append, hZ, area_nil, List.length_nil] at hend
    rw [hentries, payloads_append, offsets_append, ← hend, ← h.offsets, hst.stored, List.map_append, hw.plan.offset]
    rfl
  · rw [hentries]
    exact h.fits.append fun e' he' => List.mem_singleton.mp he' ▸ hw.plan.fits

theorem sole_init (h : Handle b sys false B head []) : Sole b B head { sys } :=
  ⟨inv_init h, h.data, rfl, nofun⟩

theorem sole_inductive (hc : Created b B) (h : Handle b sys false B head []) :
    ((writers b sys).guard fun s l => Fitting B s l ∧ Undisturbed s l).Inductive (Sole b B head) where
  init s hs := by
    have hs : s = { sys } := hs
    exact hs ▸ sole_init h
  step _ _ _ hi hs := sole_step hc h.head hi hs.1.1 hs.1.2 hs.2

theorem created_of_handle (h : Handle b sys false B head []) : Created b B := ⟨h.fd, h.offset, h.block⟩

theorem exists_fstat (hc : Created b B) (h : Inv b B s) (hp : e.2.length + 14 ≤ B)
    (hn : s.sys.data.length = 4096 + n) (hpc : s.pcs w = .idle) : ∃ s', step b s (.fstat w true e) = some s' ∧
      s'.sys = s.sys ∧ s'.pcs = Function.update s.pcs w (layout b e (4096 + n)) := by
  have hs : step b s (.fstat w true e) = s.fstat b w true e := by rw [step, hpc]
  exact ⟨_, hs.trans (fstat_eq hc h hp hn), rfl, rfl⟩

/-- Two processes that take the size of a new log before either stores. -/
theorem exists_crossed (hc : Created b B) (h : Handle b sys false B head []) (hp : e.2.length + 14 ≤ B) :
    ∃ s s', ((writers b sys).guard (Fitting B)).Reachable s ∧ (writers b sys).step s (.writev 1 true) s' ∧
      s.alone 1 = false := by
  obtain ⟨iov, offset, hplan, hlayout⟩ := layout_plan hc hp 0
  rw [if_neg fun hpads => hpads.1 (Nat.zero_mod B)] at hlayout
  have hlen : sys.data.length = 4096 + 0 := by rw [h.data, List.append_nil, h.head]
  have hM := inv_inductive hc h
  have hr : ((writers b sys).guard (Fitting B)).Reachable { sys } := .init rfl
  obtain ⟨s₁, h₁, hsys₁, hpcs₁⟩ := exists_fstat (w := 0) hc (hM.reachable _ hr) hp hlen rfl
  have hr₁ := hr.allowed h₁ hp
  obtain ⟨s₂, h₂, hsys₂, hpcs₂⟩ := exists_fstat (w := 1) (s := s₁) hc (hM.reachable _ hr₁) hp
    (by rw [hsys₁, hlen]) (by rw [hpcs₁]; rfl)
  have hr₂ := hr₁.allowed h₂ hp
  rw [hlayout] at hpcs₁ hpcs₂
  have hst := writev_stores 0 e offset (hM.reachable _ hr₂) hplan.ne_nil
  have h₃ : step b s₂ (.writev 0 true) = some (s₂.writev b 0 true e iov offset) := by
    simp only [step, hpcs₂, hpcs₁]
    rfl
  refine ⟨_, (s₂.writev b 0 true e iov offset).writev b 1 true e iov offset, hr₂.allowed h₃ trivial, ?_, ?_⟩
  · show step b _ _ = _
    simp only [step, hst.pcs, hpcs₂]
    rfl
  · rw [hst.alone]
    rfl

/-- Processes that share the description `CreateLog` opened: in every interleaving the records stay whole, none
over another; a `Write` returns where its record is exactly when the position was at the end of the file at its
`fstat`, and only it has moved the position since; and where each `writev` finds it so, the log and the offsets are
those of one process that makes the same writes in turn. -/
theorem one_log (b₀ : Binlog) (sys₀ : Sys) {fd : Int} (hfd : fd ≠ -1) (B time : UInt32) :
    ∃ b sys, createLog b₀ sys₀ ⟨some fd, true, time, .full⟩ B = (b, sys, 0) ∧
      (∀ s, ((writers b sys).guard (Fitting B.toNat)).Reachable s → Intact s.sys.data s.stored) ∧
      (∀ s w s', ((writers b sys).guard (Fitting B.toNat)).Reachable s →
        (writers b sys).step s (.writev w true) s' →
        ∃ u, s'.stored = s.stored ++ [u] ∧ (u.offset = u.place ↔ s.alone w = true)) ∧
      ∀ s, ((writers b sys).guard fun s l => Fitting B.toNat s l ∧ Undisturbed s l).Reachable s →
        ∃ sys', writeAll b sys (s.stored.map Stored.entry) = some (sys', s.stored.map fun u => (u.offset : Int)) ∧
          sys'.data = s.sys.data := by
  obtain ⟨b, sys, hrun, h, -⟩ := createLog_spec b₀ sys₀ hfd B time
  have hinv := inv_inductive (created_of_handle h) h
  refine ⟨b, sys, hrun, fun s hr => (hinv.reachable s hr).intact, fun s w s' hr hs =>
    offset_iff_alone (hinv.reachable s hr) hs, fun s hr => ?_⟩
  have hsole := (sole_inductive (created_of_handle h) h).reachable s hr
  obtain ⟨sys', hws, h'⟩ := writeAll_spec (l := []) h hsole.fits nofun
  exact ⟨sys', by rw [hws, hsole.offsets]; rfl, by rw [h'.data, hsole.data]; rfl⟩

/-- Both get the offset of the first. -/
theorem one_log_two : ∃ b sys s s' u, createLog unopened noFile ⟨some 3, true, 9, .full⟩ 32 = (b, sys, 0) ∧
    ((writers b sys).guard (Fitting 32)).Reachable s ∧ (writers b sys).step s (.writev 1 true) s' ∧
    s'.stored = s.stored ++ [u] ∧ u.offset ≠ u.place := by
  obtain ⟨b, sys, hrun, -, halone, -⟩ := one_log unopened noFile (show (3 : Int) ≠ -1 by decide) 32 9
  obtain ⟨b', sys', hrun', h, -⟩ := createLog_spec unopened noFile (show (3 : Int) ≠ -1 by decide) 32 9
  rw [hrun] at hrun'
  cases hrun'
  obtain ⟨s, s', hr, hs, hnot⟩ := exists_crossed (e := (9, [1])) (created_of_handle h) h (by decide)
  obtain ⟨u, hu, hiff⟩ := halone s 1 s' hr hs
  exact ⟨b, sys, s, s', u, hrun, hr, hs, hu, fun heq => by simp [hiff.mp heq] at hnot⟩

end Writers
end SimpleSvr.L3
