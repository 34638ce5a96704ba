import SimpleSvr.Core.File
import SimpleSvr.Core.LTS
import SimpleSvr.L1Encoding.IOBufferRoundTrip

/-!
# Sending through a channel (`Channel.hpp`)

`channel << io` gives the bytes up to the write cursor to `sendmsg` and sets the
cursor back to 0 whenever that does not fail, however many bytes the socket
took. `sending_run`: what the socket took and what the buffer still holds is
what was appended, in every run in which a `sendmsg` takes all it is offered or
fails.
-/
namespace SimpleSvr.L1
namespace IOBuffer

/-- What `channel << io` offers: the bytes up to the write cursor. -/
def pending (io : IOBuffer) : Bytes := (io.buffer.getD []).take io.writePosition.toNat

/-- `channel << io`: the buffer, the bytes that the socket took, and whether it throws.
mirrors include/Channel.hpp:108-133 -/
def send (io : IOBuffer) (sendmsg : Outcome) : IOBuffer × Bytes × Bool :=
  if io.writePosition = 0 then (io, [], false)
  else
    match sendmsg.amount io.writePosition.toNat with
    | none => (io, [], true)
    | some sendSize => ({ io with writePosition := 0 }, (io.buffer.getD []).take sendSize, false)

/-! ## Appending -/

variable {pre rest : Bytes} {a : UInt64}

/-- The buffer with another limit to what may be read. -/
def withAvailable (io : IOBuffer) (a : UInt64) : IOBuffer := { io with availableReadSize := a }

@[simp] theorem withAvailable_writePosition (io : IOBuffer) (a : UInt64) :
    (io.withAvailable a).writePosition = io.writePosition := rfl

@[simp] theorem withAvailable_bufferSize (io : IOBuffer) (a : UInt64) :
    (io.withAvailable a).bufferSize = io.bufferSize := rfl

theorem store_withAvailable (io : IOBuffer) (pos : Nat) (bytes : Bytes) (a : UInt64) :
    (io.withAvailable a).store pos bytes = (io.store pos bytes).map fun io => io.withAvailable a := by
  unfold store withAvailable
  cases io.buffer with
  | none => rfl
  | some m =>
    by_cases h : pos + bytes.length ≤ m.length
    · simp [h, Except.map]
    · simp [h, Except.map]

theorem put_withAvailable (io : IOBuffer) (n v : Nat) (a : UInt64) :
    (io.withAvailable a).put n v = (io.put n v).map fun io => io.withAvailable a := by
  unfold put
  rw [store_withAvailable, withAvailable_writePosition, withAvailable_bufferSize]
  split
  · rfl
  · cases io.store io.writePosition.toNat (be n v) <;> rfl

theorem write_withAvailable (io : IOBuffer) (bytes : Bytes) (size a : UInt64) :
    (io.withAvailable a).write bytes size = (io.write bytes size).map fun p => (p.1.withAvailable a, p.2) := by
  unfold write
  rw [store_withAvailable, withAvailable_writePosition, withAvailable_bufferSize]
  split
  · rfl
  · cases io.store io.writePosition.toNat (bytes.take size.toNat) <;> rfl

theorem putString_withAvailable (io : IOBuffer) (s : Bytes) (a : UInt64) :
    (io.withAvailable a).putString s = ((io.putString s).1.withAvailable a, (io.putString s).2) := by
  unfold putString
  rw [store_withAvailable, withAvailable_writePosition, withAvailable_bufferSize]
  split
  · rfl
  · cases io.store io.writePosition.toNat (be 2 (UInt16.ofNat s.length).toNat) with
    | error e => rfl
    | ok io₁ =>
      have hstore := store_withAvailable { io₁ with writePosition := io₁.writePosition + 2 }
        (io₁.writePosition + 2).toNat s a
      unfold withAvailable at hstore ⊢
      simp only [Except.map] at hstore ⊢
      rw [hstore]
      cases store { io₁ with writePosition := io₁.writePosition + 2 } (io₁.writePosition + 2).toNat s <;> rfl

/-- `<<` does not look at the read cursor. -/
theorem insert_withAvailable (io : IOBuffer) (v : Val) (a : UInt64) :
    (io.withAvailable a).insert v = ((io.insert v).1.withAvailable a, (io.insert v).2) := by
  by_cases hv : v.ty = .string
  · cases v with
    | string s => exact putString_withAvailable io s a
    | _ => cases hv
  · rw [insert_int _ hv, insert_int _ hv, put_withAvailable]
    cases io.put v.ty.width v.bits <;> rfl

theorem store_error {io : IOBuffer} {pos : Nat} {bytes : Bytes} {e : IOError} (h : io.store pos bytes = .error e) :
    e = .fault := by
  unfold store at h
  split at h
  · cases h
    rfl
  · split at h <;> cases h
    rfl

theorem putString_refused {io : IOBuffer} {s : Bytes} (h : (io.putString s).2 ≠ some .fault)
    (hsome : (io.putString s).2 ≠ none) : (io.putString s).1 = io := by
  unfold putString at h hsome ⊢
  split
  · rfl
  · next hc =>
    rw [if_neg hc] at h hsome
    cases h₁ : io.store io.writePosition.toNat (be 2 (UInt16.ofNat s.length).toNat) with
    | error e => rfl
    | ok io₁ =>
      simp only [h₁] at h hsome ⊢
      cases h₂ : store { io₁ with writePosition := io₁.writePosition + 2 } (io₁.writePosition + 2).toNat s with
      | error e =>
        simp only [h₂, store_error h₂] at h
        exact absurd rfl h
      | ok io₂ =>
        simp only [h₂] at hsome
        exact absurd rfl hsome

/-- A `<<` that throws leaves the buffer as it was. -/
theorem insert_refused {io : IOBuffer} {v : Val} (h : (io.insert v).2 ≠ some .fault) (hsome : (io.insert v).2 ≠ none) :
    (io.insert v).1 = io := by
  by_cases hv : v.ty = .string
  · cases v with
    | string s => exact putString_refused h hsome
    | _ => cases hv
  · rw [insert_int _ hv] at hsome ⊢
    cases hp : io.put v.ty.width v.bits with
    | error e => rfl
    | ok io' =>
      rw [hp] at hsome
      exact absurd rfl hsome

theorem write_refused (hs : pre.length + rest.length < 2 ^ 63) (b : Object) (h : rest.length < b.1.length) :
    (writing pre rest).write b.1 (UInt64.ofNat b.1.length) = .ok (writing pre rest, 0) := by
  have hb := b.2
  have hgt : (writing pre rest).writePosition + UInt64.ofNat b.1.length > (writing pre rest).bufferSize := by
    show UInt64.ofNat pre.length + UInt64.ofNat b.1.length > _
    rw [← UInt64.ofNat_add]
    exact ofNat_gt (by omega) (by omega)
  unfold write
  rw [if_pos hgt]

end IOBuffer

/-! ## Senders -/

/-- A buffer with what the socket took and what was appended, from its construction on. -/
structure Sender where
  io : IOBuffer
  accepted : Bytes := []
  appended : Bytes := []

inductive SendOp where
  | write (bytes : Object)
  | insert (v : Val)
  | send (sendmsg : Outcome)

namespace Sender

/-- `none` is an access outside the memory. A `Write` that returns 0, and a `<<` that throws, append nothing. -/
def step (s : Sender) : SendOp → Option Sender
  | .write b =>
    match s.io.write b.1 (UInt64.ofNat b.1.length) with
    | .error _ => none
    | .ok (io, n) => some { s with io, appended := s.appended ++ if n = 0 then [] else b.1 }
  | .insert v =>
    if (s.io.insert v).2 = some .fault then none
    else
      some { s with
        io := (s.io.insert v).1, appended := s.appended ++ if (s.io.insert v).2 = none then v.encode else [] }
  | .send o => some { s with io := (s.io.send o).1, accepted := s.accepted ++ (s.io.send o).2.1 }

end Sender

/-- Appending to and sending from a buffer over memory of the size it is told. -/
def sending : LTS Sender SendOp :=
  .ofFn (fun s => ∃ (mem : Object) (a : UInt64), s = { io := .new mem.1 (UInt64.ofNat mem.1.length) a }) Sender.step

namespace Sender

/-- What the socket took, and what the buffer holds, is what was appended. -/
def Lossless (s : Sender) : Prop := s.accepted ++ s.io.pending = s.appended

/-- A `sendmsg` takes all it is offered, or fails. -/
def TakesAll (s : Sender) : SendOp → Prop
  | .send o => o.amount s.io.writePosition.toNat = none ∨
      o.amount s.io.writePosition.toNat = some s.io.writePosition.toNat
  | _ => True

instance (s : Sender) : DecidablePred (TakesAll s)
  | .send _ => inferInstanceAs (Decidable (_ ∨ _))
  | .write _ => inferInstanceAs (Decidable True)
  | .insert _ => inferInstanceAs (Decidable True)

/-- The buffer holds `pre`, and `rest` is room. -/
structure Inv (s : Sender) (pre rest : Bytes) : Prop where
  io : ∃ a, s.io = (IOBuffer.writing pre rest).withAvailable a
  small : pre.length + rest.length < 2 ^ 63
  lossless : s.accepted ++ pre = s.appended

variable {s s' : Sender} {pre rest : Bytes}

theorem Inv.pending (h : Inv s pre rest) : s.io.pending = pre := by
  obtain ⟨a, ha⟩ := h.io
  have hpos : (UInt64.ofNat pre.length).toNat = pre.length := IOBuffer.toNat_ofNat_lt (by have := h.small; omega)
  rw [ha]
  show (pre ++ rest).take (UInt64.ofNat pre.length).toNat = pre
  rw [hpos, List.take_left]

theorem Inv.holds (h : Inv s pre rest) : Lossless s := by
  unfold Lossless
  rw [h.pending]
  exact h.lossless

theorem inv_write (h : Inv s pre rest) {b : Object} (hs : s.step (.write b) = some s') :
    ∃ pre rest, Inv s' pre rest := by
  obtain ⟨a, ha⟩ := h.io
  have hsmall := h.small
  have hb := b.2
  unfold step at hs
  dsimp only at hs
  rw [ha, IOBuffer.write_withAvailable] at hs
  by_cases hfit : b.1.length ≤ rest.length
  · rw [IOBuffer.write_writing hfit (by omega)] at hs
    cases hs
    refine ⟨pre ++ b.1, rest.drop b.1.length, ⟨a, rfl⟩, ?_, ?_⟩
    · rw [List.length_append, List.length_drop]
      omega
    · have hzero : UInt64.ofNat b.1.length = 0 ↔ b.1 = [] := by
        rw [← UInt64.toNat_inj, IOBuffer.toNat_ofNat_lt (by omega), UInt64.toNat_zero, List.length_eq_zero_iff]
      simp only [hzero]
      split
      · next hnil => rw [hnil, List.append_nil, List.append_nil, h.lossless]
      · rw [← List.append_assoc, h.lossless]
  · rw [IOBuffer.write_refused h.small b (Nat.lt_of_not_le hfit)] at hs
    cases hs
    exact ⟨pre, rest, ⟨a, rfl⟩, h.small, by simpa using h.lossless⟩

theorem inv_insert (h : Inv s pre rest) {v : Val} (hs : s.step (.insert v) = some s') :
    ∃ pre rest, Inv s' pre rest := by
  obtain ⟨a, ha⟩ := h.io
  have hsmall := h.small
  unfold step at hs
  dsimp only at hs
  rw [ha, IOBuffer.insert_withAvailable] at hs
  by_cases hfit : v.encode.length ≤ rest.length
  · rw [IOBuffer.insert_writing hsmall v hfit] at hs
    cases hs
    refine ⟨pre ++ v.encode, rest.drop v.encode.length, ⟨a, rfl⟩, ?_, ?_⟩
    · rw [List.length_append, List.length_drop]
      omega
    · rw [← List.append_assoc, h.lossless]
      rfl
  · have hthrow := IOBuffer.insert_short hsmall v (Nat.lt_of_not_le hfit)
    split at hs
    · cases hs
    · next hfault =>
      dsimp only at hs
      rw [IOBuffer.insert_refused hfault hthrow, List.append_nil] at hs
      cases hs
      exact ⟨pre, rest, ⟨a, rfl⟩, hsmall, h.lossless⟩

theorem send_eq (h : Inv s pre rest) (o : Outcome) :
    s.step (.send o) = some
      (if pre = [] then s
      else match o.amount pre.length with
        | none => s
        | some n =>
          { s with io := { s.io with writePosition := 0 }, accepted := s.accepted ++ (pre ++ rest).take n }) := by
  obtain ⟨a, ha⟩ := h.io
  have hsmall := h.small
  have hpos : (UInt64.ofNat pre.length).toNat = pre.length := IOBuffer.toNat_ofNat_lt (by omega)
  have hw : s.io.writePosition = UInt64.ofNat pre.length := by rw [ha]; rfl
  have hb : s.io.buffer = some (pre ++ rest) := by rw [ha]; rfl
  have hzero : UInt64.ofNat pre.length = 0 ↔ pre = [] := by
    rw [← UInt64.toNat_inj, hpos, UInt64.toNat_zero, List.length_eq_zero_iff]
  unfold step IOBuffer.send
  rw [hw, hb, hpos]
  by_cases hnil : pre = []
  · simp [hnil]
  · cases ho : o.amount pre.length with
    | none => simp [hzero, hnil, ho]
    | some n => simp [hzero, hnil, ho, hb]

theorem takesAll_send (h : Inv s pre rest) (o : Outcome) :
    TakesAll s (.send o) ↔ o.amount pre.length = none ∨ o.amount pre.length = some pre.length := by
  obtain ⟨a, ha⟩ := h.io
  have hsmall := h.small
  have hpos : s.io.writePosition.toNat = pre.length := by
    rw [ha]
    exact IOBuffer.toNat_ofNat_lt (by omega)
  unfold TakesAll
  rw [hpos]

/-- The cursor is back at 0. -/
theorem inv_sent (h : Inv s pre rest) : Inv { s with
    io := { s.io with writePosition := 0 }, accepted := s.accepted ++ pre } [] (pre ++ rest) := by
  obtain ⟨a, ha⟩ := h.io
  refine ⟨⟨a, ?_⟩, by simpa using h.small, by simpa using h.lossless⟩
  rw [ha]
  simp [IOBuffer.writing, IOBuffer.withAvailable]

theorem inv_send (h : Inv s pre rest) {o : Outcome} (ht : TakesAll s (.send o)) (hs : s.step (.send o) = some s') :
    ∃ pre rest, Inv s' pre rest := by
  rw [send_eq h] at hs
  rw [takesAll_send h] at ht
  by_cases hnil : pre = []
  · rw [if_pos hnil] at hs
    cases hs
    exact ⟨pre, rest, h⟩
  · rw [if_neg hnil] at hs
    rcases ht with ht | ht
    · rw [ht] at hs
      cases hs
      exact ⟨pre, rest, h⟩
    · rw [ht] at hs
      dsimp only at hs
      rw [List.take_left] at hs
      cases hs
      exact ⟨[], pre ++ rest, inv_sent h⟩

/-- What a `sendmsg` left over is lost. -/
theorem takesAll_of_lossless (h : Inv s pre rest) {o : Outcome} (hs : s.step (.send o) = some s')
    (hl : Lossless s') : TakesAll s (.send o) := by
  rw [send_eq h] at hs
  rw [takesAll_send h]
  by_cases hnil : pre = []
  · subst hnil
    cases o <;> simp [Outcome.amount]
  · rw [if_neg hnil] at hs
    cases ho : o.amount pre.length with
    | none => exact .inl rfl
    | some n =>
      right
      have hn : n ≤ pre.length := by
        unfold Outcome.amount at ho
        split at ho <;> cases ho <;> omega
      rw [ho] at hs
      cases hs
      have hlost : s.accepted ++ (pre ++ rest).take n ++ [] = s.appended := hl
      rw [List.append_nil, ← h.lossless, List.append_cancel_left_eq] at hlost
      have hlen := congrArg List.length hlost
      rw [List.length_take, List.length_append, Nat.min_eq_left (by omega)] at hlen
      rw [hlen]

/-! ## Runs -/

theorem inv_inductive : (sending.guard TakesAll).Inductive fun s => ∃ pre rest, Inv s pre rest where
  init := by
    intro s hinit
    obtain ⟨mem, a, rfl⟩ := hinit
    refine ⟨[], mem.1, ⟨a, ?_⟩, ?_, rfl⟩
    · simp [IOBuffer.new, IOBuffer.writing, IOBuffer.withAvailable]
    · simpa using mem.2
  step := by
    intro s op s' hinv hstep
    obtain ⟨pre, rest, h⟩ := hinv
    obtain ⟨ht, hs⟩ := hstep
    cases op with
    | write b => exact inv_write h hs
    | insert v => exact inv_insert h hs
    | send o => exact inv_send h ht hs

/-- As long as every `sendmsg` takes all or fails, no byte is lost; and the first one that takes less
loses the rest. -/
theorem sending_run {s : Sender} (hr : (sending.guard TakesAll).Reachable s) :
    Lossless s ∧ ∀ op s', sending.step s op s' → (Lossless s' ↔ TakesAll s op) := by
  obtain ⟨pre, rest, h⟩ := inv_inductive.reachable s hr
  refine ⟨h.holds, fun op s' hs => ⟨fun hl => ?_, fun ht => ?_⟩⟩
  · cases op with
    | write b => trivial
    | insert v => trivial
    | send o => exact takesAll_of_lossless h hs hl
  · obtain ⟨pre', rest', h'⟩ := inv_inductive.step s op s' ⟨pre, rest, h⟩ ⟨ht, hs⟩
    exact h'.holds

def fourBytes : Sender := { io := .new [0, 0, 0, 0] 4 0 }

theorem fourBytes_init : sending.init fourBytes := ⟨⟨[0, 0, 0, 0], by decide⟩, 0, rfl⟩

/-- Three bytes are appended; `sendmsg` fails, and then takes `n`. -/
def threeBytes (n : Nat) : List SendOp := [.write ⟨[1, 2, 3], by decide⟩, .send .fail, .send (.short n)]

/-- It takes all three. -/
theorem sending_run_three : ∃ s, (sending.guard TakesAll).Reachable s ∧ s.accepted = [1, 2, 3] ∧ Lossless s := by
  have hrun : ((threeBytes 3).foldlM (LTS.checked (fun s l => TakesAll s l ∧ True) step) fourBytes).map
      (fun s => s.accepted) = some [1, 2, 3] := by decide
  obtain ⟨s, hs, hacc⟩ := Option.map_eq_some_iff.mp hrun
  have hr : (sending.guard TakesAll).Reachable s :=
    LTS.Reachable.checked_guard (fun _ _ _ _ h => h) _ (.init fourBytes_init) hs
  exact ⟨s, hr, hacc, (sending_run hr).1⟩

/-- It takes one. -/
theorem short_send_loses : ∃ s, sending.Reachable s ∧ s.accepted = [1] ∧ s.appended = [1, 2, 3] ∧ ¬Lossless s := by
  have hrun : ((threeBytes 1).foldlM (LTS.checked (fun _ _ => True) step) fourBytes).map
      (fun s => (s.accepted, s.io.pending, s.appended)) = some ([1], [], [1, 2, 3]) := by decide
  obtain ⟨s, hs, hout⟩ := Option.map_eq_some_iff.mp hrun
  simp only [Prod.mk.injEq] at hout
  obtain ⟨hacc, hpend, happ⟩ := hout
  refine ⟨s, LTS.Reachable.checked (fun _ _ _ _ h => h) _ (.init fourBytes_init) hs, hacc, happ, fun hl => ?_⟩
  unfold Lossless at hl
  rw [hacc, hpend, happ] at hl
  cases hl

end Sender
end SimpleSvr.L1
