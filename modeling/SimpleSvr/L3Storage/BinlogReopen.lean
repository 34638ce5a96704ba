import SimpleSvr.L3Storage.BinlogRoundTrip

/-!
# A log over several sessions

`OpenLog` opens with `O_APPEND`, which ignores the `lseek` that leaves the
padding of a block. `reopen_iff`: a log written over several sessions is the
one a single session writes, and is read back, exactly when no later session
pads a block (and the file and its first block are small enough for the
reader). `reopen_shifts` is a second session that pads.
-/
namespace SimpleSvr.L3
open L1

/-- What `OpenLog` is given, and the payloads written after it. -/
structure Session where
  fd : Int
  stale : Nat → UInt8
  entries : List Binlog.Entry

namespace Binlog

/-! ## Sessions -/

/-- `Close`, `OpenLog` and writes, for each session. -/
def reopen : Binlog → Sys → List Session → Option (Binlog × Sys × List Int)
  | b, sys, [] => some (b, sys, [])
  | b, sys, s :: ss =>
    match openLog b (close b sys) ⟨some s.fd, .full, s.stale⟩ with
    | (b, sys, 0) => do
      let (sys, offs) ← writeAll b sys s.entries
      let (b, sys, offs') ← reopen b sys ss
      return (b, sys, offs ++ offs')
    | _ => none

/-- A created log, written in a first session and in later ones. -/
def sessions (b : Binlog) (sys : Sys) (fd : Int) (B time : UInt32) (l : List Entry) (ss : List Session) :
    Option (Binlog × Sys × List Int) :=
  match createLog b sys ⟨some fd, true, time, .full⟩ B with
  | (b, sys, 0) => do
    let (sys, offs) ← writeAll b sys l
    let (b, sys, offs') ← reopen b sys ss
    return (b, sys, offs ++ offs')
  | _ => none

/-- What the later sessions write. -/
def later (ss : List Session) : List Entry := ss.flatMap Session.entries

@[simp] theorem later_cons (s : Session) (ss : List Session) : later (s :: ss) = s.entries ++ later ss := by
  simp [later]

variable {b : Binlog} {sys : Sys} {B : Nat} {l m : List Entry} {ss : List Session} {e : Entry} {app : Bool}
  {head Z : Bytes}

/-- With `O_APPEND` the data area only grows. -/
theorem writeAll_appends (h : Handle b sys true B head Z) (hm : Fits B m) :
    ∃ sys' offs Z', writeAll b sys m = some (sys', offs) ∧ Handle b sys' true B head (Z ++ Z') := by
  induction m generalizing sys Z with
  | nil => exact ⟨sys, [], [], rfl, by rwa [List.append_nil]⟩
  | cons e m ih =>
    obtain ⟨he, hm⟩ := hm.cons
    obtain ⟨sys₁, hw, h₁⟩ := write_spec h he e.1
    obtain ⟨sys', offs, Z', hws, h'⟩ := ih h₁ hm
    exact ⟨sys', _, _, writeAll_cons hw hws, by rwa [List.append_assoc] at h'⟩

/-- The first record that pads is put where the padding should be. -/
theorem writeAll_diverges (h : Handle b sys true B head (area B l)) (hm : Fits B m)
    (hp : ¬NeverPads B (area B l).length (payloads m)) :
    ∃ sys' offs m₁ e m₂ Z', writeAll b sys m = some (sys', offs) ∧ m = m₁ ++ e :: m₂ ∧
      Pads B (area B (l ++ m₁)).length (e.2.length + 6) ∧
      Handle b sys' true B head (area B (l ++ m₁) ++ (blockHeadBuf e.1 ++ Z')) := by
  induction m generalizing sys l with
  | nil => exact absurd trivial hp
  | cons e m ih =>
    obtain ⟨he, hm⟩ := hm.cons
    obtain ⟨sys₁, hw, h₁⟩ := write_spec h he e.1
    by_cases hpad : Pads B (area B l).length (e.2.length + 6)
    · obtain ⟨sys', offs, Z', hws, h'⟩ := writeAll_appends h₁ hm
      refine ⟨sys', _, [], e, m, record e.2 ++ Z', writeAll_cons hw hws, rfl, by rwa [List.append_nil], ?_⟩
      rw [added, if_neg hpad.1, length_record, if_pos hpad.2] at h'
      simpa using h'
    · rw [added_of_not_pads (by rwa [length_record]), ← area_concat] at h₁
      obtain ⟨sys', offs, m₁, e', m₂, Z', hws, rfl, hpad', h'⟩ := ih h₁ hm fun hn =>
        hp ⟨hpad, by rwa [length_area_concat] at hn⟩
      rw [List.append_assoc] at hpad' h'
      exact ⟨sys', _, e :: m₁, e', m₂, Z', writeAll_cons hw hws, rfl, hpad', h'⟩

theorem reopen_cons {s : Session} {b₁ b' : Binlog} {sys₁ sys₂ sys' : Sys} {offs offs' : List Int}
    (ho : openLog b (close b sys) ⟨some s.fd, .full, s.stale⟩ = (b₁, sys₁, 0))
    (hw : writeAll b₁ sys₁ s.entries = some (sys₂, offs)) (hr : reopen b₁ sys₂ ss = some (b', sys', offs')) :
    reopen b sys (s :: ss) = some (b', sys', offs ++ offs') := by
  rw [reopen, ho]
  simp only [hw, Option.bind_eq_bind, Option.bind_some, hr]
  rfl

section
variable {B time : UInt32}

/-- Sessions that do not pad go on as the first one would. -/
theorem reopen_spec (h : Handle b sys app B.toNat (fileHeadBuf (newHead B time)) (area B.toNat l))
    (hfd : ∀ s ∈ ss, s.fd ≠ -1) (hm : Fits B.toNat (later ss))
    (hp : NeverPads B.toNat (area B.toNat l).length (payloads (later ss))) :
    ∃ b' sys' app', reopen b sys ss =
        some (b', sys', offsets B.toNat (area B.toNat l).length (payloads (later ss))) ∧
      Handle b' sys' app' B.toNat (fileHeadBuf (newHead B time)) (area B.toNat (l ++ later ss)) := by
  induction ss generalizing b sys app l with
  | nil => exact ⟨b, sys, app, rfl, by rwa [later, List.flatMap_nil, List.append_nil]⟩
  | cons s ss ih =>
    rw [later_cons] at hm hp ⊢
    rw [payloads_append, neverPads_append, ← length_area_append] at hp
    obtain ⟨hs, hss⟩ := List.forall_mem_cons.mp hfd
    obtain ⟨b₁, sys₁, ho, h₁, -⟩ := openLog_spec b (close b sys) hs h.data s.stale
    obtain ⟨sys₂, hw, h₂⟩ := writeAll_spec h₁ (fun e he => hm e (List.mem_append_left _ he)) fun _ => hp.1
    obtain ⟨b', sys', app', hr, h'⟩ := ih h₂ hss (fun e he => hm e (List.mem_append_right _ he)) hp.2
    refine ⟨b', sys', app', ?_, by rwa [List.append_assoc] at h'⟩
    rw [reopen_cons ho hw hr, payloads_append, offsets_append, length_area_append]

theorem reopen_appends (h : Handle b sys app B.toNat (fileHeadBuf (newHead B time)) Z)
    (hfd : ∀ s ∈ ss, s.fd ≠ -1) (hm : Fits B.toNat (later ss)) :
    ∃ b' sys' offs app' Z', reopen b sys ss = some (b', sys', offs) ∧
      Handle b' sys' app' B.toNat (fileHeadBuf (newHead B time)) (Z ++ Z') := by
  induction ss generalizing b sys app Z with
  | nil => exact ⟨b, sys, [], app, [], rfl, by rwa [List.append_nil]⟩
  | cons s ss ih =>
    rw [later_cons] at hm
    obtain ⟨hs, hss⟩ := List.forall_mem_cons.mp hfd
    obtain ⟨b₁, sys₁, ho, h₁, -⟩ := openLog_spec b (close b sys) hs h.data s.stale
    obtain ⟨sys₂, offs, Z₂, hw, h₂⟩ := writeAll_appends h₁ fun e he => hm e (List.mem_append_left _ he)
    obtain ⟨b', sys', offs', app', Z', hr, h'⟩ := ih h₂ hss fun e he => hm e (List.mem_append_right _ he)
    exact ⟨b', sys', _, app', _, reopen_cons ho hw hr, by rwa [List.append_assoc] at h'⟩

theorem reopen_diverges (h : Handle b sys app B.toNat (fileHeadBuf (newHead B time)) (area B.toNat l))
    (hfd : ∀ s ∈ ss, s.fd ≠ -1) (hm : Fits B.toNat (later ss))
    (hp : ¬NeverPads B.toNat (area B.toNat l).length (payloads (later ss))) :
    ∃ b' sys' offs app' m₁ e m₂ Z', reopen b sys ss = some (b', sys', offs) ∧ later ss = m₁ ++ e :: m₂ ∧
      Pads B.toNat (area B.toNat (l ++ m₁)).length (e.2.length + 6) ∧
      Handle b' sys' app' B.toNat (fileHeadBuf (newHead B time))
        (area B.toNat (l ++ m₁) ++ (blockHeadBuf e.1 ++ Z')) := by
  induction ss generalizing b sys app l with
  | nil => exact absurd trivial hp
  | cons s ss ih =>
    rw [later_cons] at hm hp ⊢
    rw [payloads_append, neverPads_append, ← length_area_append] at hp
    obtain ⟨hs, hss⟩ := List.forall_mem_cons.mp hfd
    have hm₁ : Fits B.toNat s.entries := fun e he => hm e (List.mem_append_left _ he)
    have hm₂ : Fits B.toNat (later ss) := fun e he => hm e (List.mem_append_right _ he)
    obtain ⟨b₁, sys₁, ho, h₁, -⟩ := openLog_spec b (close b sys) hs h.data s.stale
    by_cases hp₁ : NeverPads B.toNat (area B.toNat l).length (payloads s.entries)
    · obtain ⟨sys₂, hw, h₂⟩ := writeAll_spec h₁ hm₁ fun _ => hp₁
      obtain ⟨b', sys', offs, app', m₁, e, m₂, Z', hr, hlater, hpad, h'⟩ :=
        ih h₂ hss hm₂ fun hn => hp ⟨hp₁, hn⟩
      rw [List.append_assoc] at hpad h'
      exact ⟨b', sys', _, app', s.entries ++ m₁, e, m₂, Z', reopen_cons ho hw hr, by rw [hlater, List.append_assoc],
        hpad, h'⟩
    · obtain ⟨sys₂, offs, m₁, e, m₂, Z₂, hw, he, hpad, h₂⟩ := writeAll_diverges h₁ hm₁ hp₁
      obtain ⟨b', sys', offs', app', Z', hr, h'⟩ := reopen_appends h₂ hss hm₂
      refine ⟨b', sys', _, app', m₁, e, m₂ ++ later ss, Z₂ ++ Z', reopen_cons ho hw hr, ?_, hpad, ?_⟩
      · rw [he, List.append_assoc, List.cons_append]
      · simpa only [List.append_assoc] using h'

end

/-! ## Files that differ in creation times -/

/-- Equal but for the bytes at the positions `P`. -/
def AgreeOff (P : Nat → Prop) (x y : Bytes) : Prop := x.length = y.length ∧ ∀ k, ¬P k → x[k]? = y[k]?

/-- The creation times in the file head and in the block heads. -/
def IsTime (B k : Nat) : Prop :=
  (16 ≤ k ∧ k < 20) ∨ (4096 ≤ k ∧ 1 ≤ (k - 4096) % B ∧ (k - 4096) % B ≤ 4)

def SameFile (B : Nat) (x y : Bytes) : Prop := AgreeOff (IsTime B) x y

variable {P Q : Nat → Prop} {x y x' y' : Bytes}

theorem AgreeOff.refl (P : Nat → Prop) (x : Bytes) : AgreeOff P x x := ⟨rfl, fun _ _ => rfl⟩

theorem AgreeOff.anywhere (h : x.length = y.length) (hP : ∀ k < x.length, P k) : AgreeOff P x y := by
  refine ⟨h, fun k hk => ?_⟩
  have hle : x.length ≤ k := Nat.not_lt.mp fun hlt => hk (hP k hlt)
  rw [List.getElem?_eq_none hle, List.getElem?_eq_none (h ▸ hle)]

theorem AgreeOff.mono (h : AgreeOff P x y) (hPQ : ∀ k < x.length, P k → Q k) : AgreeOff Q x y := by
  refine ⟨h.1, fun k hk => ?_⟩
  by_cases hlt : k < x.length
  · exact h.2 k fun hp => hk (hPQ k hlt hp)
  · rw [List.getElem?_eq_none (Nat.not_lt.mp hlt), List.getElem?_eq_none (h.1 ▸ Nat.not_lt.mp hlt)]

theorem AgreeOff.append (h : AgreeOff P x y) (h' : AgreeOff (fun k => P (x.length + k)) x' y') :
    AgreeOff P (x ++ x') (y ++ y') := by
  refine ⟨by rw [List.length_append, List.length_append, h.1, h'.1], fun k hk => ?_⟩
  by_cases hlt : k < x.length
  · rw [List.getElem?_append_left hlt, List.getElem?_append_left (h.1 ▸ hlt), h.2 k hk]
  · have hle := Nat.not_lt.mp hlt
    rw [List.getElem?_append_right hle, List.getElem?_append_right (h.1 ▸ hle), ← h.1]
    exact h'.2 _ fun (hp : P (x.length + (k - x.length))) => hk (by rwa [Nat.add_sub_cancel' hle] at hp)

theorem blockHeads_agree (t t' : UInt32) :
    AgreeOff (fun k => 1 ≤ k ∧ k ≤ 4) (blockHeadBuf t) (blockHeadBuf t') := by
  rw [blockHeadBuf_eq, blockHeadBuf_eq]
  refine .append (.append (.refl _ _) (.anywhere (by simp) fun k hk => ?_)) (.refl _ _)
  rw [length_be] at hk
  show 1 ≤ 1 + k ∧ 1 + k ≤ 4
  omega

theorem fileHeads_agree (B t t' : UInt32) :
    AgreeOff (fun k => 16 ≤ k ∧ k < 20) (fileHeadBuf (newHead B t)) (fileHeadBuf (newHead B t')) := by
  rw [fileHeadBuf_eq rfl, fileHeadBuf_eq rfl]
  refine .append (.append (.refl _ _) (.anywhere (by simp) fun k hk => ?_)) (.refl _ _)
  rw [length_be] at hk
  have hlen : (headMagic ++ be 2 headVersion.toNat ++ be 2 (UInt16.ofNat headSize).toNat ++
      be 4 B.toNat).length = 16 := by
    simp [headMagic]
  have h16 : 16 ≤ 16 + k ∧ 16 + k < 20 := by omega
  rwa [← hlen] at h16

/-- Byte positions of a data area that hold a creation time. -/
def InHead (B k : Nat) : Prop := 1 ≤ k % B ∧ k % B ≤ 4

theorem chunks_agree {n : Nat} (t t' : UInt32) (r : Bytes) (hB : 8 ≤ B) :
    AgreeOff (fun k => InHead B (n + k)) (chunk B n (blockHeadBuf t) r) (chunk B n (blockHeadBuf t') r) := by
  have hhead : ∀ m, m % B = 0 →
      AgreeOff (fun k => InHead B (m + k)) (blockHeadBuf t) (blockHeadBuf t') := by
    intro m hm
    refine (blockHeads_agree t t').mono fun k hk hk' => ?_
    rw [length_blockHeadBuf] at hk
    unfold InHead
    rwa [add_mod_of_zero hm (by omega)]
  unfold chunk added
  split
  · next hz => exact (hhead n hz).append (.refl _ _)
  · split
    · refine .append (.append (.refl _ _) ?_) (.refl _ _)
      have := hhead _ (boundary_mod B n (by omega))
      simpa [Nat.add_assoc] using this
    · exact .refl _ _

theorem areas_agree {l l' : List Entry} (hl : Fits B l) (h : payloads l = payloads l') :
    AgreeOff (InHead B) (area B l) (area B l') := by
  induction l using List.reverseRecOn generalizing l' with
  | nil =>
    rw [List.map_eq_nil_iff.mp h.symm]
    exact .refl _ _
  | append_singleton l e ih =>
    rw [payloads_append] at h
    obtain ⟨l₁, l₂, rfl, h₁, h₂⟩ := List.map_eq_append_iff.mp h.symm
    obtain ⟨e', rfl, he⟩ := List.map_eq_singleton_iff.mp h₂
    have hi := ih (fun e he => hl e (List.mem_append_left _ he)) h₁.symm
    have hB := hl e (by simp)
    rw [area_concat, area_concat, ← hi.1, he]
    exact hi.append (chunks_agree _ _ _ (by omega))

theorem length_area (B : Nat) (l : List Entry) : (area B l).length = endAt B 0 (payloads l) :=
  length_area_append [] l

theorem files_agree {B : Nat} {l l' : List Entry} {size t t' : UInt32} (hl : Fits B l) (h : payloads l = payloads l') :
    SameFile B (fileHeadBuf (newHead size t) ++ area B l) (fileHeadBuf (newHead size t') ++ area B l') := by
  have hlen : (fileHeadBuf (newHead size t)).length = 4096 := length_fileHeadBuf rfl
  refine .append ((fileHeads_agree size t t').mono fun _ _ => .inl) ((areas_agree hl h).mono fun k _ hk => ?_)
  rw [hlen]
  refine .inr ⟨Nat.le_add_right _ _, ?_⟩
  rwa [Nat.add_sub_cancel_left]

/-- A block head where the other file is padded. -/
theorem files_differ {l l' m₂ : List Entry} {e : Entry} {hd hd' Z : Bytes} {t : UInt32} (hl : Fits B l')
    (h : payloads l' = payloads (l ++ e :: m₂)) (hhd : hd.length = 4096) (hhd' : hd'.length = 4096)
    (hp : Pads B (area B l).length (e.2.length + 6)) :
    ¬SameFile B (hd ++ (area B l ++ (blockHeadBuf t ++ Z))) (hd' ++ area B l') := by
  rintro ⟨-, hsame⟩
  have hl₁ : Fits B l := by
    intro e' he'
    have hmem : e'.2 ∈ payloads l' := by
      rw [h, payloads_append]
      exact List.mem_append_left _ (List.mem_map_of_mem he')
    obtain ⟨e'', he'', heq⟩ := List.mem_map.mp hmem
    rw [← heq]
    exact hl e'' he''
  have hend : endOf B l' l.length = (area B l).length := by
    rw [endOf, length_area, length_area, payloads, List.map_take, ← payloads, h, payloads_append]
    exact congrArg _ (List.take_left' (length_payloads l))
  obtain ⟨e', he', hlen⟩ : ∃ e', l'[l.length]? = some e' ∧ e'.2 = e.2 := by
    have hget : (payloads l')[l.length]? = some e.2 := by
      rw [h, payloads_append, List.getElem?_append_right (Nat.le_of_eq (length_payloads l)), length_payloads,
        Nat.sub_self]
      rfl
    rw [payloads, List.getElem?_map] at hget
    exact Option.map_eq_some_iff.mp hget
  have hfit := fits_get hl he'
  have hzero := (padding_at (B := B) (by omega) he' (by rw [hend, hlen]; exact hp)).1
  have hset := (area_settled hl₁).resolve_left hp.1
  have hk := hsame (4096 + (area B l).length) fun ht => by
    obtain ⟨-, ht⟩ | ⟨-, -, ht⟩ := ht
    · omega
    · rw [Nat.add_sub_cancel_left] at ht
      omega
  rw [hend] at hzero
  rw [← hhd, List.getElem?_append_right (Nat.le_add_right _ _), Nat.add_sub_cancel_left,
    List.getElem?_append_right (Nat.le_refl _), Nat.sub_self, hhd, ← hhd',
    List.getElem?_append_right (Nat.le_add_right _ _), Nat.add_sub_cancel_left, hzero, blockHeadBuf_eq] at hk
  exact absurd hk (by simp [blockheadMagic])

/-! ## Files of 2^32 bytes and more -/

/-- A turn that does not make `Next` return 0. -/
def NotZero (t : Turn) : Prop := ∀ it, t ≠ .done (.ret it 0)

variable {it : BinlogIterator} {cont : BinlogIterator → Turn}

theorem escape_notZero (it : BinlogIterator) (e : IOError) : NotZero (escape it e) := by
  intro it' h
  cases e <;> cases h

theorem preadBlock_notZero (h : Handle b sys app B head Z) (hB : 0 < B) (hbig : 2 ^ 32 ≤ sys.data.length)
    (hc : ∀ it, NotZero (cont it)) : NotZero (preadBlock b sys readOk it cont) := by
  obtain ⟨pos, hd, -⟩ := h.desc
  have hB' : B < 2 ^ 32 := by rw [← h.block]; exact b.stHead.dwBlockSize.toNat_lt
  have hoff : Binlog.blockOffset b it.dwBlockIndex < 2 ^ 32 := Nat.mod_lt _ (by decide)
  have hlen : 0 < ((sys.data.drop (Binlog.blockOffset b it.dwBlockIndex)).take B).length ∧
      ((sys.data.drop (Binlog.blockOffset b it.dwBlockIndex)).take B).length < 2 ^ 32 := by
    rw [List.length_take, List.length_drop]
    omega
  intro it' heq
  unfold preadBlock at heq
  simp only [h.block, readOk, Sys.pread_full hd] at heq
  generalize (sys.data.drop (Binlog.blockOffset b it.dwBlockIndex)).take B = got at hlen heq
  have hne : toInt32 got.length ≠ 0 := by
    unfold toInt32
    omega
  split at heq
  · cases heq
  · split at heq
    · cases heq
    · split at heq
      · cases heq
      · exact hc _ it' heq

theorem checkBlockHead_notZero (hc : ∀ it, NotZero (cont it)) : NotZero (checkBlockHead b it cont) := by
  intro it' h
  unfold checkBlockHead at h
  dsimp only at h
  split at h
  · exact escape_notZero _ _ it' h
  · split at h
    · cases h
    · exact hc _ it' h

theorem refill_notZero (h : Handle b sys app B head Z) (hB : 0 < B) (hbig : 2 ^ 32 ≤ sys.data.length) :
    NotZero (refill b sys readOk it) := by
  obtain ⟨pos, hd, -⟩ := h.desc
  have hagain : ∀ f : BinlogIterator → BinlogIterator, ∀ it, NotZero (.again (f it)) := fun _ _ _ h => by cases h
  intro it' heq
  unfold refill at heq
  dsimp only at heq
  split at heq
  · exact preadBlock_notZero h hB hbig (fun _ => checkBlockHead_notZero (hagain _)) it' heq
  · split at heq
    · rw [show readOk.fstat = true from rfl, Sys.size_ok hd] at heq
      dsimp only at heq
      have hlt : u32 (Binlog.blockOffset b it.dwBlockIndex + it.dwOffset) < 2 ^ 32 := Nat.mod_lt _ (by decide)
      rw [if_neg (by omega)] at heq
      exact preadBlock_notZero h hB hbig (hagain id) it' heq
    · exact preadBlock_notZero h hB hbig (fun _ => checkBlockHead_notZero (hagain _)) it' heq

/-- Reading a length of 2^32 - 6 leaves nothing to read behind it. -/
theorem seek_past {n : Nat} {x : UInt32} {io io' : IOBuffer} {c : UInt8} (hn : n < 2 ^ 32)
    (hpos : io.readPosition = 5) (hav : io.availableReadSize = UInt64.ofNat n) (hx : x.toNat = 2 ^ 32 - 6) :
    (io.readSeek (UInt64.ofNat x.toNat)).getUInt8 ≠ .ok (io', c) := by
  intro h
  obtain ⟨-, -, hlt⟩ := IOBuffer.getUInt8_ok h
  apply hlt
  have hsum : (5 : UInt64) + UInt64.ofNat x.toNat = UInt64.ofNat (2 ^ 32 - 1) := by rw [hx]; rfl
  have hnn : (UInt64.ofNat n).toNat = n := IOBuffer.toNat_ofNat_lt (by omega)
  have hmax : (UInt64.ofNat (2 ^ 32 - 1)).toNat = 2 ^ 32 - 1 := rfl
  have hone : (1 : UInt64).toNat = 1 := rfl
  simp only [IOBuffer.readSeek, hpos, hav, hsum, gt_iff_lt, UInt64.lt_iff_toNat_lt, hnn, hmax]
  split
  · rw [UInt64.toNat_add, hnn, hone]
    omega
  · rw [UInt64.toNat_add, hmax, hone]
    omega

theorem getLogHead_ok {io io' : IOBuffer} {x : UInt32} (h : getLogHead io = .ok (io', x)) :
    io'.readPosition = io.readPosition + 1 + 4 ∧ io'.availableReadSize = io.availableReadSize := by
  unfold getLogHead at h
  cases h₁ : io.getUInt8 with
  | error e => rw [h₁] at h; cases h
  | ok r =>
    rw [h₁] at h
    obtain ⟨hp, ha, -⟩ := IOBuffer.getUInt8_ok h₁
    obtain ⟨hp', ha'⟩ := IOBuffer.getUInt32_ok h
    exact ⟨by rw [hp', hp], by rw [ha', ha]⟩

theorem takeLog_notZero {n : Nat} {x : UInt32} {io : IOBuffer} (hn : n < 2 ^ 32) (hpos : io.readPosition = 5)
    (hav : io.availableReadSize = UInt64.ofNat n) (hx : it.dwLogSize = x.toNat) : NotZero (takeLog b it io x) := by
  intro it' heq
  unfold takeLog at heq
  split at heq
  · exact escape_notZero _ _ it' heq
  · next io' c hc =>
    split at heq
    · cases heq
    · injection heq with heq
      injection heq with _ hv
      have hx : x.toNat = 2 ^ 32 - 6 := by
        have := x.toNat_lt
        unfold toInt32 u32 at hv
        omega
      exact seek_past hn hpos hav hx hc

theorem parseLog_notZero (b : Binlog) (it : BinlogIterator) : NotZero (parseLog b it) := by
  intro it' heq
  unfold parseLog at heq
  have hn : logBuffSize it < 2 ^ 32 := Nat.mod_lt _ (by decide)
  split at heq
  · cases heq
  · split at heq
    · cases heq
    · split at heq
      · cases heq
      · split at heq
        · exact escape_notZero _ _ it' heq
        · next io x hh =>
          split at heq
          · cases heq
          · obtain ⟨hpos, hav⟩ := getLogHead_ok hh
            exact takeLog_notZero hn hpos hav rfl it' heq

theorem turns_notZero (h : Handle b sys app B head Z) (hB : 0 < B) (hbig : 2 ^ 32 ≤ sys.data.length) (n : Nat)
    (it it' : BinlogIterator) : turns b sys (fun _ => readOk) n it ≠ some (.ret it' 0) := by
  induction n generalizing it with
  | zero => exact fun h => by cases h
  | succ n ih =>
    have hturn : NotZero (turn b sys readOk it) := by
      unfold turn
      split
      · exact refill_notZero h hB hbig
      · exact parseLog_notZero b it
    unfold turns
    cases ht : turn b sys readOk it with
    | again it₁ => simpa only [ht] using ih it₁
    | done r =>
      intro heq
      cases Option.some.inj heq
      exact hturn it' ht

/-- Offsets wrap, and the end of the file is never seen. -/
theorem never_zero (h : Handle b sys app B head Z) (hB : 0 < B) (hbig : 2 ^ 32 ≤ sys.data.length)
    (it it' : BinlogIterator) : ¬Returns b sys it it' 0 := by
  rintro ⟨n, hn⟩
  unfold next at hn
  split at hn
  · cases hn
  · exact turns_notZero h hB hbig n it it' hn

/-- A first block of 2^31 bytes is an error to `Next`. -/
theorem first_too_long (hlog : Log b sys B l) (hbig : 2 ^ 31 ≤ min B (area B l).length) (mem : Nat → UInt8) :
    ∃ it', Returns b sys (getIterator b mem) it' (-1) := by
  have hturn : turn b sys readOk (getIterator b mem) = refill b sys readOk (getIterator b mem) := rfl
  have hoff : (getIterator b mem).dwOffset < B := by
    show 0 < B
    omega
  rw [refill_load hlog hoff (Int.le_refl 0), preadBlock_spec hlog (good_getIterator hlog mem).room
    (show 4096 + B * 0 < 2 ^ 32 by omega) rfl, show (getIterator b mem).dwBlockIndex = 0 from rfl, Nat.mul_zero,
    Nat.sub_zero, if_neg (by omega), if_pos (.inr hbig)] at hturn
  exact ⟨_, (Reaches.done hturn).returns (Nat.le_refl _)⟩

/-! ## One session and several -/

theorem sessions_eq {b₀ b₁ b' : Binlog} {sys₀ sys₁ sys₂ sys' : Sys} {fd : Int} {size t : UInt32} {offs offs' : List Int}
    (hc : createLog b₀ sys₀ ⟨some fd, true, t, .full⟩ size = (b₁, sys₁, 0))
    (hw : writeAll b₁ sys₁ l = some (sys₂, offs)) (hr : reopen b₁ sys₂ ss = some (b', sys', offs')) :
    sessions b₀ sys₀ fd size t l ss = some (b', sys', offs ++ offs') := by
  rw [sessions, hc]
  simp only [hw, Option.bind_eq_bind, Option.bind_some, hr]
  rfl

variable {fd : Int} {size t : UInt32}

theorem sessions_spec (b₀ : Binlog) (sys₀ : Sys) (hfd : fd ≠ -1) (t : UInt32) (l : List Entry) (ss : List Session)
    (hss : ∀ s ∈ ss, s.fd ≠ -1)
    (hl : Fits size.toNat l) (hm : Fits size.toNat (later ss))
    (hp : NeverPads size.toNat (endAt size.toNat 0 (payloads l)) (payloads (later ss))) :
    ∃ b sys app, sessions b₀ sys₀ fd size t l ss =
        some (b, sys, offsets size.toNat 0 (payloads (l ++ later ss))) ∧
      Handle b sys app size.toNat (fileHeadBuf (newHead size t)) (area size.toNat (l ++ later ss)) := by
  obtain ⟨b₁, sys₁, hc, h₁, -⟩ := createLog_spec b₀ sys₀ hfd size t
  obtain ⟨sys₂, hw, h₂⟩ := writeAll_spec (l := []) h₁ hl (by simp)
  obtain ⟨b, sys, app, hr, h⟩ := reopen_spec h₂ hss hm (by rwa [List.nil_append, length_area])
  refine ⟨b, sys, app, ?_, h⟩
  rw [sessions_eq hc hw hr, payloads_append, offsets_append, List.nil_append, length_area size.toNat l]
  rfl

theorem sessions_diverge (b₀ : Binlog) (sys₀ : Sys) (hfd : fd ≠ -1) (hss : ∀ s ∈ ss, s.fd ≠ -1)
    (hl : Fits size.toNat l) (hm : Fits size.toNat (later ss))
    (hp : ¬NeverPads size.toNat (endAt size.toNat 0 (payloads l)) (payloads (later ss))) :
    ∃ b sys offs m₁ e m₂ Z', sessions b₀ sys₀ fd size t l ss = some (b, sys, offs) ∧ later ss = m₁ ++ e :: m₂ ∧
      Pads size.toNat (area size.toNat (l ++ m₁)).length (e.2.length + 6) ∧
      sys.data = fileHeadBuf (newHead size t) ++ (area size.toNat (l ++ m₁) ++ (blockHeadBuf e.1 ++ Z')) := by
  obtain ⟨b₁, sys₁, hc, h₁, -⟩ := createLog_spec b₀ sys₀ hfd size t
  obtain ⟨sys₂, hw, h₂⟩ := writeAll_spec (l := []) h₁ hl (by simp)
  obtain ⟨b, sys, offs, app, m₁, e, m₂, Z', hr, he, hpad, h⟩ :=
    reopen_diverges h₂ hss hm (by rwa [List.nil_append, length_area])
  exact ⟨b, sys, _, m₁, e, m₂, Z', sessions_eq hc hw hr, he, hpad, h.data⟩

theorem fits_iff : Fits B l ↔ ∀ p ∈ payloads l, p.length + 14 ≤ B :=
  ⟨fun h p hp => by obtain ⟨e, he, rfl⟩ := List.mem_map.mp hp; exact h e he,
    fun h e he => h e.2 (List.mem_map_of_mem he)⟩

/-- `l'` in one session, and the same payloads in several, do not give the same file. -/
theorem sessions_not_same (b₀ b₀' : Binlog) (sys₀ sys₀' : Sys) {fd' : Int} (t t' : UInt32) {l' : List Entry}
    (hfd : fd ≠ -1) (hfd' : fd' ≠ -1) (hss : ∀ s ∈ ss, s.fd ≠ -1) (hl' : Fits size.toNat l')
    (h : payloads l' = payloads (l ++ later ss))
    (hp : ¬NeverPads size.toNat (endAt size.toNat 0 (payloads l)) (payloads (later ss))) :
    ∃ b sys offs b' sys' offs', sessions b₀ sys₀ fd size t l ss = some (b, sys, offs) ∧
      sessions b₀' sys₀' fd' size t' l' [] = some (b', sys', offs') ∧ ¬SameFile size.toNat sys.data sys'.data := by
  have hfits : Fits size.toNat (l ++ later ss) := fits_iff.mpr (h ▸ fits_iff.mp hl')
  obtain ⟨b, sys, offs, m₁, e, m₂, Z', hs, he, hpad, hdata⟩ := sessions_diverge (t := t) b₀ sys₀ hfd hss
    (fun e he => hfits e (List.mem_append_left _ he)) (fun e he => hfits e (List.mem_append_right _ he)) hp
  obtain ⟨b', sys', app, hs', h'⟩ := sessions_spec b₀' sys₀' hfd' t' l' [] (by simp) hl'
    (by simp [later, Fits]) trivial
  rw [show l' ++ later [] = l' from List.append_nil l'] at h'
  refine ⟨b, sys, offs, b', sys', _, hs, hs', ?_⟩
  rw [hdata, h'.data]
  exact files_differ hl' (by rw [h, he, List.append_assoc]) (length_fileHeadBuf rfl) (length_fileHeadBuf rfl) hpad

/-- No later session pads a block, and the log is small enough for its reader. -/
structure Reopenable (B : Nat) (ps later : List Bytes) : Prop where
  noPads : NeverPads B (endAt B 0 ps) later
  file : 4096 + endAt B 0 (ps ++ later) < 2 ^ 32
  block : min B (endAt B 0 (ps ++ later)) < 2 ^ 31

/-- Reading `b` from the start gives the payloads `ps`, and then 0. -/
def ReadsBack (b : Binlog) (sys : Sys) (mem : Nat → UInt8) (ps : List Bytes) : Prop :=
  ∃ it it' rs, Iterates b sys (getIterator b mem) rs it ∧ rs.map Prod.fst = ps ∧ Returns b sys it it' 0

theorem readsBack_iff (h : Handle b sys app B head (area B l)) (hl : Fits B l) (mem : Nat → UInt8) :
    ReadsBack b sys mem (payloads l) ↔
      4096 + (area B l).length < 2 ^ 32 ∧ min B (area B l).length < 2 ^ 31 := by
  have hlen : sys.data.length = 4096 + (area B l).length := by rw [h.data, List.length_append, h.head]
  constructor
  · rintro ⟨it, it', rs, hi, hrs, hr⟩
    have hsmall : 4096 + (area B l).length < 2 ^ 32 := by
      by_contra hbig
      have hB : 0 < B := by
        by_contra h0
        obtain rfl : B = 0 := by omega
        obtain rfl := no_entries hl
        exact hbig (by decide)
      exact never_zero h hB (by omega) it it' hr
    refine ⟨hsmall, ?_⟩
    by_contra hbig
    have hlog : Log b sys B l := h.log hl (by omega)
    obtain ⟨it₁, h₁⟩ := first_too_long hlog (by omega) mem
    cases hi with
    | nil =>
      rw [List.map_nil, eq_comm, payloads, List.map_eq_nil_iff] at hrs
      subst hrs
      rw [area_nil, List.length_nil] at hbig
      omega
    | cons h₂ _ _ _ _ =>
      have hv := (h₁.unique h₂).2
      omega
  · rintro ⟨hsmall, hshort⟩
    obtain ⟨it, it', hi, hr⟩ := iterates_all (h.log hl (by omega)) hshort mem
    refine ⟨it, it', _, hi, ?_, hr⟩
    exact List.map_fst_zip (Nat.le_of_eq (length_offsets _ _ _).symm)

/-- Sessions write the log that one session writes, and it is read back, just when no
later session pads a block and the log is small enough. -/
theorem reopen_iff (b₀ b₀' : Binlog) (sys₀ sys₀' : Sys) {fd fd' : Int} (hfd : fd ≠ -1) (hfd' : fd' ≠ -1)
    (B t t' : UInt32) (l l' : List Entry) (ss : List Session) (hss : ∀ s ∈ ss, s.fd ≠ -1) (hl' : Fits B.toNat l')
    (h : payloads l' = payloads (l ++ later ss)) (mem : Nat → UInt8) :
    ∃ b sys offs b' sys' offs', sessions b₀ sys₀ fd B t l ss = some (b, sys, offs) ∧
      sessions b₀' sys₀' fd' B t' l' [] = some (b', sys', offs') ∧
      (SameFile B.toNat sys.data sys'.data ∧ offs = offs' ∧ ReadsBack b sys mem (payloads l') ↔
        Reopenable B.toNat (payloads l) (payloads (later ss))) := by
  have hfits : Fits B.toNat (l ++ later ss) := fits_iff.mpr (h ▸ fits_iff.mp hl')
  by_cases hp : NeverPads B.toNat (endAt B.toNat 0 (payloads l)) (payloads (later ss))
  · obtain ⟨b, sys, app, hs, hh⟩ := sessions_spec b₀ sys₀ hfd t l ss hss
      (fun e he => hfits e (List.mem_append_left _ he)) (fun e he => hfits e (List.mem_append_right _ he)) hp
    obtain ⟨b', sys', app', hs', hh'⟩ := sessions_spec b₀' sys₀' hfd' t' l' [] (by simp) hl'
      (by simp [later, Fits]) trivial
    rw [show l' ++ later [] = l' from List.append_nil l'] at hs' hh'
    have hsame : SameFile B.toNat sys.data sys'.data := by
      rw [hh.data, hh'.data]
      exact files_agree hfits h.symm
    have hread := readsBack_iff hh hfits mem
    rw [← h, length_area, ← h] at hread
    refine ⟨b, sys, _, b', sys', _, hs, hs', ⟨fun ⟨_, _, hr⟩ => ⟨hp, ?_, ?_⟩, fun hr => ⟨hsame, by rw [h], ?_⟩⟩⟩
    · rw [← payloads_append, ← h]
      exact (hread.mp hr).1
    · rw [← payloads_append, ← h]
      exact (hread.mp hr).2
    · have h₁ := hr.file
      have h₂ := hr.block
      rw [← payloads_append, ← h] at h₁ h₂
      exact hread.mpr ⟨h₁, h₂⟩
  · obtain ⟨b, sys, offs, b', sys', offs', hs, hs', hne⟩ := sessions_not_same b₀ b₀' sys₀ sys₀' t t'
      hfd hfd' hss hl' h hp
    exact ⟨b, sys, offs, b', sys', offs', hs, hs', fun hsame => absurd hsame.1 hne, fun hr => absurd hr.noPads hp⟩

/-- A second session that stays in the block. -/
theorem reopen_in_block : ∃ b sys offs b' sys' offs',
    sessions unopened noFile 3 64 5 [(1, [7])] [⟨4, fun _ => 0, [(2, [8])]⟩] = some (b, sys, offs) ∧
    sessions unopened noFile 3 64 6 [(1, [7]), (3, [8])] [] = some (b', sys', offs') ∧
    SameFile 64 sys.data sys'.data ∧ offs = offs' ∧ ReadsBack b sys (fun _ => 0) [[7], [8]] := by
  obtain ⟨b, sys, offs, b', sys', offs', hs, hs', h⟩ := reopen_iff unopened unopened noFile noFile
    (show (3 : Int) ≠ -1 by decide) (show (3 : Int) ≠ -1 by decide) 64 5 6 [(1, [7])]
    [(1, [7]), (3, [8])] [⟨4, fun _ => 0, [(2, [8])]⟩]
    (by simp) (by decide) rfl fun _ => 0
  exact ⟨b, sys, offs, b', sys', offs', hs, hs', h.mpr ⟨⟨by decide, trivial⟩, by decide, by decide⟩⟩

/-- A second session that pads: its block head is where the padding should be. -/
theorem reopen_shifts : ∃ b sys offs b' sys' offs',
    sessions unopened noFile 3 20 5 [(1, [])] [⟨4, fun _ => 0, [(2, [8])]⟩] = some (b, sys, offs) ∧
    sessions unopened noFile 3 20 5 [(1, []), (2, [8])] [] = some (b', sys', offs') ∧
    ¬SameFile 20 sys.data sys'.data :=
  sessions_not_same _ _ _ _ _ _ (by decide) (by decide) (by simp) (by decide) rfl fun h => h.1 (by decide)

end Binlog
end SimpleSvr.L3
