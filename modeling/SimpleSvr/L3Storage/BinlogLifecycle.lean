import SimpleSvr.Core.LTS
import SimpleSvr.L3Storage.Binlog

/-!
# The descriptor of a `Binlog`

What the operations do with descriptors is a list of events. `lifecycle`: every
use and every close is of a descriptor that is open, and a handle that was
closed, or whose last opening failed, says so, in every run in which `Close` is
not called on an open handle and an opening that got a descriptor succeeds.
`Close`, and the failing exits of `OpenLog` and `CreateLog` behind `open`, leave
`m_fdBinlog` as it is.
-/
namespace SimpleSvr.L3

inductive FdEvent where
  | opened (fd : Int)
  | used (fd : Int)
  | closed (fd : Int)
  deriving DecidableEq, Repr

/-- A `Binlog` with what its operations did; `shut` says that `Close` was called, or opening failed,
since the last opening that succeeded. -/
structure Owner where
  binlog : Binlog
  history : List FdEvent := []
  shut : Bool := false

/-- The operations with their system calls. The file and the descriptors are those of the moment. -/
inductive BinlogOp where
  | openLog (sys : Sys) (io : OpenCalls)
  | createLog (sys : Sys) (io : CreateCalls) (dwBlockSize : UInt32)
  | close
  | write (sys : Sys) (io : WriteCalls) (buffer : Bytes)
  | getSize
  | getIterator (mem : Nat → UInt8)
  | next (sys : Sys) (io : Nat → ReadCalls) (n : Nat) (it : BinlogIterator)

namespace Binlog

/-- mirrors include/Binlog.hpp:110-113 -/
def isOpen (b : Binlog) : Bool := b.fdBinlog ≠ -1

/-- A turn of `Next` reads the file. -/
def refills (b : Binlog) (sys : Sys) (io : Nat → ReadCalls) : Nat → BinlogIterator → Bool
  | 0, _ => false
  | n + 1, it =>
    it.dwOffset ≥ ofInt32 it.dwRealSize ||
      match turn b sys (io 0) it with
      | .again it => refills b sys (fun k => io (k + 1)) n it
      | .done _ => false

/-! ## Events -/

/-- mirrors src/Binlog.cc:63,91 -/
def closeOld (b : Binlog) : List FdEvent := if b.fdBinlog = -1 then [] else [.closed b.fdBinlog]

/-- mirrors src/Binlog.cc:61-87 -/
def openEvents (b : Binlog) (sys : Sys) (io : OpenCalls) : List FdEvent :=
  closeOld b ++
    match io.newFd with
    | none => []
    | some fd => [.opened fd, .used fd] ++ if (openLog b sys io).2.2 = -1 then [.closed fd] else []

/-- mirrors src/Binlog.cc:89-117 -/
def createEvents (b : Binlog) (io : CreateCalls) : List FdEvent :=
  closeOld b ++
    match io.newFd with
    | none => []
    | some fd => [.opened fd, .used fd]

/-- mirrors src/Binlog.cc:124-133 -/
def sizeEvents (b : Binlog) : List FdEvent := [.used b.fdBinlog]

/-- mirrors src/Binlog.cc:135-145 -/
def writeEvents (b : Binlog) (buffer : Bytes) : List FdEvent :=
  if b.fdBinlog = -1 ∨ u32 (getLogSize buffer.length) > b.stHead.dwBlockSize.toNat then [] else [.used b.fdBinlog]

/-- mirrors src/Binlog.cc:273-354 -/
def nextEvents (b : Binlog) (sys : Sys) (io : Nat → ReadCalls) (n : Nat) (it : BinlogIterator) : List FdEvent :=
  if it.dwBlockSize < b.stHead.dwBlockSize.toNat ∨ refills b sys io n it = false then [] else [.used b.fdBinlog]

end Binlog

namespace Owner

open Binlog

def step (s : Owner) : BinlogOp → Owner
  | .openLog sys io =>
    ⟨(s.binlog.openLog sys io).1, s.history ++ openEvents s.binlog sys io, (s.binlog.openLog sys io).2.2 = -1⟩
  | .createLog sys io B =>
    ⟨(s.binlog.createLog sys io B).1, s.history ++ createEvents s.binlog io, (s.binlog.createLog sys io B).2.2 = -1⟩
  | .close => ⟨s.binlog, s.history ++ [.closed s.binlog.fdBinlog], true⟩
  | .write _ _ buffer => { s with history := s.history ++ writeEvents s.binlog buffer }
  | .getSize => { s with history := s.history ++ sizeEvents s.binlog }
  | .getIterator _ => s
  | .next sys io n it => { s with history := s.history ++ nextEvents s.binlog sys io n it }

/-- `open` does not return -1 as a descriptor. -/
def enabled : BinlogOp → Prop
  | .openLog _ io => io.newFd ≠ some (-1)
  | .createLog _ io _ => io.newFd ≠ some (-1)
  | _ => True

/-- A `Binlog` as the constructor leaves it, and any operations on it. -/
def operations : LTS Owner BinlogOp where
  init s := s.binlog.fdBinlog = -1 ∧ s.history = [] ∧ s.shut = false
  step s op s' := Owner.enabled op ∧ s' = s.step op

/-- `fd` was opened and has not been closed since. -/
def OpenIn (h : List FdEvent) (fd : Int) : Prop := ∃ g₁ g₂, h = g₁ ++ .opened fd :: g₂ ∧ .closed fd ∉ g₂

/-- Every descriptor that is used or closed is open at that moment. -/
def Disciplined (h : List FdEvent) : Prop :=
  ∀ h₁ e h₂ fd, h = h₁ ++ e :: h₂ → e = .used fd ∨ e = .closed fd → fd ≠ -1 → OpenIn h₁ fd

/-- No descriptor is misused; a handle that is shut says so, and refuses writes. -/
structure Owned (s : Owner) : Prop where
  disciplined : Disciplined s.history
  shut : s.shut = true → s.binlog.isOpen = false ∧
    ∀ sys io buffer, s.binlog.write sys io buffer = some (sys, -1)

/-- The head of the file is read from the new descriptor, and is one. -/
def FindsHead (b : Binlog) (sys : Sys) (io : OpenCalls) (fd : Int) : Prop :=
  ∃ got stHead,
    (((if b.fdBinlog = -1 then sys else sys.close b.fdBinlog).openFile io.newFd true).1.pread fd io.pread headSize 0) =
      some got ∧
    getHead (L1.IOBuffer.new (got ++ ((List.range headSize).drop got.length).map io.stale) (UInt64.ofNat headSize)
      (UInt64.ofNat headSize)) b.stHead = .ok stHead ∧
    stHead.cMagic = headMagic ∧ stHead.wVersion = headVersion

/-- `Close` is not called on an open handle, and a descriptor that was got can be used: the head is
read and is one, or it is written. -/
def Keeps (s : Owner) : BinlogOp → Prop
  | .openLog sys io => ∀ fd, io.newFd = some fd → FindsHead s.binlog sys io fd
  | .createLog _ io _ => io.newFd = none ∨ io.write ≠ .fail
  | .close => s.binlog.fdBinlog = -1
  | _ => True

/-! ## Events in order -/

variable {h g : List FdEvent} {fd : Int} {e : FdEvent}

theorem OpenIn.concat (ho : OpenIn h fd) (he : e ≠ .closed fd) : OpenIn (h ++ [e]) fd := by
  obtain ⟨g₁, g₂, rfl, hg⟩ := ho
  refine ⟨g₁, g₂ ++ [e], by simp, fun hmem => ?_⟩
  rcases List.mem_append.mp hmem with hmem | hmem
  · exact hg hmem
  · exact he (List.mem_singleton.mp hmem).symm

theorem openIn_opened (h : List FdEvent) (fd : Int) : OpenIn (h ++ [.opened fd]) fd :=
  ⟨h, [], rfl, List.not_mem_nil⟩

theorem disciplined_nil : Disciplined [] := by
  intro h₁ e h₂ fd heq
  simp at heq

theorem Disciplined.concat (hd : Disciplined h) (he : ∀ fd, e = .used fd ∨ e = .closed fd → fd ≠ -1 → OpenIn h fd) :
    Disciplined (h ++ [e]) := by
  intro h₁ e' h₂ fd heq huse hne
  rcases List.eq_nil_or_concat h₂ with rfl | ⟨h₃, e'', rfl⟩
  · obtain ⟨rfl, hlast⟩ := List.append_inj' heq rfl
    cases hlast
    exact he fd huse hne
  · have hsplit : h ++ [e] = (h₁ ++ e' :: h₃) ++ [e''] := by simpa using heq
    exact hd h₁ e' h₃ fd (List.append_inj' hsplit rfl).1 huse hne

theorem Disciplined.opened (hd : Disciplined h) (fd : Int) : Disciplined (h ++ [.opened fd]) :=
  hd.concat fun _ he => he.elim nofun nofun

theorem Disciplined.used (hd : Disciplined h) (ho : fd ≠ -1 → OpenIn h fd) : Disciplined (h ++ [.used fd]) := by
  refine hd.concat fun fd' he hne => ?_
  rcases he with he | he <;> cases he
  exact ho hne

theorem Disciplined.closed (hd : Disciplined h) (ho : fd ≠ -1 → OpenIn h fd) : Disciplined (h ++ [.closed fd]) := by
  refine hd.concat fun fd' he hne => ?_
  rcases he with he | he <;> cases he
  exact ho hne

/-! ## Opening and creating -/

variable {b : Binlog} {sys : Sys} {s : Owner}

theorem openLog_none (b : Binlog) (sys : Sys) {io : OpenCalls} (hio : io.newFd = none) :
    (openLog b sys io).1.fdBinlog = -1 ∧ (openLog b sys io).2.2 = -1 := by
  unfold openLog Sys.openFile
  rw [hio]
  exact ⟨rfl, rfl⟩

/-- Whatever follows, the handle has the new descriptor. -/
theorem openLog_fd (b : Binlog) (sys : Sys) {io : OpenCalls} (hio : io.newFd = some fd) (hfd : fd ≠ -1) :
    (openLog b sys io).1.fdBinlog = fd := by
  unfold openLog Sys.openFile
  simp only [hio, hfd, if_false]
  split
  · rfl
  · split
    · rfl
    · split <;> rfl

theorem openLog_ret (b : Binlog) (sys : Sys) {io : OpenCalls} (hio : io.newFd = some fd) (hfd : fd ≠ -1) :
    (openLog b sys io).2.2 = -1 ↔ ¬FindsHead b sys io fd := by
  unfold openLog FindsHead Sys.openFile
  simp only [hio, hfd, if_false]
  split
  · next hnone =>
    refine ⟨fun _ hfinds => ?_, fun _ => rfl⟩
    obtain ⟨got, stHead, hgot, -⟩ := hfinds
    rw [hnone] at hgot
    cases hgot
  · next got hgot =>
    split
    · next e he =>
      refine ⟨fun _ hfinds => ?_, fun _ => rfl⟩
      obtain ⟨got', stHead, hgot', hhead, -⟩ := hfinds
      cases hgot.symm.trans hgot'
      cases he.symm.trans hhead
    · next stHead hhead =>
      split
      · next hm =>
        refine ⟨fun _ hfinds => ?_, fun _ => rfl⟩
        obtain ⟨got', stHead', hgot', hhead', hmagic, hversion⟩ := hfinds
        cases hgot.symm.trans hgot'
        cases hhead.symm.trans hhead'
        exact hm.elim (· hmagic) (· hversion)
      · next hm =>
        refine ⟨nofun, fun hno => absurd ⟨got, stHead, hgot, hhead, ?_⟩ hno⟩
        exact ⟨of_not_not fun h => hm (.inl h), of_not_not fun h => hm (.inr h)⟩

theorem createLog_fd (b : Binlog) (sys : Sys) (io : CreateCalls) (B : UInt32) :
    (createLog b sys io B).1.fdBinlog = io.newFd.getD (-1) := by
  unfold createLog Sys.openFile
  cases io.newFd with
  | none => rfl
  | some fd =>
    by_cases hfd : fd = -1
    · simp [hfd]
    · simp [hfd]

theorem createLog_ret (b : Binlog) (sys : Sys) {io : CreateCalls} (B : UInt32) (hio : io.newFd ≠ some (-1)) :
    (createLog b sys io B).2.2 = -1 ↔ io.newFd = none ∨ io.write = .fail := by
  unfold createLog Sys.openFile
  cases hfd : io.newFd with
  | none => simp
  | some fd =>
    have hne : fd ≠ -1 := fun h => hio (by rw [hfd, h])
    have hdesc : (((if b.fdBinlog = -1 then sys else sys.close b.fdBinlog).setDesc fd
        (some ⟨0, false⟩)).truncate fd io.ftruncate).desc fd = some ⟨0, false⟩ := by
      rw [Sys.truncate_desc, Sys.setDesc_self]
    simp [hne, Sys.write_eq_none hdesc]

/-! ## Runs -/

/-- The handle's descriptor is open. -/
structure OwnerInv (s : Owner) : Prop where
  disciplined : Disciplined s.history
  current : s.binlog.fdBinlog ≠ -1 → OpenIn s.history s.binlog.fdBinlog
  shut : s.shut = true → s.binlog.fdBinlog = -1

theorem OwnerInv.owned (h : OwnerInv s) : Owned s where
  disciplined := h.disciplined
  shut hs := by
    have hfd := h.shut hs
    refine ⟨by simp [isOpen, hfd], fun sys io buffer => ?_⟩
    unfold write
    exact if_pos hfd

theorem OwnerInv.closeOld (h : OwnerInv s) : Disciplined (s.history ++ closeOld s.binlog) := by
  unfold Binlog.closeOld
  split
  · rw [List.append_nil]
    exact h.disciplined
  · exact h.disciplined.closed h.current

/-- After the old descriptor was closed, a new one is opened and used. -/
theorem disciplined_opening (hd : Disciplined h) (fd : Int) : Disciplined (h ++ [.opened fd, .used fd]) := by
  rw [List.append_cons]
  exact (hd.opened fd).used fun _ => openIn_opened h fd

theorem openIn_opening (h : List FdEvent) (fd : Int) : OpenIn (h ++ [.opened fd, .used fd]) fd := by
  rw [List.append_cons]
  exact (openIn_opened h fd).concat nofun

/-- An operation on the handle's descriptor. -/
theorem OwnerInv.use (h : OwnerInv s) {es : List FdEvent} (hes : es = [] ∨ es = [.used s.binlog.fdBinlog]) :
    OwnerInv { s with history := s.history ++ es } := by
  rcases hes with rfl | rfl
  · rw [List.append_nil]
    exact h
  · exact ⟨h.disciplined.used h.current, fun hne => (h.current hne).concat nofun, h.shut⟩

theorem inv_open (h : OwnerInv s) {io : OpenCalls} (hio : io.newFd ≠ some (-1))
    (hk : Keeps s (.openLog sys io)) : OwnerInv (s.step (.openLog sys io)) := by
  have hclose := h.closeOld
  cases hfd : io.newFd with
  | none =>
    obtain ⟨hnew, hret⟩ := openLog_none s.binlog sys hfd
    refine ⟨?_, fun hne => absurd hnew hne, fun _ => hnew⟩
    simp only [Owner.step, openEvents, hfd, List.append_nil]
    exact hclose
  | some fd =>
    have hne : fd ≠ -1 := fun he => hio (by rw [hfd, he])
    have hnew := openLog_fd s.binlog sys hfd hne
    have hret : ¬(openLog s.binlog sys io).2.2 = -1 := by
      rw [openLog_ret s.binlog sys hfd hne, not_not]
      exact hk fd hfd
    have hevents : (s.step (.openLog sys io)).history =
        (s.history ++ Binlog.closeOld s.binlog) ++ [.opened fd, .used fd] := by
      simp [Owner.step, openEvents, hfd, hret]
    refine ⟨?_, fun _ => ?_, fun hs => ?_⟩
    · rw [hevents]
      exact disciplined_opening hclose fd
    · rw [hevents, show (s.step (.openLog sys io)).binlog.fdBinlog = fd from hnew]
      exact openIn_opening _ fd
    · exact absurd (of_decide_eq_true hs) hret

theorem inv_create (h : OwnerInv s) {io : CreateCalls} {B : UInt32} (hio : io.newFd ≠ some (-1))
    (hk : Keeps s (.createLog sys io B)) : OwnerInv (s.step (.createLog sys io B)) := by
  have hclose := h.closeOld
  have hnew := createLog_fd s.binlog sys io B
  have hret := createLog_ret s.binlog sys B hio
  cases hfd : io.newFd with
  | none =>
    rw [hfd] at hnew
    refine ⟨?_, fun hne => absurd hnew hne, fun _ => hnew⟩
    simp only [Owner.step, createEvents, hfd, List.append_nil]
    exact hclose
  | some fd =>
    rw [hfd] at hnew
    have hevents : (s.step (.createLog sys io B)).history =
        (s.history ++ Binlog.closeOld s.binlog) ++ [.opened fd, .used fd] := by
      simp [Owner.step, createEvents, hfd]
    refine ⟨?_, fun _ => ?_, fun hs => ?_⟩
    · rw [hevents]
      exact disciplined_opening hclose fd
    · rw [hevents, show (s.step (.createLog sys io B)).binlog.fdBinlog = fd from hnew]
      exact openIn_opening _ fd
    · rcases hret.mp (of_decide_eq_true hs) with hnone | hfail
      · rw [hfd] at hnone
        cases hnone
      · exact (hk.elim (fun hnone => by rw [hfd] at hnone; cases hnone) (absurd hfail))

theorem inv_step (h : OwnerInv s) {op : BinlogOp} (he : Owner.enabled op) (hk : Keeps s op) : OwnerInv (s.step op) := by
  cases op with
  | openLog sys io => exact inv_open h he hk
  | createLog sys io B => exact inv_create h he hk
  | close =>
    have hfd : s.binlog.fdBinlog = -1 := hk
    exact ⟨h.disciplined.closed fun hne => absurd hfd hne, fun hne => absurd hfd hne, fun _ => hfd⟩
  | write sys io buffer =>
    apply h.use
    unfold writeEvents
    split
    · exact .inl rfl
    · exact .inr rfl
  | getSize => exact h.use (.inr rfl)
  | getIterator mem => exact h
  | next sys io n it =>
    apply h.use
    unfold nextEvents
    split
    · exact .inl rfl
    · exact .inr rfl

theorem inv_inductive : (operations.guard Keeps).Inductive OwnerInv where
  init := by
    intro s hinit
    obtain ⟨hfd, hhist, -⟩ := hinit
    refine ⟨?_, fun hne => absurd hfd hne, fun _ => hfd⟩
    rw [hhist]
    exact disciplined_nil
  step := by
    intro s op s' h hstep
    obtain ⟨hk, he, rfl⟩ := hstep
    exact inv_step h he hk

/-- A step that is not allowed leaves a handle that is shut and looks open. -/
theorem not_owned {op : BinlogOp} (he : Owner.enabled op) (hk : ¬Keeps s op) : ¬Owned (s.step op) := by
  intro ho
  cases op with
  | openLog sys io =>
    obtain ⟨fd, hfd, hno⟩ : ∃ fd, io.newFd = some fd ∧ ¬FindsHead s.binlog sys io fd := by
      simpa [Keeps] using hk
    have hne : fd ≠ -1 := fun heq => he (by rw [hfd, heq])
    have hret := (openLog_ret s.binlog sys hfd hne).mpr hno
    have hopen := (ho.shut (decide_eq_true hret)).1
    have hnew := openLog_fd s.binlog sys hfd hne
    simp [isOpen, Owner.step, hnew, hne] at hopen
  | createLog sys io B =>
    obtain ⟨hsome, hfail⟩ := not_or.mp hk
    have hret := (createLog_ret s.binlog sys B he).mpr (.inr (of_not_not hfail))
    have hopen := (ho.shut (decide_eq_true hret)).1
    cases hfd : io.newFd with
    | none => exact hsome hfd
    | some fd =>
      have hne : fd ≠ -1 := fun heq => he (by rw [hfd, heq])
      have hnew := createLog_fd s.binlog sys io B
      simp [isOpen, Owner.step, hnew, hfd, hne] at hopen
  | close =>
    have hopen := (ho.shut rfl).1
    have hfd : ¬s.binlog.fdBinlog ≠ -1 := of_decide_eq_false hopen
    exact hk (of_not_not hfd)
  | write sys io buffer => exact hk trivial
  | getSize => exact hk trivial
  | getIterator mem => exact hk trivial
  | next sys io n it => exact hk trivial

/-- In a run of allowed operations descriptors are used and closed while they are open, and a handle
that is shut says so; and the first operation that is not allowed ends that. -/
theorem lifecycle {s : Owner} (hr : (operations.guard Keeps).Reachable s) :
    Owned s ∧ ∀ op s', operations.step s op s' → (Owned s' ↔ Keeps s op) := by
  have h := inv_inductive.reachable s hr
  refine ⟨h.owned, fun op s' hs => ⟨fun ho => ?_, fun hk => ?_⟩⟩
  · obtain ⟨he, rfl⟩ := hs
    by_contra hk
    exact not_owned he hk ho
  · obtain ⟨he, rfl⟩ := hs
    exact (inv_step h he hk).owned

/-- A handle as the constructor leaves it. -/
def constructed : Owner := ⟨⟨-1, ⟨[], 0, 0, 0, 0⟩⟩, [], false⟩

/-- `CreateLog`, with descriptor 3. -/
def creation : BinlogOp := .createLog ⟨[], fun _ => none⟩ ⟨some 3, true, 0, .full⟩ 64

theorem constructed_create : operations.step constructed creation (constructed.step creation) := ⟨nofun, rfl⟩

theorem creation_fd : (constructed.step creation).binlog.fdBinlog = 3 :=
  createLog_fd _ _ _ _

/-- A log is created and its size is read. -/
theorem lifecycle_created : ∃ s, (operations.guard Keeps).Reachable s ∧
    s.history = [.opened 3, .used 3, .used 3] ∧ Owned s := by
  have r₀ : (operations.guard Keeps).Reachable constructed := .init ⟨rfl, rfl, rfl⟩
  have r₁ := r₀.allowed constructed_create (.inr nofun)
  have hget : operations.step (constructed.step creation) .getSize ((constructed.step creation).step .getSize) :=
    ⟨trivial, rfl⟩
  have r₂ := r₁.allowed hget trivial
  refine ⟨_, r₂, ?_, (lifecycle r₂).1⟩
  show (constructed.step creation).history ++ [.used (constructed.step creation).binlog.fdBinlog] = _
  rw [creation_fd]
  rfl

theorem not_openIn_closed (h : List FdEvent) (fd : Int) : ¬OpenIn (h ++ [.closed fd]) fd := by
  intro hsplit
  obtain ⟨g₁, g₂, heq, hg⟩ := hsplit
  rcases List.eq_nil_or_concat g₂ with rfl | ⟨g₃, e, rfl⟩
  · have hlast := (List.append_inj' heq rfl).2
    cases hlast
  · have hsplit : h ++ [.closed fd] = (g₁ ++ .opened fd :: g₃) ++ [e] := by simpa using heq
    cases (List.append_inj' hsplit rfl).2
    exact hg (by simp)

/-- A log is created and closed, and then another is opened: descriptor 3 is closed twice; before
that the handle that was closed looked open. -/
theorem close_twice : ∃ s s' op, operations.Reachable s ∧ s.shut = true ∧ s.binlog.isOpen = true ∧
    operations.step s op s' ∧ s'.history = [.opened 3, .used 3, .closed 3, .closed 3] ∧ ¬Disciplined s'.history := by
  have r₀ : operations.Reachable constructed := .init ⟨rfl, rfl, rfl⟩
  have r₁ := r₀.step constructed_create
  have hclose : operations.step (constructed.step creation) .close ((constructed.step creation).step .close) :=
    ⟨trivial, rfl⟩
  have r₂ := r₁.step hclose
  have hfd : ((constructed.step creation).step .close).binlog.fdBinlog = 3 := creation_fd
  have hhist : ((constructed.step creation).step .close).history = [.opened 3, .used 3] ++ [.closed 3] := by
    show (constructed.step creation).history ++ [.closed (constructed.step creation).binlog.fdBinlog] = _
    rw [creation_fd]
    rfl
  have hopen : (((constructed.step creation).step .close).step
      (.openLog ⟨[], fun _ => none⟩ ⟨none, .full, fun _ => 0⟩)).history =
      ([.opened 3, .used 3] ++ [.closed 3]) ++ [.closed 3] := by
    show _ ++ openEvents _ _ _ = _
    rw [hhist]
    simp [openEvents, Binlog.closeOld, hfd]
  refine ⟨_, _, .openLog ⟨[], fun _ => none⟩ ⟨none, .full, fun _ => 0⟩, r₂, rfl, ?_, ⟨nofun, rfl⟩, hopen, fun hd => ?_⟩
  · simp [isOpen, hfd]
  · rw [hopen] at hd
    exact not_openIn_closed _ 3 (hd _ _ [] 3 rfl (.inr rfl) (by decide))

end Owner
end SimpleSvr.L3
