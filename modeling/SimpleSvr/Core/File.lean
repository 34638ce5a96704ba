import SimpleSvr.Core.Bytes

/-!
# A file and its open descriptions

POSIX semantics of one regular file: positioned reads, writes that leave a
hole of zeros when they start past the end (`store`), and `O_APPEND`, which
moves every write to the end of the file whatever `lseek` did before
(`Desc.target`). `Outcome` says how a call that may transfer fewer bytes than
asked, or fail, turned out.
-/
namespace SimpleSvr

/-- How a system call turned out: all it could transfer, an error, or at most
`n` bytes. -/
inductive Outcome where
  | full
  | fail
  | short (n : Nat)
  deriving DecidableEq, Repr

/-- The number of bytes transferred out of `n`, `none` for an error. -/
def Outcome.amount : Outcome → Nat → Option Nat
  | .full, n => some n
  | .fail, _ => none
  | .short m, n => some (min m n)

/-- An open file description. -/
structure Desc where
  pos : Nat
  append : Bool
  deriving DecidableEq, Repr

/-- The file, and the open descriptors on it. -/
structure Sys where
  data : Bytes
  desc : Int → Option Desc

namespace Sys

def setDesc (s : Sys) (fd : Int) (d : Option Desc) : Sys :=
  { s with desc := fun i => if i = fd then d else s.desc i }

/-- Storing bytes at `pos`; a gap before it reads as zeros. -/
def store (data : Bytes) (pos : Nat) (bytes : Bytes) : Bytes :=
  if bytes = [] then data
  else (data ++ List.replicate (pos - data.length) 0).take pos ++ bytes ++ data.drop (pos + bytes.length)

/-- Where the next write goes. -/
def target (d : Desc) (data : Bytes) : Nat := if d.append then data.length else d.pos

/-- `open`: the new descriptor is `fd`, `none` for an error. -/
def openFile (s : Sys) (fd : Option Int) (append : Bool) : Sys × Int :=
  match fd with
  | none => (s, -1)
  | some fd => (s.setDesc fd (some ⟨0, append⟩), fd)

/-- `close`; on a descriptor that is not open it does nothing. -/
def close (s : Sys) (fd : Int) : Sys := s.setDesc fd none

/-- `write` and `writev`: how many bytes were stored, `none` for an error. -/
def write (s : Sys) (fd : Int) (o : Outcome) (bytes : Bytes) : Sys × Option Nat :=
  match s.desc fd, o.amount bytes.length with
  | some d, some n =>
    let pos := target d s.data
    ({ s with data := store s.data pos (bytes.take n) }.setDesc fd (some { d with pos := pos + n }), some n)
  | _, _ => (s, none)

/-- `pread` of `n` bytes at `off`, `none` for an error. -/
def pread (s : Sys) (fd : Int) (o : Outcome) (n off : Nat) : Option Bytes :=
  match s.desc fd with
  | none => none
  | some _ =>
    let got := (s.data.drop off).take n
    (o.amount got.length).map got.take

/-- `fstat`'s `st_size`, `none` for an error. -/
def size (s : Sys) (fd : Int) (ok : Bool) : Option Nat :=
  match s.desc fd with
  | none => none
  | some _ => if ok then some s.data.length else none

/-- `lseek(fd, n, SEEK_CUR)`, `none` for an error. -/
def seekCur (s : Sys) (fd : Int) (ok : Bool) (n : Nat) : Option Sys :=
  match s.desc fd with
  | none => none
  | some d => if ok then some (s.setDesc fd (some { d with pos := d.pos + n })) else none

/-- `ftruncate(fd, 0)`; a failure leaves the file as it is. -/
def truncate (s : Sys) (fd : Int) (ok : Bool) : Sys :=
  match s.desc fd with
  | none => s
  | some _ => if ok then { s with data := [] } else s

variable {s : Sys} {fd : Int} {d : Desc} {data bytes : Bytes} {n off : Nat}

@[simp] theorem setDesc_self (o : Option Desc) : (s.setDesc fd o).desc fd = o := if_pos rfl

@[simp] theorem setDesc_data (o : Option Desc) : (s.setDesc fd o).data = s.data := rfl

theorem store_at_end (hb : bytes ≠ []) : store data data.length bytes = data ++ bytes := by
  rw [store, if_neg hb, Nat.sub_self, List.replicate_zero, List.append_nil, List.take_length,
    List.drop_eq_nil_of_le (Nat.le_add_right _ _), List.append_nil]

theorem store_empty (hb : bytes ≠ []) : store [] 0 bytes = bytes := store_at_end hb

theorem store_past_end (n : Nat) (hb : bytes ≠ []) :
    store data (data.length + n) bytes = data ++ List.replicate n 0 ++ bytes := by
  rw [store, if_neg hb, Nat.add_sub_cancel_left, List.take_of_length_le (by simp),
    List.drop_eq_nil_of_le (by omega), List.append_nil]

theorem write_full (hd : s.desc fd = some d) :
    s.write fd .full bytes = ({ s with data := store s.data (target d s.data) bytes }.setDesc fd
      (some { d with pos := target d s.data + bytes.length }), some bytes.length) := by
  simp [write, hd, Outcome.amount]

theorem write_eq_none (hd : s.desc fd = some d) {o : Outcome} : (s.write fd o bytes).2 = none ↔ o = .fail := by
  cases o <;> simp [write, hd, Outcome.amount]

theorem truncate_desc (ok : Bool) : (s.truncate fd ok).desc = s.desc := by
  unfold truncate
  split
  · rfl
  · split <;> rfl

theorem pread_full (hd : s.desc fd = some d) :
    s.pread fd .full n off = some ((s.data.drop off).take n) := by
  simp only [pread, hd, Outcome.amount, Option.map_some, List.take_length]

theorem size_ok (hd : s.desc fd = some d) : s.size fd true = some s.data.length := by
  simp [size, hd]

theorem seekCur_ok (hd : s.desc fd = some d) :
    s.seekCur fd true n = some (s.setDesc fd (some { d with pos := d.pos + n })) := by
  simp [seekCur, hd]

end Sys
end SimpleSvr
