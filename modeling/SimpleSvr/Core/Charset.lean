import SimpleSvr.Core.Bytes

/-!
# Charsets

A charset writes a character as up to four bytes and reads one from the front of
bytes. `scan` goes from one charset to another: where a character stands that both
have it is written in the other, and where none stands one byte is dropped.

`scan_write`: a text comes out as its characters that the other charset has. A
character that the other one lacks must be `Loose`: its bytes are dropped one by
one, and no other character may start inside it. In UTF-8 every character is; in a
charset of double bytes the second byte can begin the next character.
-/
namespace SimpleSvr

structure Charset (C : Type) where
  encode : C → Option Bytes
  /-- The character in front, and how many bytes it is. -/
  decode : Bytes → Option (C × Nat)
  encode_le : ∀ {c bytes}, encode c = some bytes → bytes.length ≤ 4
  decode_le : ∀ {bytes c n}, decode bytes = some (c, n) → 0 < n ∧ n ≤ bytes.length
  decode_encode : ∀ {c bytes} (rest : Bytes), encode c = some bytes → decode (bytes ++ rest) = some (c, bytes.length)

namespace Charset

variable {C : Type} {F T : Charset C} {c : C} {bytes out : Bytes} {n : Nat}

/-- A text in the charset, without the characters that the charset lacks. -/
def write (T : Charset C) (text : List C) : Bytes := text.flatMap fun c => (T.encode c).getD []

theorem write_cons (text : List C) : T.write (c :: text) = (T.encode c).getD [] ++ T.write text := List.flatMap_cons

/-- The character of `F` in front as `T` has it, and how many bytes it is in `F`. -/
def next (F T : Charset C) (bytes : Bytes) : Option (Nat × Bytes) :=
  match F.decode bytes with
  | none => none
  | some (c, n) => (T.encode c).map fun out => (n, out)

theorem next_le (h : next F T bytes = some (n, out)) : 0 < n ∧ n ≤ bytes.length ∧ out.length ≤ 4 := by
  rw [next] at h
  split at h
  · cases h
  · next c n' hd =>
    obtain ⟨out', he, heq⟩ := Option.map_eq_some_iff.mp h
    cases heq
    exact ⟨(F.decode_le hd).1, (F.decode_le hd).2, T.encode_le he⟩

theorem next_nil : next F T [] = none := by
  cases h : next F T [] with
  | none => rfl
  | some r =>
    have hle := next_le h
    simp only [List.length_nil] at hle
    omega

theorem encode_pos (h : F.encode c = some bytes) : 0 < bytes.length := (F.decode_le (F.decode_encode [] h)).1

/-- `c` is the character in front. -/
theorem next_write (h : F.encode c = some bytes) (rest : Bytes) :
    next F T (bytes ++ rest) = (T.encode c).map fun out => (bytes.length, out) := by
  rw [next, F.decode_encode rest h]

/-- What `T` has of the characters of `F`, and nothing of the bytes between. -/
def scan (F T : Charset C) (bytes : Bytes) : Bytes :=
  match _ : next F T bytes with
  | some (n, out) => out ++ scan F T (bytes.drop n)
  | none => if bytes = [] then [] else scan F T (bytes.drop 1)
termination_by bytes.length
decreasing_by
  · have hle := next_le ‹_›
    rw [List.length_drop]
    omega
  · next hne =>
    have hpos := List.length_pos_iff.mpr hne
    rw [List.length_drop]
    omega

@[simp] theorem scan_nil : scan F T [] = [] := by
  rw [scan]
  split
  · next h => rw [next_nil] at h; cases h
  · rfl

theorem scan_some (h : next F T bytes = some (n, out)) : scan F T bytes = out ++ scan F T (bytes.drop n) := by
  rw [scan]
  split
  · next h' => rw [h] at h'; cases h'; rfl
  · next h' => rw [h] at h'; cases h'

theorem scan_none (h : next F T bytes = none) : scan F T bytes = scan F T (bytes.drop 1) := by
  by_cases hne : bytes = []
  · rw [hne, List.drop_nil]
  · rw [scan]
    split
    · next h' => rw [h] at h'; cases h'
    · exact if_neg hne

/-- No character starts inside `c`, whatever is behind it. -/
def Loose (F : Charset C) (c : C) : Prop :=
  ∀ bytes, F.encode c = some bytes → ∀ k, 0 < k → k < bytes.length → ∀ rest, F.decode (bytes.drop k ++ rest) = none

/-- Inside a loose character nothing is found. -/
theorem scan_loose (hloose : F.Loose c) (h : F.encode c = some bytes) (rest : Bytes) : ∀ k, 0 < k → k ≤ bytes.length →
    scan F T (bytes.drop k ++ rest) = scan F T rest := by
  intro k hpos hle
  induction hm : bytes.length - k generalizing k with
  | zero => rw [List.drop_eq_nil_of_le (by omega), List.nil_append]
  | succ m ih =>
    have hnext : next F T (bytes.drop k ++ rest) = none := by
      rw [next, hloose bytes h k hpos (by omega) rest]
    have hdrop : (bytes.drop k ++ rest).drop 1 = bytes.drop (k + 1) ++ rest := by
      rw [List.drop_append_of_le_length (by rw [List.length_drop]; omega), List.drop_drop]
    rw [scan_none hnext, hdrop]
    exact ih (k + 1) (by omega) (by omega) (by omega)

theorem scan_char (h : F.encode c = some bytes) (hloose : T.encode c = none → F.Loose c) (rest : Bytes) :
    scan F T (bytes ++ rest) = (T.encode c).getD [] ++ scan F T rest := by
  have hnext := next_write (T := T) h rest
  cases hc : T.encode c with
  | none =>
    have hpos := encode_pos h
    have hdrop : (bytes ++ rest).drop 1 = bytes.drop 1 ++ rest := List.drop_append_of_le_length hpos
    rw [hc] at hnext
    rw [scan_none hnext, hdrop, scan_loose (hloose hc) h rest 1 Nat.one_pos hpos]
    rfl
  | some out =>
    rw [hc] at hnext
    rw [scan_some hnext, List.drop_left]
    rfl

theorem scan_write {text : List C} (hF : ∀ c ∈ text, (F.encode c).isSome)
    (hloose : ∀ c ∈ text, T.encode c = none → F.Loose c) : scan F T (F.write text) = T.write text := by
  induction text with
  | nil => exact scan_nil
  | cons c text ih =>
    obtain ⟨bytes, h⟩ := Option.isSome_iff_exists.mp (hF c List.mem_cons_self)
    have hwrite : F.write (c :: text) = bytes ++ F.write text := by rw [write_cons, h, Option.getD_some]
    rw [hwrite, scan_char h (hloose c List.mem_cons_self), write_cons,
      ih (fun c hc => hF c (List.mem_cons_of_mem _ hc)) fun c hc => hloose c (List.mem_cons_of_mem _ hc)]

/-- What is written of a text is what is written of the characters that there are. -/
theorem write_filter (text : List C) : T.write (text.filter fun c => (T.encode c).isSome) = T.write text := by
  induction text with
  | nil => rfl
  | cons c text ih =>
    rw [write_cons, List.filter_cons]
    cases hc : T.encode c with
    | none => simpa using ih
    | some out => simpa [write_cons, hc] using ih

end Charset
end SimpleSvr
