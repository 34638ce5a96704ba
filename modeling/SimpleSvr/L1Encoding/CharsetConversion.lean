import Mathlib.Data.List.TakeWhile
import SimpleSvr.Core.Charset

/-!
# Text from one charset to another (`CharsetConversion.hpp`)

`operator<<` gives `iconv` what is left of a text again and again. `iconv` stops
at a byte where no character starts that both charsets have, and the loop drops
that byte; it would drop one as well when the output is full, but the buffer is
four times as long as the text, which is enough.

`converts_text`: so a conversion is the scan of `Core/Charset.lean`, on any bytes
up to the first NUL; a text comes out as its characters that the other charset
has, and coming back they are the same.

The charsets are parameters. They keep no state, as those that the header names
conversions for; with a version of `iconv` that can leave bytes out by itself the
loop is compiled in another way, which is not modelled.
-/
namespace SimpleSvr.L1

/-- mirrors include/CharsetConversion.hpp:108-116 -/
def ENCODER : List String := ["utf-8", "utf-16", "utf-32", "gbk", "gb18030", "big5"]

/-- What `iconv_open` gives; `none` is `(iconv_t)-1`. -/
abbrev Iconv (C : Type) := Option (Charset C × Charset C)

/-- mirrors include/CharsetConversion.hpp:93-96 -/
structure CharsetConversion (C : Type) where
  m_iconv : Iconv C
  m_strText : Bytes := []

variable {C : Type} {F T : Charset C} {out rest : Bytes} {ok : Bool}

/-- The characters in front that `T` has and there is room for. -/
def iconvFrom (F T : Charset C) (inbuf : Bytes) (outbytesleft : Nat) : Bytes × Bytes × Bool :=
  match _ : Charset.next F T inbuf with
  | none => (inbuf, [], inbuf = [])
  | some (n, out) =>
    if out.length ≤ outbytesleft then
      let (rest, outs, ok) := iconvFrom F T (inbuf.drop n) (outbytesleft - out.length)
      (rest, out ++ outs, ok)
    else (inbuf, [], false)
termination_by inbuf.length
decreasing_by
  have hle := Charset.next_le ‹_›
  rw [List.length_drop]
  omega

/-- What is left of `inbuf`, what is written, and whether it does not return `(size_t)-1`. -/
def iconv (cd : Iconv C) (inbuf : Bytes) (outbytesleft : Nat) : Bytes × Bytes × Bool :=
  match cd with
  | none => (inbuf, [], false)
  | some (F, T) => iconvFrom F T inbuf outbytesleft

theorem iconvFrom_left (F T : Charset C) (inbuf : Bytes) (outbytesleft : Nat) :
    (iconvFrom F T inbuf outbytesleft).1.length ≤ inbuf.length ∧
      ((iconvFrom F T inbuf outbytesleft).2.2 = true ↔ (iconvFrom F T inbuf outbytesleft).1 = []) := by
  fun_induction iconvFrom F T inbuf outbytesleft with
  | case1 => simp
  | case2 inbuf outbytesleft n out hn hroom rest outs ok hrec ih =>
    rw [hrec, List.length_drop] at ih
    exact ⟨Nat.le_trans ih.1 (Nat.sub_le ..), ih.2⟩
  | case3 inbuf outbytesleft n out hn =>
    have hne : inbuf ≠ [] := by
      rintro rfl
      rw [Charset.next_nil] at hn
      cases hn
    exact ⟨Nat.le_refl _, ⟨Bool.noConfusion, fun h => absurd h hne⟩⟩

theorem iconv_left {cd : Iconv C} {inbuf : Bytes} {outbytesleft : Nat} (hne : inbuf ≠ [])
    (h : iconv cd inbuf outbytesleft = (rest, out, ok)) : rest.length ≤ inbuf.length ∧ (ok = true ↔ rest = []) := by
  cases cd with
  | none =>
    cases h
    exact ⟨Nat.le_refl _, ⟨Bool.noConfusion, fun h => absurd h hne⟩⟩
  | some cd =>
    have hleft := iconvFrom_left cd.1 cd.2 inbuf outbytesleft
    have heq : iconvFrom cd.1 cd.2 inbuf outbytesleft = (rest, out, ok) := h
    rwa [heq] at hleft

/-- The loop: what it writes to the buffer.
mirrors include/CharsetConversion.hpp:44-64 -/
def convert (cd : Iconv C) (inbuf : Bytes) (outbytesleft : Nat) : Bytes :=
  if _ : inbuf = [] then []
  else
    match _ : iconv cd inbuf outbytesleft with
    | (rest, out, true) => out ++ convert cd rest (outbytesleft - out.length)
    | (rest, out, false) => out ++ convert cd (rest.drop 1) (outbytesleft - out.length)
termination_by inbuf.length
decreasing_by
  all_goals have hleft := iconv_left ‹_› ‹_›
  · rw [hleft.2.mp rfl]
    exact List.length_pos_iff.mpr ‹_›
  · have hrest : 0 < rest.length := List.length_pos_iff.mpr fun h => Bool.noConfusion (hleft.2.mpr h)
    rw [List.length_drop]
    omega

namespace CharsetConversion

/-- `iconv_open` knows the charsets by their names.
mirrors include/CharsetConversion.hpp:20-26 -/
def new (charset : String → Option (Charset C)) (From To : Nat) : CharsetConversion C where
  m_iconv :=
    match ENCODER[From]?.bind charset, ENCODER[To]?.bind charset with
    | some F, some T => some (F, T)
    | _, _ => none

/-- `operator<<`; `str` is taken up to its first NUL.
mirrors include/CharsetConversion.hpp:34-73 -/
def put (conv : CharsetConversion C) (str : Bytes) : CharsetConversion C :=
  let inbuf := str.takeWhile (· ≠ 0)
  let bufferSize := (inbuf.length + 1) * 4 % 2 ^ 64
  { conv with m_strText := conv.m_strText ++ convert conv.m_iconv inbuf bufferSize }

/-- mirrors include/CharsetConversion.hpp:80-83 -/
def clear (conv : CharsetConversion C) : CharsetConversion C := { conv with m_strText := [] }

/-- The second component is `strTo`.
mirrors include/CharsetConversion.hpp:85-90 -/
def ConvertTo (conv : CharsetConversion C) (strFrom strTo : Bytes) : CharsetConversion C × Bytes :=
  ((conv.put strFrom).clear, strTo ++ (conv.put strFrom).m_strText)

end CharsetConversion

/-! ## The loop is the scan -/

/-- With room for four bytes a byte, `iconv` stops only where `scan` drops a byte, and leaves as much room again. -/
theorem iconvFrom_scan (inbuf : Bytes) (outbytesleft : Nat) (hroom : 4 * inbuf.length ≤ outbytesleft)
    (h : iconvFrom F T inbuf outbytesleft = (rest, out, ok)) :
    F.scan T inbuf = out ++ F.scan T (rest.drop 1) ∧ out.length + 4 * rest.length ≤ 4 * inbuf.length := by
  fun_induction iconvFrom F T inbuf outbytesleft generalizing rest out ok with
  | case1 inbuf outbytesleft hn =>
    cases h
    exact ⟨Charset.scan_none hn, by simp⟩
  | case2 inbuf outbytesleft n front hn hfits rest' outs ok' hrec ih =>
    cases h
    have hle := Charset.next_le hn
    rw [List.length_drop] at ih
    obtain ⟨hscan, hleft⟩ := ih (by omega) hrec
    refine ⟨by rw [Charset.scan_some hn, hscan, List.append_assoc], ?_⟩
    rw [List.length_append]
    omega
  | case3 inbuf outbytesleft n front hn hfull =>
    -- there is room for the four bytes of a character
    have hle := Charset.next_le hn
    omega

theorem convert_scan (inbuf : Bytes) (outbytesleft : Nat) (hroom : 4 * inbuf.length ≤ outbytesleft) :
    convert (some (F, T)) inbuf outbytesleft = F.scan T inbuf := by
  fun_induction convert (some (F, T)) inbuf outbytesleft with
  | case1 => exact Charset.scan_nil.symm
  | case2 inbuf outbytesleft hne rest out hrec ih =>
    obtain ⟨hscan, hleft⟩ := iconvFrom_scan inbuf outbytesleft hroom hrec
    have hrest := (iconv_left hne hrec).2.mp rfl
    rw [ih (by omega), hscan, hrest, List.drop_nil]
  | case3 inbuf outbytesleft hne rest out hrec ih =>
    obtain ⟨hscan, hleft⟩ := iconvFrom_scan inbuf outbytesleft hroom hrec
    rw [List.length_drop] at ih
    rw [ih (by omega), hscan]

theorem convert_none (inbuf : Bytes) (outbytesleft : Nat) : convert (none : Iconv C) inbuf outbytesleft = [] := by
  fun_induction convert (none : Iconv C) inbuf outbytesleft with
  | case1 => rfl
  | case2 inbuf outbytesleft hne rest out hrec ih => cases hrec
  | case3 inbuf outbytesleft hne rest out hrec ih =>
    cases hrec
    exact ih

namespace CharsetConversion

variable {conv : CharsetConversion C}

theorem ConvertTo_scan (hconv : conv.m_iconv = some (F, T)) {str : Bytes} (hlen : str.length < 2 ^ 61) (strTo : Bytes) :
    (conv.ConvertTo str strTo).2 = strTo ++ conv.m_strText ++ F.scan T (str.takeWhile (· ≠ 0)) := by
  have hle : (str.takeWhile (· ≠ 0)).length ≤ str.length := (List.takeWhile_sublist _).length_le
  have hsize : ((str.takeWhile (· ≠ 0)).length + 1) * 4 % 2 ^ 64 = ((str.takeWhile (· ≠ 0)).length + 1) * 4 :=
    Nat.mod_eq_of_lt (by omega)
  simp only [ConvertTo, put, hconv, hsize]
  rw [convert_scan _ _ (by omega), List.append_assoc]

/-- Between charsets that `iconv_open` has no conversion for, nothing comes out. -/
theorem put_none (hconv : conv.m_iconv = none) (str : Bytes) : (conv.put str).m_strText = conv.m_strText := by
  simp only [put, hconv, convert_none, List.append_nil]

/-- Without a NUL the whole text is converted. -/
theorem ConvertTo_write (hconv : conv.m_iconv = some (F, T)) {text : List C} (hF : ∀ c ∈ text, (F.encode c).isSome)
    (hloose : ∀ c ∈ text, T.encode c = none → F.Loose c) (hnul : 0 ∉ F.write text)
    (hlen : (F.write text).length < 2 ^ 61) (strTo : Bytes) :
    (conv.ConvertTo (F.write text) strTo).2 = strTo ++ conv.m_strText ++ T.write text := by
  have hwhole : (F.write text).takeWhile (· ≠ 0) = F.write text :=
    List.takeWhile_eq_self_iff.mpr fun b hb => decide_eq_true fun h => hnul (h ▸ hb)
  rw [ConvertTo_scan hconv hlen, hwhole, Charset.scan_write hF hloose]

end CharsetConversion

open CharsetConversion in
/-- A conversion appends what `scan` finds; of a text without NULs that is what the other charset has of it, and
coming back it is the same. -/
theorem converts_text {conv : CharsetConversion C} (hconv : conv.m_iconv = some (F, T)) :
    (∀ str strTo, str.length < 2 ^ 61 →
      (conv.ConvertTo str strTo).2 = strTo ++ conv.m_strText ++ F.scan T (str.takeWhile (· ≠ 0))) ∧
    ∀ text, (∀ c ∈ text, (F.encode c).isSome) → (∀ c ∈ text, T.encode c = none → F.Loose c) →
      0 ∉ F.write text → (F.write text).length < 2 ^ 61 →
      (∀ strTo, (conv.ConvertTo (F.write text) strTo).2 = strTo ++ conv.m_strText ++ T.write text) ∧
      ∀ (back : CharsetConversion C) (strTo : Bytes), back.m_iconv = some (T, F) →
        0 ∉ T.write text → (T.write text).length < 2 ^ 61 →
        (back.ConvertTo (T.write text) strTo).2 =
          strTo ++ back.m_strText ++ F.write (text.filter fun c => (T.encode c).isSome) := by
  refine ⟨fun str strTo hlen => ConvertTo_scan hconv hlen strTo, fun text hF hloose hnul hlen => ⟨?_, ?_⟩⟩
  · exact ConvertTo_write hconv hF hloose hnul hlen
  · intro back strTo hback hnul' hlen'
    rw [← Charset.write_filter text] at hnul' hlen' ⊢
    refine ConvertTo_write hback (fun c hc => (List.mem_filter.mp hc).2) (fun c hc hnone => ?_) hnul' hlen' strTo
    have hsome := hF c (List.mem_filter.mp hc).1
    rw [hnone] at hsome
    cases hsome

/-- Some of Unicode. -/
inductive Letter where
  | a
  | eAcute
  | nTilde
deriving DecidableEq

def utf8 : Charset Letter where
  encode
    | .a => some [0x61]
    | .eAcute => some [0xC3, 0xA9]
    | .nTilde => some [0xC3, 0x91]
  decode
    | 0x61 :: _ => some (.a, 1)
    | 0xC3 :: 0xA9 :: _ => some (.eAcute, 2)
    | 0xC3 :: 0x91 :: _ => some (.nTilde, 2)
    | _ => none
  encode_le := by rintro (_ | _ | _) bytes h <;> cases h <;> decide
  decode_le := by
    intro bytes c n h
    split at h <;> cases h <;> simp
  decode_encode := by rintro (_ | _ | _) bytes rest h <;> cases h <;> rfl

/-- GBK has no `nTilde`. -/
def gbk : Charset Letter where
  encode
    | .a => some [0x61]
    | .eAcute => some [0xA8, 0xA6]
    | .nTilde => none
  decode
    | 0x61 :: _ => some (.a, 1)
    | 0xA8 :: 0xA6 :: _ => some (.eAcute, 2)
    | _ => none
  encode_le := by rintro (_ | _ | _) bytes h <;> cases h <;> decide
  decode_le := by
    intro bytes c n h
    split at h <;> cases h <;> simp
  decode_encode := by rintro (_ | _ | _) bytes rest h <;> cases h <;> rfl

def letters (name : String) : Option (Charset Letter) :=
  if name = "utf-8" then some utf8 else if name = "gbk" then some gbk else none

theorem loose_nTilde : utf8.Loose .nTilde := by
  rintro bytes h k hpos hlt rest
  cases h
  have hk : k = 1 := by simp only [List.length_cons, List.length_nil] at hlt; omega
  rw [hk]
  rfl

/-- `UTF8toGBK` and `GBKtoUTF8` -/
theorem converts_text_letters :
    ((CharsetConversion.new letters 0 3).ConvertTo [0x61, 0xC3, 0xA9, 0xC3, 0x91, 0x61] []).2 =
        [0x61, 0xA8, 0xA6, 0x61] ∧
      ((CharsetConversion.new letters 3 0).ConvertTo [0x61, 0xA8, 0xA6, 0x61] []).2 = [0x61, 0xC3, 0xA9, 0x61] := by
  have htext := (@converts_text _ utf8 gbk (.new letters 0 3) rfl).2
    [.a, .eAcute, .nTilde, .a] (by decide) (by
      rintro (_ | _ | _) _ h
      · cases h
      · cases h
      · exact loose_nTilde) (by decide) (by decide)
  exact ⟨htext.1 [], htext.2 (.new letters 3 0) [] rfl (by decide) (by decide)⟩

end SimpleSvr.L1
