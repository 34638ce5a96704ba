import SimpleSvr.L5App.LogTimers
import Mathlib.Data.List.Induction
import Mathlib.Data.List.Pairwise

/-!
# Hourly rotation

`Write` prints to the file that is open and looks for another afterwards, and
`ShiftLog` takes a file that exists for one that is open. So the first message
of an hour goes to the file of an earlier one, and so do all of them where the
hour's file was there before. The name is made of `now / 3600 * 3600`, an hour
of UTC, which where local hours begin in between may be in the local hour before
that of `now`; and it is cut to what the buffer holds.

The file that a message belongs to is `hourFile`: the hour is that of
`localtime_r` at the time of the message, and nothing is cut.

`rotation_iff`: every message is in that file exactly when each finds it open,
because `Initialize` ran in the same hour, or because the file was not there at
first and the `ShiftLog` of an earlier message ran in that hour; and in both
cases the beginning of the hour of UTC in which it ran has to be in the hour of
the message as well (`Names`), and the name short enough.

What is assumed of `localtime_r` is `Calendar`, the ranges of its fields, and
`Forward`: an hour that is over does not come back. (A clock that is set back by
an hour repeats the hour that it is in.)
-/
namespace SimpleSvr.L5.SimpleLog

/-- A call of `Write`: the time of its message and that of its `ShiftLog`. -/
structure Message where
  tv : Nat
  now : Nat

/-- `m_Path` -/
def directory (path : Bytes) : Bytes := if path = [] then [46] else path

/-- The file of the hour of `t`. -/
def hourFile (host : Host) (path : Bytes) (t : Nat) : Bytes := fileName host (directory path) (host.localtime_r t)

/-- A log is opened in a directory of these files and written to, and all file operations succeed. -/
def writes (host : Host) (files : List Bytes) (path : Bytes) (t₀ : Nat) (ws : List Message) : SimpleLog :=
  ws.foldl (fun log w => log.Write host w.tv w.now false true) ((new files).Initialize host path t₀ true)

/-- Each message is appended to the file of its hour. -/
def Exact (host : Host) (files : List Bytes) (path : Bytes) (t₀ : Nat) (ws : List Message) : Prop :=
  (writes host files path t₀ ws).appended = ws.map fun w => (hourFile host path w.tv, w.tv)

def times (t₀ : Nat) (ws : List Message) : List Nat := t₀ :: ws.flatMap fun w => [w.tv, w.now]

/-- The clock is not set back. -/
def Ordered (t₀ : Nat) (ws : List Message) : Prop := (times t₀ ws).Pairwise (· ≤ ·)

/-- The times, and those that the names are made of. -/
def asked (t₀ : Nat) (ws : List Message) : List Nat := times t₀ ws ++ (times t₀ ws).map fun t => t / 3600 * 3600

/-- The fields of a `tm` are in their ranges. -/
def InCalendar (tm : Tm) : Prop := tm.tm_mon < 12 ∧ tm.tm_mday ≤ 31 ∧ tm.tm_hour < 24

def Calendar (localtime_r : Nat → Tm) (ts : List Nat) : Prop := ∀ t ∈ ts, InCalendar (localtime_r t)

/-- `localtime_r` does not come back to an hour after another. -/
def Forward (localtime_r : Nat → Tm) (ts : List Nat) : Prop :=
  ∀ a ∈ ts, ∀ b ∈ ts, ∀ c ∈ ts, a ≤ b → b ≤ c → localtime_r a = localtime_r c → localtime_r b = localtime_r c

/-- `Initialize` or `ShiftLog` at `a` names the file of the hour of `t`. -/
def Names (host : Host) (path : Bytes) (a t : Nat) : Prop :=
  host.localtime_r (a / 3600 * 3600) = host.localtime_r t ∧ (hourFile host path t).length ≤ 258

instance (host : Host) (path : Bytes) (a t : Nat) : Decidable (Names host path a t) :=
  inferInstanceAs (Decidable (_ ∧ _))

/-- Each message finds the file of its hour open: `Initialize` opened it, or it was not there and the
`ShiftLog` of an earlier message did. -/
def Timely (host : Host) (files : List Bytes) (path : Bytes) (t₀ : Nat) (ws : List Message) : Prop :=
  ∀ before w after, ws = before ++ w :: after →
    Names host path t₀ w.tv ∨ hourFile host path w.tv ∉ files ∧ ∃ v ∈ before, Names host path v.now w.tv

/-! ## Names -/

/-- The characters of `%0wd`. -/
def padded (w n : Nat) : List Char := List.replicate (w - (Nat.toDigits 10 n).length) '0' ++ Nat.toDigits 10 n

theorem pad_eq (w n : Nat) : pad w n = (padded w n).map fun c => UInt8.ofNat c.toNat := by
  rw [pad, padded, digits, List.map_append, List.map_replicate, List.length_map]
  rfl

theorem isDigit_padded {w n : Nat} {c : Char} (h : c ∈ padded w n) : c.isDigit := by
  rcases List.mem_append.mp h with h | h
  · rw [(List.mem_replicate.mp h).2]
    rfl
  · exact Nat.isDigit_of_mem_toDigits (by decide) (by decide) h

theorem ofNat_code {c : Char} (h : c.isDigit) : Char.ofNat (UInt8.ofNat c.toNat).toNat = c := by
  have hle : c.toNat ≤ 57 := by
    simp only [Char.isDigit, Bool.and_eq_true, decide_eq_true_eq] at h
    exact h.2
  rw [UInt8.toNat_ofNat', Nat.mod_eq_of_lt (by omega), Char.ofNat_toNat]

/-- The number is read off its digits. -/
theorem pad_inj {w m n : Nat} (h : pad w m = pad w n) : m = n := by
  have hback : ∀ k, (pad w k).map (fun b => Char.ofNat b.toNat) = padded w k := by
    intro k
    rw [pad_eq, List.map_map]
    exact (List.map_congr_left fun c hc => ofNat_code (isDigit_padded hc)).trans (List.map_id _)
  have hvalue : ∀ k, Nat.ofDigitChars 10 (padded w k) 0 = k := by
    intro k
    rw [padded, Nat.ofDigitChars_append, Nat.ofDigitChars_replicate_zero, Nat.mul_zero, Nat.ofDigitChars_ten_toDigits]
  rw [← hvalue m, ← hvalue n, ← hback m, ← hback n, h]

theorem length_pad {w n : Nat} (hw : 0 < w) (h : n < 10 ^ w) : (pad w n).length = w := by
  have hlen := (Nat.length_toDigits_le_iff (by decide) hw).mpr h
  rw [pad_eq, List.length_map, padded, List.length_append, List.length_replicate]
  omega

theorem dot_not_mem_pad (w n : Nat) : (46 : UInt8) ∉ pad w n := by
  intro h
  obtain ⟨c, hc, hdot⟩ := List.mem_map.mp (pad_eq w n ▸ h)
  have hcode := ofNat_code (isDigit_padded hc)
  have hdigit := isDigit_padded hc
  rw [← hcode, hdot] at hdigit
  cases hdigit

theorem dot_not_mem_stamp (tm : Tm) : (46 : UInt8) ∉ stamp tm := by
  simp [stamp, dot_not_mem_pad]

/-- A stamp tells the hour. -/
theorem stamp_inj {a b : Tm} (ha : InCalendar a) (hb : InCalendar b) (h : stamp a = stamp b) : a = b := by
  obtain ⟨hmon, hmday, hhour⟩ := ha
  obtain ⟨hmon', hmday', hhour'⟩ := hb
  have hlen : ∀ {m n : Nat}, m < 100 → n < 100 → (pad 2 m).length = (pad 2 n).length := fun hm hn => by
    rw [length_pad (by decide) hm, length_pad (by decide) hn]
  obtain ⟨h, h4⟩ := List.append_inj' h (hlen (by omega) (by omega))
  obtain ⟨h, h3⟩ := List.append_inj' h (hlen (by omega) (by omega))
  obtain ⟨h1, h2⟩ := List.append_inj' h (hlen (by omega) (by omega))
  have hyear := Nat.add_right_cancel (pad_inj h1)
  have hmonth := Nat.add_right_cancel (pad_inj h2)
  obtain ⟨y, m, d, hr⟩ := a
  obtain ⟨y', m', d', hr'⟩ := b
  simp only [Tm.mk.injEq]
  exact ⟨hyear, hmonth, pad_inj h3, pad_inj h4⟩

/-- What stands before the first dot. -/
theorem eq_of_dot {a b x y : Bytes} (ha : (46 : UInt8) ∉ a) (hb : (46 : UInt8) ∉ b)
    (h : a ++ 46 :: x = b ++ 46 :: y) : a = b := by
  have hbefore : ∀ {l : Bytes} (r : Bytes), (46 : UInt8) ∉ l → (l ++ 46 :: r).takeWhile (· != 46) = l := by
    intro l r hl
    have hall : ∀ c ∈ l, (c != 46) = true := fun c hc => bne_iff_ne.mpr (ne_of_mem_of_not_mem hc hl)
    rw [List.takeWhile_append_of_pos hall]
    simp
  rw [← hbefore x ha, ← hbefore y hb, h]

/-- What the code opens at `a` is the file of the hour of `t` if the hour of UTC begins in it and nothing is cut. -/
theorem logName_iff {host : Host} {path : Bytes} {a t : Nat} (ha : InCalendar (host.localtime_r (a / 3600 * 3600)))
    (ht : InCalendar (host.localtime_r t)) :
    logName host (directory path) a = hourFile host path t ↔ Names host path a t := by
  unfold logName Names
  constructor
  · intro h
    refine ⟨?_, by rw [← h]; exact List.length_take_le _ _⟩
    have hcut := List.take_append_drop 258 (fileName host (directory path) (host.localtime_r (a / 3600 * 3600)))
    rw [h, hourFile, fileName, fileName] at hcut
    simp only [List.append_assoc, List.append_cancel_left_eq] at hcut
    exact (stamp_inj ht ha (eq_of_dot (dot_not_mem_stamp _) (dot_not_mem_stamp _) hcut)).symm
  · rintro ⟨htm, hshort⟩
    rw [htm]
    exact List.take_of_length_le hshort

/-! ## One message -/

/-- The file `n` is open. -/
structure At (log : SimpleLog) (m_Path n : Bytes) : Prop where
  path : log.m_Path = m_Path
  stream : ∃ f, log.m_File = some f ∧ log.streams[f]? = some n

variable {host : Host} {log : SimpleLog} {m_Path n : Bytes}

theorem at_fopen (log : SimpleLog) (h : log.m_Path = m_Path) (name : Bytes) : At (log.fopen name true) m_Path name :=
  ⟨h, log.streams.length, rfl, List.getElem?_concat_length⟩

theorem mem_fopen (log : SimpleLog) (name : Bytes) (n : Bytes) :
    n ∈ (log.fopen name true).files ↔ n = name ∨ n ∈ log.files := by
  have hfiles : (log.fopen name true).files = if name ∈ log.files then log.files else name :: log.files := rfl
  rw [hfiles]
  split
  · next h => exact ⟨.inr, fun hn => hn.elim (fun he => he ▸ h) id⟩
  · exact List.mem_cons

/-- The message goes to the file that is open; and then that of the hour is, unless it was there. -/
theorem write_at (h : At log m_Path n) (tv now : Nat) :
    (log.Write host tv now false true).appended = log.appended ++ [(n, tv)] ∧
      (logName host m_Path now ∈ log.files → At (log.Write host tv now false true) m_Path n ∧
        (log.Write host tv now false true).files = log.files) ∧
      (logName host m_Path now ∉ log.files →
        At (log.Write host tv now false true) m_Path (logName host m_Path now) ∧
        ∀ m, m ∈ (log.Write host tv now false true).files ↔ m = logName host m_Path now ∨ m ∈ log.files) := by
  obtain ⟨hpath, f, hf, hn⟩ := h
  have huse : log.use = { log with misused := log.misused || log.closed.contains f } := by
    unfold SimpleLog.use
    rw [hf]
  have hwrite : log.Write host tv now false true =
      if logName host m_Path now ∈ log.files then
        { log with misused := log.misused || log.closed.contains f, appended := log.appended ++ [(n, tv)] }
      else ({ log with
        misused := log.misused || log.closed.contains f
        appended := log.appended ++ [(n, tv)]
        closed := f :: log.closed } : SimpleLog).fopen (logName host m_Path now) true := by
    unfold Write ShiftLog
    simp only [hf, huse, hn, hpath, Option.getD_some]
    simp [SimpleLog.fclose]
  rw [hwrite]
  by_cases hc : logName host m_Path now ∈ log.files
  · rw [if_pos hc]
    exact ⟨rfl, fun _ => ⟨⟨hpath, f, hf, hn⟩, rfl⟩, fun hno => absurd hc hno⟩
  · rw [if_neg hc]
    refine ⟨rfl, fun hyes => absurd hyes hc, fun _ => ⟨at_fopen _ ?_ _, mem_fopen _ _⟩⟩
    exact hpath

/-! ## All messages -/

/-- The file `n` is open once the messages are written: that of `Initialize`, or one that was not there and
that a `ShiftLog` made. `name` is what is opened at a time. -/
def Opens (name : Nat → Bytes) (files : List Bytes) (t₀ : Nat) (ws : List Message) (n : Bytes) : Prop :=
  n = name t₀ ∨ n ∉ files ∧ ∃ v ∈ ws, name v.now = n

/-- What was opened in an hour is what is opened until a message of that hour. -/
def Steady (name file : Nat → Bytes) (ts : List Nat) : Prop :=
  ∀ a ∈ ts, ∀ b ∈ ts, ∀ c ∈ ts, a ≤ b → b ≤ c → name a = file c → name b = file c

variable {name file : Nat → Bytes} {files : List Bytes} {path : Bytes} {t₀ : Nat} {ws : List Message}

theorem times_concat (t₀ : Nat) (ws : List Message) (w : Message) :
    times t₀ (ws ++ [w]) = times t₀ ws ++ [w.tv, w.now] := by
  rw [times, List.flatMap_append]
  rfl

theorem mem_times_now {v : Message} (h : v ∈ ws) : v.now ∈ times t₀ ws :=
  List.mem_cons_of_mem _ (List.mem_flatMap.mpr ⟨v, h, by simp⟩)

theorem ordered_concat {w : Message} :
    Ordered t₀ (ws ++ [w]) ↔ Ordered t₀ ws ∧ w.tv ≤ w.now ∧ ∀ a ∈ times t₀ ws, a ≤ w.tv ∧ a ≤ w.now := by
  rw [Ordered, times_concat, List.pairwise_append]
  simp [Ordered]

theorem Opens.concat {w : Message} (h : Opens name files t₀ ws n) : Opens name files t₀ (ws ++ [w]) n :=
  h.imp_right fun h => ⟨h.1, h.2.imp fun _ hv => ⟨List.mem_append_left _ hv.1, hv.2⟩⟩

/-- The files and the open one after some messages; for a time that is still to come, what is open is the
file of its hour where that can be. -/
structure Opened (name file : Nat → Bytes) (files : List Bytes) (t₀ : Nat) (ts : List Nat) (ws : List Message)
    (present : List Bytes) (n : Bytes) : Prop where
  present : ∀ m, m ∈ present ↔ m ∈ files ∨ m = name t₀ ∨ ∃ v ∈ ws, name v.now = m
  opens : Opens name files t₀ ws n
  follows : ∀ t ∈ ts, (∀ a ∈ times t₀ ws, a ≤ t) → Opens name files t₀ ws (file t) → n = file t

/-- `ShiftLog` finds the file of the hour. -/
theorem Opened.stay {ts : List Nat} {present : List Bytes} {w : Message} (h : Opened name file files t₀ ts ws present n)
    (hw : name w.now ∈ present) : Opened name file files t₀ ts (ws ++ [w]) present n where
  present m := by
    rw [h.present]
    have hold := (h.present _).mp hw
    constructor
    · rintro (hm | hm | ⟨v, hv, hm⟩)
      · exact .inl hm
      · exact .inr (.inl hm)
      · exact .inr (.inr ⟨v, List.mem_append_left _ hv, hm⟩)
    · rintro (hm | hm | ⟨v, hv, rfl⟩)
      · exact .inl hm
      · exact .inr (.inl hm)
      · rcases List.mem_append.mp hv with hv | hv
        · exact .inr (.inr ⟨v, hv, rfl⟩)
        · rw [List.mem_singleton.mp hv]
          exact hold
  opens := h.opens.concat
  follows t ht hlate ho := by
    have hlate' : ∀ a ∈ times t₀ ws, a ≤ t := fun a ha => hlate a (times_concat t₀ ws w ▸ List.mem_append_left _ ha)
    apply h.follows t ht hlate'
    rcases ho with ho | ⟨hno, v, hv, hvt⟩
    · exact .inl ho
    · rcases List.mem_append.mp hv with hv | hv
      · exact .inr ⟨hno, v, hv, hvt⟩
      · -- the hour of this message was opened before it
        rw [List.mem_singleton.mp hv] at hvt
        rcases (h.present _).mp hw with hold | hold | ⟨u, hu, hold⟩
        · exact absurd (hvt ▸ hold) hno
        · exact .inl (hvt ▸ hold)
        · exact .inr ⟨hno, u, hu, hold.trans hvt⟩

/-- `ShiftLog` opens the file of the hour. -/
theorem Opened.shift {ts : List Nat} {present present' : List Bytes} {w : Message}
    (h : Opened name file files t₀ ts ws present n) (hf : Steady name file ts) (hord : Ordered t₀ (ws ++ [w]))
    (hsub : ∀ a ∈ times t₀ (ws ++ [w]), a ∈ ts) (hw : name w.now ∉ present)
    (hpresent : ∀ m, m ∈ present' ↔ m = name w.now ∨ m ∈ present) :
    Opened name file files t₀ ts (ws ++ [w]) present' (name w.now) where
  present m := by
    rw [hpresent, h.present]
    constructor
    · rintro (hm | hm | hm | ⟨v, hv, hm⟩)
      · exact .inr (.inr ⟨w, List.mem_append_right _ (List.mem_singleton_self w), hm.symm⟩)
      · exact .inl hm
      · exact .inr (.inl hm)
      · exact .inr (.inr ⟨v, List.mem_append_left _ hv, hm⟩)
    · rintro (hm | hm | ⟨v, hv, hm⟩)
      · exact .inr (.inl hm)
      · exact .inr (.inr (.inl hm))
      · rcases List.mem_append.mp hv with hv | hv
        · exact .inr (.inr (.inr ⟨v, hv, hm⟩))
        · rw [List.mem_singleton.mp hv] at hm
          exact .inl hm.symm
  opens := .inr ⟨fun hold => hw ((h.present _).mpr (.inl hold)), w,
    List.mem_append_right _ (List.mem_singleton_self w), rfl⟩
  follows t ht hlate ho := by
    obtain ⟨-, -, hearlier⟩ := ordered_concat.mp hord
    have hnow : w.now ∈ times t₀ (ws ++ [w]) := mem_times_now (List.mem_append_right _ (List.mem_singleton_self w))
    have hbetween {a : Nat} (ha : a ∈ times t₀ ws) (hat : name a = file t) : name w.now = file t :=
      hf a (hsub a (times_concat t₀ ws w ▸ List.mem_append_left _ ha)) w.now (hsub _ hnow) t ht (hearlier a ha).2
        (hlate _ hnow) hat
    rcases ho with ho | ⟨hno, v, hv, hvt⟩
    · exact hbetween List.mem_cons_self ho.symm
    · rcases List.mem_append.mp hv with hv | hv
      · exact hbetween (mem_times_now hv) hvt
      · rw [List.mem_singleton.mp hv] at hvt
        exact hvt

theorem writes_concat (host : Host) (files : List Bytes) (path : Bytes) (t₀ : Nat) (ws : List Message) (w : Message) :
    writes host files path t₀ (ws ++ [w]) = (writes host files path t₀ ws).Write host w.tv w.now false true := by
  rw [writes, List.foldl_append]
  rfl

/-- What is open after the messages. -/
theorem writes_opened (host : Host) (files : List Bytes) (path : Bytes) {t₀ : Nat} {ts : List Nat}
    (hf : Steady (logName host (directory path)) (hourFile host path) ts) (ws : List Message) (hord : Ordered t₀ ws)
    (hsub : ∀ a ∈ times t₀ ws, a ∈ ts) :
    ∃ n, At (writes host files path t₀ ws) (directory path) n ∧
      Opened (logName host (directory path)) (hourFile host path) files t₀ ts ws
        (writes host files path t₀ ws).files n := by
  induction ws using List.reverseRecOn with
  | nil =>
    have hopen := at_fopen { new files with m_Path := directory path } rfl (logName host (directory path) t₀)
    have hfiles := mem_fopen { new files with m_Path := directory path } (logName host (directory path) t₀)
    refine ⟨logName host (directory path) t₀, ⟨hopen.path, hopen.stream⟩, fun m => ?_, .inl rfl, fun t _ _ ho => ?_⟩
    · have hm := hfiles m
      refine hm.trans ?_
      simp only [List.not_mem_nil, false_and, exists_false, or_false]
      exact or_comm
    · rcases ho with ho | ⟨-, v, hv, -⟩
      · exact ho.symm
      · cases hv
  | append_singleton ws w ih =>
    have hsub' : ∀ a ∈ times t₀ ws, a ∈ ts := fun a ha => hsub a (times_concat t₀ ws w ▸ List.mem_append_left _ ha)
    obtain ⟨n, hat, hopened⟩ := ih (ordered_concat.mp hord).1 hsub'
    obtain ⟨-, hstay, hshift⟩ := @write_at host _ _ n hat w.tv w.now
    rw [writes_concat]
    by_cases hw : logName host (directory path) w.now ∈ (writes host files path t₀ ws).files
    · obtain ⟨hat', hfiles⟩ := hstay hw
      refine ⟨n, hat', ?_⟩
      rw [hfiles]
      exact hopened.stay hw
    · obtain ⟨hat', hfiles⟩ := hshift hw
      exact ⟨logName host (directory path) w.now, hat', hopened.shift hf hord hsub hw hfiles⟩

theorem opens_iff {ts : List Nat} {present : List Bytes} {w : Message}
    (h : Opened name file files t₀ ts ws present n) (hord : Ordered t₀ (ws ++ [w])) (hw : w.tv ∈ ts) :
    n = file w.tv ↔ Opens name files t₀ ws (file w.tv) := by
  obtain ⟨-, -, hearlier⟩ := ordered_concat.mp hord
  exact ⟨fun he => he ▸ h.opens, h.follows w.tv hw fun a ha => (hearlier a ha).1⟩

/-- What holds of every element and those before it, of one more. -/
theorem forall_split_concat {α : Type} {P : List α → α → Prop} {l : List α} {x : α} :
    (∀ before y after, l ++ [x] = before ++ y :: after → P before y) ↔
      (∀ before y after, l = before ++ y :: after → P before y) ∧ P l x := by
  constructor
  · intro h
    refine ⟨fun before y after hl => h before y (after ++ [x]) ?_, h l x [] rfl⟩
    rw [hl, List.append_assoc]
    rfl
  · rintro ⟨h, hx⟩ before y after hl
    rcases List.eq_nil_or_concat after with rfl | ⟨after, z, rfl⟩
    · obtain ⟨rfl, hy⟩ := List.append_inj' hl rfl
      cases hy
      exact hx
    · have hl' : l ++ [x] = (before ++ y :: after) ++ [z] := by rw [hl, List.append_assoc]; simp
      exact h before y after (List.append_inj' hl' rfl).1

theorem exact_concat {w : Message} (hat : At (writes host files path t₀ ws) m_Path n) :
    Exact host files path t₀ (ws ++ [w]) ↔ Exact host files path t₀ ws ∧ n = hourFile host path w.tv := by
  have hmessages := (@write_at host _ _ n hat w.tv w.now).1
  rw [Exact, Exact, writes_concat, hmessages, List.map_append]
  constructor
  · intro h
    obtain ⟨hws, hw⟩ := List.append_inj' h rfl
    exact ⟨hws, congrArg Prod.fst (List.singleton_inj.mp hw)⟩
  · rintro ⟨hws, hw⟩
    rw [hws, hw]
    rfl

theorem exact_iff_opens {ts : List Nat} (hf : Steady (logName host (directory path)) (hourFile host path) ts)
    (ws : List Message) (hord : Ordered t₀ ws) (hsub : ∀ a ∈ times t₀ ws, a ∈ ts) :
    Exact host files path t₀ ws ↔ ∀ before w after, ws = before ++ w :: after →
      Opens (logName host (directory path)) files t₀ before (hourFile host path w.tv) := by
  induction ws using List.reverseRecOn with
  | nil =>
    refine iff_of_true rfl fun before w after hl => ?_
    exact absurd hl.symm (List.append_ne_nil_of_right_ne_nil _ (List.cons_ne_nil _ _))
  | append_singleton ws w ih =>
    have hsub' : ∀ a ∈ times t₀ ws, a ∈ ts := fun a ha => hsub a (times_concat t₀ ws w ▸ List.mem_append_left _ ha)
    have hord' := (ordered_concat.mp hord).1
    have htv : w.tv ∈ ts := hsub _ (by rw [times_concat]; simp)
    obtain ⟨n, hat, hopened⟩ := writes_opened host files path hf ws hord' hsub'
    rw [forall_split_concat, ← ih hord' hsub', ← opens_iff hopened hord htv, exact_concat hat]

theorem mem_asked {a : Nat} (ha : a ∈ times t₀ ws) : a ∈ asked t₀ ws ∧ a / 3600 * 3600 ∈ asked t₀ ws :=
  ⟨List.mem_append_left _ ha, List.mem_append_right _ (List.mem_map.mpr ⟨a, ha, rfl⟩)⟩

theorem mem_times_split {before after : List Message} {w : Message} (h : ws = before ++ w :: after) :
    w.tv ∈ times t₀ ws ∧ ∀ v ∈ before, v.now ∈ times t₀ ws := by
  subst h
  refine ⟨?_, fun v hv => mem_times_now (List.mem_append_left _ hv)⟩
  exact List.mem_cons_of_mem _ (List.mem_flatMap.mpr ⟨w, by simp, by simp⟩)

theorem steady (hc : Calendar host.localtime_r (asked t₀ ws)) (hf : Forward host.localtime_r (asked t₀ ws)) :
    Steady (logName host (directory path)) (hourFile host path) (times t₀ ws) := by
  intro a ha b hb c hcm hab hbc hname
  have hrange := fun {t : Nat} (ht : t ∈ times t₀ ws) => hc _ (mem_asked ht).2
  have hc' := hc _ (mem_asked hcm).1
  obtain ⟨htm, hshort⟩ := (logName_iff (hrange ha) hc').mp hname
  -- the hour of UTC in which `b` is begins between that of `a` and `c`
  have hfloor : a / 3600 * 3600 ≤ b / 3600 * 3600 := Nat.mul_le_mul_right _ (Nat.div_le_div_right hab)
  have hlate : b / 3600 * 3600 ≤ c := Nat.le_trans (Nat.div_mul_le_self _ _) hbc
  have hsame := hf _ (mem_asked ha).2 _ (mem_asked hb).2 _ (mem_asked hcm).1 hfloor hlate htm
  exact (logName_iff (hrange hb) hc').mpr ⟨hsame, hshort⟩

/-- When every message is in the file of its hour. -/
theorem rotation_iff (host : Host) (files : List Bytes) (path : Bytes) (t₀ : Nat) (ws : List Message)
    (hord : Ordered t₀ ws) (hc : Calendar host.localtime_r (asked t₀ ws))
    (hf : Forward host.localtime_r (asked t₀ ws)) :
    Exact host files path t₀ ws ↔ Timely host files path t₀ ws := by
  have hnames := fun {a t : Nat} (ha : a ∈ times t₀ ws) (ht : t ∈ times t₀ ws) =>
    @logName_iff host path a t (hc _ (mem_asked ha).2) (hc _ (mem_asked ht).1)
  rw [exact_iff_opens (steady hc hf) ws hord fun _ => id]
  refine forall_congr' fun before => forall_congr' fun w => forall_congr' fun after => forall_congr' fun hl => ?_
  obtain ⟨htv, hnow⟩ := @mem_times_split t₀ _ _ _ _ hl
  refine or_congr (eq_comm.trans (hnames List.mem_cons_self htv)) (and_congr_right fun _ => ?_)
  exact exists_congr fun v => and_congr_right fun hv => hnames (hnow v hv) htv

/-- The second call is under way when the hour ends, so the third finds the new file. -/
theorem rotation_straddled : Exact utc [] [] 0 [⟨10, 20⟩, ⟨30, 3600⟩, ⟨3600, 3700⟩] := by
  refine (rotation_iff utc [] [] 0 [⟨10, 20⟩, ⟨30, 3600⟩, ⟨3600, 3700⟩] ?_ ?_ ?_).mpr ?_
  · unfold Ordered
    decide
  · unfold Calendar InCalendar
    decide
  · unfold Forward
    decide
  · have hsplit : [⟨10, 20⟩, ⟨30, 3600⟩, ⟨3600, 3700⟩] =
        ([] ++ [⟨10, 20⟩] ++ [⟨30, 3600⟩] ++ [⟨3600, 3700⟩] : List Message) := rfl
    rw [Timely, hsplit, forall_split_concat, forall_split_concat, forall_split_concat]
    refine ⟨⟨⟨fun before w after hl => ?_, by decide⟩, by decide⟩, by decide⟩
    exact absurd hl.symm (List.append_ne_nil_of_right_ne_nil _ (List.cons_ne_nil _ _))

/-- A zone that is five and a half hours ahead of UTC. -/
def ahead : Host where
  localtime_r now := utc.localtime_r (now + 19800)
  id := 0

/-- A run in an empty directory with an ordinary clock, and a message in another file than that of its hour. -/
def Misfiled (host : Host) (t₀ : Nat) (ws : List Message) : Prop :=
  Ordered t₀ ws ∧ Calendar host.localtime_r (asked t₀ ws) ∧ Forward host.localtime_r (asked t₀ ws) ∧
    ¬Exact host [] [] t₀ ws

/-- The first message of the next hour is in the file of the hour before; and where local hours begin
at half past, so is one ten minutes after `Initialize` at five past ten. -/
theorem first_message_behind : Misfiled utc 0 [⟨3600, 3600⟩] ∧ Misfiled ahead 16500 [⟨17100, 17100⟩] := by
  constructor
  · refine ⟨?_, ?_, ?_, fun h => ?_⟩
    · unfold Ordered
      decide
    · unfold Calendar InCalendar
      decide
    · unfold Forward
      decide
    · have hfile := congrArg (fun l => l.map Prod.fst) h
      exact absurd hfile (by decide)
  · refine ⟨?_, ?_, ?_, fun h => ?_⟩
    · unfold Ordered
      decide
    · unfold Calendar InCalendar
      decide
    · unfold Forward
      decide
    · have hfile := congrArg (fun l => l.map Prod.fst) h
      exact absurd hfile (by decide)

end SimpleSvr.L5.SimpleLog
