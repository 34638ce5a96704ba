import SimpleSvr.L2Machine.TimerOps
import SimpleSvr.L2Machine.TimerWheel

/-!
# The timer's invariant

`Inv s ch cur rest R due` holds between any two steps of a run: bucket `b` is
the list `ch b`, `cur` is the item whose callback is running and `rest` is the
part of the cut list still ahead of it. Its parts are

* `Linked`: the lists in memory;
* `Ids`: the id map finds items that a call can reach (`Known`), each under its
  own id; the id of item `a` is `a + 1` modulo 2^32, so as long as the counter
  has not wrapped every reachable item is found;
* `Placed` for every bucket, and `R` (what was cut from which slot) for `rest`,
  relative to the ghost schedule `due`;
* `Hist`: what the trace says about an item since it was last filed: it is
  waiting for tick `max t L`, or it has fired in that tick and no other;
* `frees`: every item that is gone was freed once, every other never.

One lemma for each kind of step: `Inv.op` (a call), `Inv.cut`, `Inv.refile`
(`cascade`), `Inv.enter` and `Inv.leave` (around a callback).
-/
namespace SimpleSvr.L2.Timer
open SimpleSvr.DList

/-! ## The trace -/

def firedAt (a : Addr) : Event → Option Nat
  | .invoked b k => if b = a then some k.toNat else none
  | _ => none

/-- The ticks in which `a` was invoked. -/
def fires (a : Addr) (log : List Event) : List Nat := log.filterMap (firedAt a)

/-- `a` is neither updated nor cleared. -/
def Untouched (a : Addr) (log : List Event) : Prop := .updated a ∉ log ∧ .cleared a ∉ log

instance (a : Addr) (log : List Event) : Decidable (Untouched a log) :=
  inferInstanceAs (Decidable (_ ∧ _))

section trace
variable {a b : Addr} {t L k : UInt64} {log log' : List Event}

@[simp] theorem fires_nil : fires a [] = [] := rfl
@[simp] theorem fires_linked : fires a (.linked b t L :: log) = fires a log := rfl
@[simp] theorem fires_updated : fires a (.updated b :: log) = fires a log := rfl
@[simp] theorem fires_cleared : fires a (.cleared b :: log) = fires a log := rfl
@[simp] theorem fires_freed : fires a (.freed b :: log) = fires a log := rfl

@[simp] theorem fires_invoked :
    fires a (.invoked b k :: log) = if b = a then k.toNat :: fires a log else fires a log := by
  simp only [fires, List.filterMap_cons, firedAt]
  split <;> simp_all

@[simp] theorem untouched_nil : Untouched a [] := ⟨List.not_mem_nil, List.not_mem_nil⟩
@[simp] theorem untouched_linked : Untouched a (.linked b t L :: log) ↔ Untouched a log := by
  simp [Untouched]
@[simp] theorem untouched_invoked : Untouched a (.invoked b k :: log) ↔ Untouched a log := by
  simp [Untouched]
@[simp] theorem untouched_freed : Untouched a (.freed b :: log) ↔ Untouched a log := by
  simp [Untouched]
@[simp] theorem untouched_updated : Untouched a (.updated b :: log) ↔ a ≠ b ∧ Untouched a log := by
  simp [Untouched, and_assoc]
@[simp] theorem untouched_cleared : Untouched a (.cleared b :: log) ↔ a ≠ b ∧ Untouched a log := by
  simp [Untouched, and_left_comm]

end trace

variable {F D : Type} {s s' : TimerBase F D} {ch ch' : Chains} {rest rest' : List Addr}
  {cur : Option Addr} {a x : Addr} {K K' : Addr → Prop} {R : Nat → Nat → Prop} {due : Addr → Nat}

/-! ## The parts -/

structure Ids (s : TimerBase F D) (K : Addr → Prop) : Prop where
  known : ∀ id a, s.timerDataMap id = some a → K a ∧ ∃ t, view s a = some (id, t)
  born : ∀ a id t, view s a = some (id, t) → id = UInt32.ofNat (a + 1)
  last : s.lastTimerId = UInt32.ofNat s.brk
  all : s.brk < 2 ^ 32 → ∀ a, K a → s.timerDataMap (UInt32.ofNat (a + 1)) = some a

/-- What became of `a` since it was filed with expiry `t` at base `L`. -/
def Outcome (base : Nat) (K : Addr → Prop) (due : Addr → Nat) (a : Addr) (t L : Nat)
    (post : List Event) : Prop :=
  (K a ∧ due a = max t L ∧ fires a post = []) ∨ (¬K a ∧ max t L < base ∧ fires a post = [max t L])

structure Hist (log : List Event) (base brk : Nat) (K : Addr → Prop) (due : Addr → Nat) : Prop where
  outcome : ∀ post a t L pre, log = post ++ .linked a t L :: pre → Untouched a post →
    Outcome base K due a t.toNat L.toNat post
  lt : ∀ a t L, .linked a t L ∈ log → a < brk

def Frees (s : TimerBase F D) : Prop :=
  ∀ a, s.log.count (.freed a) = if a < s.brk ∧ view s a = none then 1 else 0

def PlacedAll (s : TimerBase F D) (ch : Chains) (due : Addr → Nat) : Prop :=
  ∀ b, ∀ a ∈ ch b, ∃ id t, view s a = some (id, t) ∧ Placed s.lastTimeval.toNat b t.toNat (due a)

def Waiting (s : TimerBase F D) (rest : List Addr) (R : Nat → Nat → Prop) (due : Addr → Nat) : Prop :=
  ∀ a ∈ rest, ∃ id t, view s a = some (id, t) ∧ R t.toNat (due a)

structure Inv (s : TimerBase F D) (ch : Chains) (cur : Option Addr) (rest : List Addr)
    (R : Nat → Nat → Prop) (due : Addr → Nat) : Prop where
  linked : Linked s ch (cur.toList ++ rest) none
  range : s.lastTimeval.toNat ≤ 2 ^ 63
  ids : Ids s (Known ch rest)
  placed : PlacedAll s ch due
  wait : Waiting s rest R due
  hist : Hist s.log s.lastTimeval.toNat s.brk (Known ch rest) due
  frees : Frees s

/-! ## What a call can reach -/

theorem known_push {b : Bucket} : Known (ch.push b a) rest x ↔ x = a ∨ Known ch rest x := by
  simp only [Known, Chains.push]
  constructor
  · rintro (⟨b', hx⟩ | hx)
    · split at hx
      · exact (List.mem_cons.mp hx).imp_right fun h => .inl ⟨b', h⟩
      · exact .inr (.inl ⟨b', hx⟩)
    · exact .inr (.inr hx)
  · rintro (rfl | ⟨b', hx⟩ | hx)
    · exact .inl ⟨b, by simp⟩
    · exact .inl ⟨b', by split <;> simp [hx]⟩
    · exact .inr hx

theorem known_erase (h : Linked s ch (cur.toList ++ rest) none) :
    Known (ch.erase a) (rest.erase a) x ↔ x ≠ a ∧ Known ch rest x := by
  have hr : rest.Nodup := (List.nodup_append.mp h.detNodup).2.1
  simp only [Known, Chains.erase, (h.nodup _).mem_erase_iff, hr.mem_erase_iff, and_or_left,
    exists_and_left]

/-- To file an item again changes nothing. -/
theorem known_moved {b : Bucket} (h : Linked s ch (cur.toList ++ rest) none) (ha : Known ch rest a) :
    Known ((ch.erase a).push b a) (rest.erase a) x ↔ Known ch rest x := by
  rw [known_push, known_erase h]
  by_cases hx : x = a
  · rw [hx]
    exact iff_of_true (.inl rfl) ha
  · rw [or_iff_right hx, and_iff_right hx]

theorem known_cut {b : Bucket} : Known (ch.cut b) (ch b) x ↔ Known ch [] x := by
  simp only [Known, Chains.cut, List.not_mem_nil, or_false]
  constructor
  · rintro (⟨b', hx⟩ | hx)
    · split at hx
      · cases hx
      · exact ⟨b', hx⟩
    · exact ⟨b, hx⟩
  · rintro ⟨b', hx⟩
    by_cases e : b' = b
    · exact .inr (e ▸ hx)
    · exact .inl ⟨b', by simpa [e] using hx⟩

theorem known_cons : Known ch (a :: rest) x ↔ x = a ∨ Known ch rest x := by
  simp only [Known, List.mem_cons]
  exact or_left_comm

theorem Linked.known_live (h : Linked s ch (cur.toList ++ rest) none) (hk : Known ch rest x) :
    (s.mem x).isSome :=
  (h.live x).mpr (hk.imp_right fun hr => .inl (List.mem_append_right _ hr))

theorem Linked.known_lt (h : Linked s ch (cur.toList ++ rest) none) (hk : Known ch rest x) :
    x < s.brk := h.lt_brk (h.known_live hk)

theorem Linked.cur_unknown (h : Linked s ch (cur.toList ++ rest) none) (hc : cur = some x) :
    ¬Known ch rest x := by
  subst hc
  rintro (⟨b, hb⟩ | hr)
  · exact h.disj b x hb (by simp)
  · exact (List.nodup_cons.mp h.detNodup).1 hr

/-- As long as the counter has not wrapped, ids tell items apart. -/
theorem id_inj {x y n : Nat} (hx : x < n) (hy : y < n) (hn : n < 2 ^ 32)
    (h : UInt32.ofNat (x + 1) = UInt32.ofNat (y + 1)) : x = y := by
  have := congrArg UInt32.toNat h
  rw [UInt32.toNat_ofNat', UInt32.toNat_ofNat', Nat.mod_eq_of_lt (by omega),
    Nat.mod_eq_of_lt (by omega)] at this
  omega

/-! ## A call -/

/-- The id that the next item gets is not in use. -/
theorem Ids.fresh (h : Ids s (Known ch rest)) (hl : Linked s ch (cur.toList ++ rest) none)
    (hb : s.brk + 1 < 2 ^ 32) : s.timerDataMap (UInt32.ofNat (s.brk + 1)) = none := by
  cases hm : s.timerDataMap (UInt32.ofNat (s.brk + 1)) with
  | none => rfl
  | some y =>
    obtain ⟨hky, t, hv⟩ := h.known _ _ hm
    have hy := hl.known_lt hky
    have := id_inj (Nat.lt_succ_self s.brk) (Nat.lt_succ_of_lt hy) hb (h.born _ _ _ hv)
    exact absurd this.symm (Nat.ne_of_lt hy)

theorem Ids.op (h : Ids s (Known ch rest)) (hl : Linked s ch (cur.toList ++ rest) none)
    (hop : OpCase s s' ch rest ch' rest') : Ids s' (Known ch' rest') := by
  cases hop with
  | idle e => rw [e]; exact h
  | add t id hid hlog hview hmap hlast hbase hbrk =>
    have hne : ∀ {x}, Known ch rest x → x ≠ s.brk := fun hk => Nat.ne_of_lt (hl.known_lt hk)
    have hid' : id = UInt32.ofNat (s.brk + 1) := by rw [hid, h.last, UInt32.ofNat_add]; rfl
    refine ⟨fun i a hm => ?_, fun a i t' hv => ?_, by rw [hlast, hid', hbrk], fun hb a hk => ?_⟩
    · rw [hmap, Option.or_eq_some_iff] at hm
      rcases hm with hm | ⟨-, hm⟩
      · obtain ⟨hk, t', hv⟩ := h.known i a hm
        exact ⟨known_push.mpr (.inr hk), t', by rw [hview, if_neg (hne hk)]; exact hv⟩
      · split at hm
        · next e => cases hm; exact ⟨known_push.mpr (.inl rfl), t, by rw [hview, if_pos rfl, e]⟩
        · cases hm
    · rw [hview] at hv
      split at hv
      · next e => cases hv; rw [e, hid']
      · exact h.born a i t' hv
    · rw [hbrk] at hb
      rw [hmap]
      rcases known_push.mp hk with rfl | hk
      · rw [hid', h.fresh hl hb]; simp
      · rw [h.all (Nat.lt_of_succ_lt hb) a hk]; rfl
  | move id a t hm hlog hview hmap hstill =>
    obtain ⟨hka, t₀, hva⟩ := h.known id a hm
    refine ⟨fun i x hx => ?_, fun x i t' hv => ?_, by rw [hstill.lastTimerId, hstill.brk, h.last],
      fun hb x hk => ?_⟩
    · rw [hmap] at hx
      obtain ⟨hk, t', hv⟩ := h.known i x hx
      refine ⟨(known_moved hl hka).mpr hk, ?_⟩
      rw [hview]
      split
      · next e => subst e; rw [hva] at hv; cases hv; exact ⟨t, rfl⟩
      · exact ⟨t', hv⟩
    · rw [hview] at hv
      split at hv
      · next e => cases hv; rw [e]; exact h.born a _ _ hva
      · exact h.born x i t' hv
    · rw [hmap]
      exact h.all (by rw [← hstill.brk]; exact hb) x ((known_moved hl hka).mp hk)
  | remove id a hm hlog hview hmap hstill =>
    obtain ⟨hka, t₀, hva⟩ := h.known id a hm
    have hid := h.born _ _ _ hva
    refine ⟨fun i x hx => ?_, fun x i t' hv => ?_, by rw [hstill.lastTimerId, hstill.brk, h.last],
      fun hb x hk => ?_⟩
    · rw [hmap] at hx
      split at hx
      · cases hx
      next hi =>
      obtain ⟨hk, t', hv⟩ := h.known i x hx
      have hxa : x ≠ a := fun e => hi (by subst e; rw [hva] at hv; cases hv; rfl)
      exact ⟨(known_erase hl).mpr ⟨hxa, hk⟩, t', by rw [hview, if_neg hxa]; exact hv⟩
    · rw [hview] at hv
      split at hv
      · cases hv
      · exact h.born x i t' hv
    · obtain ⟨hxa, hk⟩ := (known_erase hl).mp hk
      rw [hstill.brk] at hb
      rw [hmap, if_neg]
      · exact h.all hb x hk
      · rw [hid]
        exact fun e => hxa (id_inj (hl.known_lt hk) (hl.known_lt hka) hb e)

/-- The trace holds no filing of `a` that is still in force. -/
def Void (a : Addr) (log : List Event) : Prop :=
  ∀ post t L pre, log = post ++ .linked a t L :: pre → ¬Untouched a post

/-- A filing is in the trace `e :: log` as its newest event or in `log`. -/
theorem filed_cons {e : Event} {log post pre : List Event} {a : Addr} {t L : UInt64}
    (h : e :: log = post ++ .linked a t L :: pre) :
    (post = [] ∧ e = .linked a t L) ∨ ∃ post', post = e :: post' ∧ log = post' ++ .linked a t L :: pre := by
  cases post with
  | nil => cases h; exact .inl ⟨rfl, rfl⟩
  | cons e' post' => cases h; exact .inr ⟨post', rfl, rfl⟩

section hist
variable {log : List Event} {base base' brk brk' : Nat} {t L k : UInt64}

theorem Hist.mono (h : Hist log base brk K due) (hb : base ≤ base') (hk : brk ≤ brk')
    (hK : ∀ x, K' x ↔ K x) : Hist log base' brk' K' due where
  outcome post a t L pre e hu := by
    rcases h.outcome post a t L pre e hu with ⟨h1, h2⟩ | ⟨h1, h2, h3⟩
    · exact .inl ⟨(hK a).mpr h1, h2⟩
    · exact .inr ⟨fun hk => h1 ((hK a).mp hk), Nat.lt_of_lt_of_le h2 hb, h3⟩
  lt a t L hm := Nat.lt_of_lt_of_le (h.lt a t L hm) hk

theorem Hist.linked (h : Hist log base brk K due) (ha : a < brk) (hL : L.toNat = base)
    (hK : ∀ x, K' x ↔ x = a ∨ K x) (hold : (K a ∧ due a = max t.toNat base) ∨ Void a log) :
    Hist (.linked a t L :: log) base brk K' (Function.update due a (max t.toNat base)) where
  outcome post x t' L' pre e hu := by
    rcases filed_cons e with ⟨rfl, hp⟩ | ⟨post, rfl, hp⟩
    · cases hp
      exact .inl ⟨(hK a).mpr (.inl rfl), by rw [Function.update_self, hL], rfl⟩
    rw [untouched_linked] at hu
    have ho := h.outcome post x t' L' pre hp hu
    by_cases hx : x = a
    · subst hx
      rcases hold with ⟨hk, hd⟩ | hv
      · rcases ho with ⟨-, h2, h3⟩ | ⟨h1, -⟩
        · exact .inl ⟨(hK x).mpr (.inl rfl), by rw [Function.update_self, ← hd, h2], h3⟩
        · exact absurd hk h1
      · exact absurd hu (hv post t' L' pre hp)
    · have hKx : K' x ↔ K x := by rw [hK, or_iff_right hx]
      rcases ho with ⟨h1, h2, h3⟩ | ⟨h1, h2, h3⟩
      · exact .inl ⟨hKx.mpr h1, by rw [Function.update_of_ne hx, h2], h3⟩
      · exact .inr ⟨fun hk => h1 (hKx.mp hk), h2, h3⟩
  lt x t' L' hm := by
    rcases List.mem_cons.mp hm with e | hm
    · cases e; exact ha
    · exact h.lt x t' L' hm

theorem Hist.touched {e : Event} (h : Hist log base brk K due) (he : e = .updated a ∨ e = .cleared a)
    (hK : ∀ x, x ≠ a → (K' x ↔ K x)) : Hist (e :: log) base brk K' due ∧ Void a (e :: log) := by
  have void : Void a (e :: log) := fun post t L pre e' hu => by
    rcases filed_cons e' with ⟨-, hp⟩ | ⟨post, rfl, -⟩
    · rcases he with rfl | rfl <;> cases hp
    · rcases he with rfl | rfl <;> simp at hu
  refine ⟨⟨fun post x t L pre e' hu => ?_, fun x t L hm => ?_⟩, void⟩
  · by_cases hx : x = a
    · subst hx; exact absurd hu (void post t L pre e')
    rcases filed_cons e' with ⟨-, hp⟩ | ⟨post, rfl, hp⟩
    · rcases he with rfl | rfl <;> cases hp
    have hu' : Untouched x post := by rcases he with rfl | rfl <;> simp at hu <;> exact hu.2
    have hf : fires x (e :: post) = fires x post := by rcases he with rfl | rfl <;> rfl
    unfold Outcome
    rw [hf, hK x hx]
    exact h.outcome post x t L pre hp hu'
  · rcases List.mem_cons.mp hm with hm | hm
    · rcases he with rfl | rfl <;> cases hm
    · exact h.lt x t L hm

theorem Hist.freed (h : Hist log base brk K due) : Hist (.freed a :: log) base brk K due where
  outcome post x t L pre e hu := by
    rcases filed_cons e with ⟨-, hp⟩ | ⟨post, rfl, hp⟩
    · cases hp
    · exact h.outcome post x t L pre hp (untouched_freed.mp hu)
  lt x t L hm := h.lt x t L ((List.mem_cons.mp hm).resolve_left (by rintro ⟨⟩))

theorem Hist.invoked (h : Hist log base brk K due) (ha : K a) (hd : due a = k.toNat)
    (hk : k.toNat < base) (hK : ∀ x, K' x ↔ x ≠ a ∧ K x) : Hist (.invoked a k :: log) base brk K' due where
  outcome post x t L pre e hu := by
    rcases filed_cons e with ⟨-, hp⟩ | ⟨post, rfl, hp⟩
    · cases hp
    rw [untouched_invoked] at hu
    have ho := h.outcome post x t L pre hp hu
    by_cases hx : x = a
    · subst hx
      obtain ⟨-, h2, h3⟩ := ho.resolve_right fun hn => hn.1 ha
      refine .inr ⟨fun hk => ((hK x).mp hk).1 rfl, by rw [← h2, hd]; exact hk, ?_⟩
      rw [fires_invoked, if_pos rfl, h3, ← hd, h2]
    · have hf : fires x (.invoked a k :: post) = fires x post := by
        rw [fires_invoked, if_neg fun e => hx e.symm]
      unfold Outcome
      rw [hf, hK x, and_iff_right hx]
      exact ho
  lt x t L hm := h.lt x t L ((List.mem_cons.mp hm).resolve_left (by rintro ⟨⟩))

end hist

theorem Frees.op (h : Frees s) (hl : Linked s ch (cur.toList ++ rest) none)
    (hi : Ids s (Known ch rest)) (hop : OpCase s s' ch rest ch' rest') : Frees s' := by
  cases hop with
  | idle e => rw [e]; exact h
  | add t id hid hlog hview hmap hlast hbase hbrk =>
    intro x
    rw [hlog, List.count_cons_of_ne (by simp), h x, hview, hbrk]
    by_cases hx : x = s.brk
    · subst hx; simp
    · have hlt : x < s.brk + 1 ↔ x < s.brk :=
        ⟨fun h => Nat.lt_of_le_of_ne (Nat.le_of_lt_succ h) hx, Nat.lt_succ_of_lt⟩
      simp only [if_neg hx, hlt]
  | move id a t hm hlog hview hmap hstill =>
    intro x
    obtain ⟨-, t₀, hv⟩ := hi.known id a hm
    rw [hlog, List.count_cons_of_ne (by simp), List.count_cons_of_ne (by simp), h x, hview, hstill.brk]
    by_cases hx : x = a
    · subst hx; simp [hv]
    · rw [if_neg hx]
  | remove id a hm hlog hview hmap hstill =>
    intro x
    obtain ⟨hk, t₀, hv⟩ := hi.known id a hm
    rw [hlog, hview, hstill.brk]
    by_cases hx : x = a
    · subst hx
      rw [List.count_cons_self, List.count_cons_of_ne (by simp), h x, hv]
      simp [hl.known_lt hk]
    · have hax : a ≠ x := fun e => hx e.symm
      rw [List.count_cons_of_ne (by simpa using hax), List.count_cons_of_ne (by simp), h x, if_neg hx]

/-- The buckets lose items, and what stays is as before. -/
theorem PlacedAll.mono {due' : Addr → Nat} (h : PlacedAll s ch due) (hb : s'.lastTimeval = s.lastTimeval)
    (hch : ∀ b, ∀ x ∈ ch' b, x ∈ ch b ∧ view s' x = view s x ∧ due' x = due x) : PlacedAll s' ch' due' := by
  intro b x hx
  obtain ⟨h1, h2, h3⟩ := hch b x hx
  rw [h2, h3, hb]
  exact h b x h1

theorem PlacedAll.push {b : Bucket} {id : UInt32} {t : UInt64} (h : PlacedAll s' ch due)
    (hv : view s' a = some (id, t)) (hp : Placed s'.lastTimeval.toNat b t.toNat (due a)) :
    PlacedAll s' (ch.push b a) due := by
  intro b' x hx
  simp only [Chains.push] at hx
  split at hx
  · next e =>
    subst e
    rcases List.mem_cons.mp hx with rfl | hx
    · exact ⟨id, t, hv, hp⟩
    · exact h b' x hx
  · exact h b' x hx

theorem Waiting.mono {due' : Addr → Nat} (h : Waiting s rest R due)
    (hr : ∀ x ∈ rest', x ∈ rest ∧ view s' x = view s x ∧ due' x = due x) : Waiting s' rest' R due' := by
  intro x hx
  obtain ⟨h1, h2, h3⟩ := hr x hx
  rw [h2, h3]
  exact h x h1

/-- A call succeeds and keeps the invariant. -/
theorem Inv.op (h : Inv s ch cur rest R due) (hc : cur.isSome ∨ rest = []) (interval : Int)
    (op : Op F D) :
    ∃ s' ch' rest' due', applyOp interval s op = some s' ∧ Inv s' ch' cur rest' R due' ∧
      OpCase s s' ch rest ch' rest' := by
  obtain ⟨s', ch', rest', e, hl, hop⟩ := applyOp_cases h.linked hc h.ids.known interval op
  have hids := h.ids.op h.linked hop
  have hfrees := h.frees.op h.linked h.ids hop
  have hcase := hop
  cases hop with
  | idle hs => subst hs; exact ⟨s', ch, rest, due, e, h, hcase⟩
  | add t id hid hlog hview hmap hlast hbase hbrk =>
    have hne : ∀ {x}, Known ch rest x → x ≠ s.brk := fun hk => Nat.ne_of_lt (h.linked.known_lt hk)
    have hsame : ∀ x, Known ch rest x → view s' x = view s x ∧
        Function.update due s.brk (max t.toNat s.lastTimeval.toNat) x = due x := fun x hk =>
      ⟨by rw [hview, if_neg (hne hk)], Function.update_of_ne (hne hk) _ _⟩
    have hvoid : Void s.brk s.log := fun post t' L' pre e' _ =>
      absurd (h.hist.lt s.brk t' L' (by rw [e']; simp)) (Nat.lt_irrefl _)
    refine ⟨s', _, rest, Function.update due s.brk (max t.toNat s.lastTimeval.toNat), e,
      ⟨hl, by rw [hbase]; exact h.range, hids, ?_, ?_, ?_, hfrees⟩, hcase⟩
    · refine PlacedAll.push (h.placed.mono hbase fun b x hx => ⟨hx, hsame x (.inl ⟨b, hx⟩)⟩)
        (by rw [hview, if_pos rfl]) ?_
      rw [hbase, Function.update_self]
      exact placed_bucketOf _ _ h.range
    · exact h.wait.mono fun x hx => ⟨hx, hsame x (.inr hx)⟩
    · rw [hlog, hbase, hbrk]
      exact (h.hist.mono (Nat.le_refl _) (Nat.le_succ _) fun _ => Iff.rfl).linked (Nat.lt_succ_self _) rfl
        (fun _ => known_push) (.inr hvoid)
  | move id a t hm hlog hview hmap hstill =>
    obtain ⟨hka, t₀, hva⟩ := h.ids.known id a hm
    have hsame : ∀ x, x ≠ a → view s' x = view s x ∧
        Function.update due a (max t.toNat s.lastTimeval.toNat) x = due x := fun x hx =>
      ⟨by rw [hview, if_neg hx], Function.update_of_ne hx _ _⟩
    have hrest : rest.Nodup := (List.nodup_append.mp h.linked.detNodup).2.1
    refine ⟨s', _, _, Function.update due a (max t.toNat s.lastTimeval.toNat), e,
      ⟨hl, by rw [hstill.lastTimeval]; exact h.range, hids, ?_, ?_, ?_, hfrees⟩, hcase⟩
    · refine PlacedAll.push (h.placed.mono hstill.lastTimeval fun b x hx => ?_)
        (by rw [hview, if_pos rfl]) ?_
      · obtain ⟨hxa, hx⟩ := (h.linked.nodup b).mem_erase_iff.mp hx
        exact ⟨hx, hsame x hxa⟩
      · rw [hstill.lastTimeval, Function.update_self]
        exact placed_bucketOf _ _ h.range
    · refine h.wait.mono fun x hx => ?_
      obtain ⟨hxa, hx⟩ := hrest.mem_erase_iff.mp hx
      exact ⟨hx, hsame x hxa⟩
    · have hK : ∀ x, x ≠ a → (Known (ch.erase a) (rest.erase a) x ↔ Known ch rest x) := fun x hx =>
        (known_erase h.linked).trans (and_iff_right hx)
      obtain ⟨hh, hv⟩ := h.hist.touched (.inl rfl) hK
      rw [hlog, hstill.lastTimeval, hstill.brk]
      exact hh.linked (h.linked.known_lt hka) rfl (fun _ => known_push) (.inr hv)
  | remove id a hm hlog hview hmap hstill =>
    have hsame : ∀ x, x ≠ a → view s' x = view s x := fun x hx => by rw [hview, if_neg hx]
    have hrest : rest.Nodup := (List.nodup_append.mp h.linked.detNodup).2.1
    refine ⟨s', _, _, due, e,
      ⟨hl, by rw [hstill.lastTimeval]; exact h.range, hids, ?_, ?_, ?_, hfrees⟩, hcase⟩
    · refine h.placed.mono hstill.lastTimeval fun b x hx => ?_
      obtain ⟨hxa, hx⟩ := (h.linked.nodup b).mem_erase_iff.mp hx
      exact ⟨hx, hsame x hxa, rfl⟩
    · refine h.wait.mono fun x hx => ?_
      obtain ⟨hxa, hx⟩ := hrest.mem_erase_iff.mp hx
      exact ⟨hx, hsame x hxa, rfl⟩
    · rw [hlog, hstill.lastTimeval, hstill.brk]
      exact (h.hist.touched (.inr rfl) fun x hx =>
        (known_erase h.linked).trans (and_iff_right hx)).1.freed

/-! ## Cutting, cascading, and the steps around a callback -/

/-- Bucket `b` becomes the cut list while the base moves to `base'`. -/
theorem Inv.cut (h : Inv s ch none [] R due) (b : Bucket) (base' : UInt64) {R' : Nat → Nat → Prop}
    (hle : s.lastTimeval.toNat ≤ base'.toNat) (hr : base'.toNat ≤ 2 ^ 63)
    (hp : ∀ b', b' ≠ b → ch b' ≠ [] → ∀ t d, Placed s.lastTimeval.toNat b' t d →
      Placed base'.toNat b' t d)
    (hR : ∀ t d, Placed s.lastTimeval.toNat b t d → R' t d) :
    Inv ({ s with lastTimeval := base' }.setVector b none) (ch.cut b) none (ch b) R' due where
  linked :=
    have l := linked_cut h.linked b
    ⟨l.heads, l.seg, l.nodup, l.base, l.detSeg, l.detNodup, l.disj, l.out, l.live, l.fresh⟩
  range := hr
  ids := by
    refine ⟨fun id a hm => ?_, h.ids.born, h.ids.last, fun hb a hk => h.ids.all hb a (known_cut.mp hk)⟩
    obtain ⟨hk, hv⟩ := h.ids.known id a hm
    exact ⟨known_cut.mpr hk, hv⟩
  placed b' x hx := by
    simp only [Chains.cut] at hx
    split at hx
    · cases hx
    next hb =>
    obtain ⟨id, t, hv, hpl⟩ := h.placed b' x hx
    exact ⟨id, t, hv, hp b' hb (List.ne_nil_of_mem hx) _ _ hpl⟩
  wait x hx := by
    obtain ⟨id, t, hv, hpl⟩ := h.placed b x hx
    exact ⟨id, t, hv, hR _ _ hpl⟩
  hist := h.hist.mono hle (Nat.le_refl _) fun _ => known_cut
  frees := h.frees

/-- What `cascade` cuts has not expired yet. -/
def Ahead (L : Nat) (t d : Nat) : Prop := L ≤ t ∧ d = t

/-- `cascade` files the first item of the cut list again. -/
theorem Inv.refile (h : Inv s ch none (a :: rest) (Ahead s.lastTimeval.toNat) due) :
    ∃ it s₁ s₂, s.mem a = some it ∧ it.nextItem = rest.head? ∧
      s.modify a TimerItem.detached = some s₁ ∧ internalAddTimerItem s₁ a = some s₂ ∧
      Inv s₂ (ch.push (bucketOf s.lastTimeval it.timeval) a) none rest (Ahead s.lastTimeval.toNat) due ∧
      Still s s₂ := by
  have l : Linked s ch ((none : Option Addr).toList ++ a :: rest) none := h.linked
  have hka : Known ch (a :: rest) a := .inr List.mem_cons_self
  obtain ⟨it, hit, hnext⟩ := h.linked.next_of_det
  have hpop : Linked s ch rest (some a) := linked_pop h.linked
  have hva : view s a = some (it.timerId, it.timeval) := by simp [view, hit]
  obtain ⟨id, t, hv, hle, hd⟩ := h.wait a List.mem_cons_self
  rw [hva] at hv
  cases hv
  obtain ⟨s₂, e₂, fr, hl, hlog⟩ := linked_add (linked_poke hpop it.detached) it.detached
    (by simp [TimerBase.poke]) rfl rfl
  have hview : ∀ x, view s₂ x = view s x := fun x => by
    refine (fr.view x).trans ?_
    simp only [view, TimerBase.poke]
    split
    · next e => subst e; rw [hit]; rfl
    · rfl
  have hbase : s₂.lastTimeval = s.lastTimeval := fr.lastTimeval
  have hmap : s₂.timerDataMap = s.timerDataMap := fr.map
  have hbrk : s₂.brk = s.brk := fr.brk
  have hK : ∀ x, Known (ch.push (bucketOf s.lastTimeval it.timeval) a) rest x ↔ Known ch (a :: rest) x :=
    fun x => known_push.trans known_cons.symm
  refine ⟨it, _, s₂, hit, hnext, by simp [TimerBase.modify, hit], e₂,
    ⟨hl, by rw [hbase]; exact h.range, ?_, ?_, ?_, ?_, fun x => ?_⟩, ⟨fr.lastTimerId, hbase, hbrk⟩⟩
  · refine ⟨fun i x hm => ?_, fun x i t' hv => ?_, by rw [hbrk]; exact fr.lastTimerId.trans h.ids.last,
      fun hb x hk => ?_⟩
    · rw [hmap] at hm
      obtain ⟨hk, t', hv⟩ := h.ids.known i x hm
      exact ⟨(hK x).mpr hk, t', (hview x).trans hv⟩
    · exact h.ids.born x i t' ((hview x).symm.trans hv)
    · rw [hmap]
      exact h.ids.all (by rw [← hbrk]; exact hb) x ((hK x).mp hk)
  · refine PlacedAll.push (h.placed.mono hbase fun b x hx => ⟨hx, hview x, rfl⟩) ((hview a).trans hva) ?_
    rw [hbase, hd, show it.timeval.toNat = max it.timeval.toNat s.lastTimeval.toNat from
      (Nat.max_eq_left hle).symm, Nat.max_eq_left hle]
    have := placed_bucketOf s.lastTimeval it.timeval h.range
    rwa [Nat.max_eq_left hle] at this
  · exact h.wait.mono fun x hx => ⟨List.mem_cons_of_mem a hx, hview x, rfl⟩
  · have hK' : ∀ x, Known (ch.push (bucketOf s.lastTimeval it.timeval) a) rest x ↔
        x = a ∨ Known ch (a :: rest) x := fun x =>
      (hK x).trans ⟨.inr, fun hx => hx.elim (fun e => e ▸ hka) id⟩
    have hh := h.hist.linked (t := it.timeval) (l.known_lt hka) rfl hK'
      (.inl ⟨hka, by rw [hd, Nat.max_eq_left hle]⟩)
    rw [show max it.timeval.toNat s.lastTimeval.toNat = due a by rw [hd, Nat.max_eq_left hle],
      Function.update_eq_self] at hh
    rw [hlog, hbase, hbrk]
    exact hh
  · rw [hlog, List.count_cons_of_ne (by simp), hview, hbrk]
    exact h.frees x

/-- The walk takes the next item: its id is forgotten and its callback starts. -/
theorem Inv.enter {k : UInt64} (h : Inv s ch none (a :: rest) (fun _ d => d = k.toNat) due)
    (hk : k.toNat < s.lastTimeval.toNat) :
    ∃ it, s.mem a = some it ∧
      Inv ((s.eraseId it.timerId).emit (.invoked a k)) ch (some a) rest (fun _ d => d = k.toNat) due := by
  have l : Linked s ch ((none : Option Addr).toList ++ a :: rest) none := h.linked
  have l' : Linked s ch ((some a).toList ++ rest) none := h.linked
  obtain ⟨it, hit, -⟩ := h.linked.next_of_det
  have hva : view s a = some (it.timerId, it.timeval) := by simp [view, hit]
  have hka : Known ch (a :: rest) a := .inr List.mem_cons_self
  have hna : ¬Known ch rest a := l'.cur_unknown rfl
  have hK : ∀ x, Known ch rest x ↔ x ≠ a ∧ Known ch (a :: rest) x := fun x => by
    rw [known_cons]
    exact ⟨fun hx => ⟨fun e => hna (e ▸ hx), .inr hx⟩, fun hx => hx.2.resolve_left hx.1⟩
  refine ⟨it, hit, ⟨⟨l.heads, l.seg, l.nodup, l.base, l.detSeg, l.detNodup, l.disj, l.out, l.live, l.fresh⟩,
    h.range, ⟨fun i x hm => ?_, h.ids.born, h.ids.last, fun hb x hk => ?_⟩, h.placed,
    fun x hx => h.wait x (List.mem_cons_of_mem a hx), ?_, fun x => ?_⟩⟩
  · simp only [TimerBase.emit, TimerBase.eraseId] at hm
    split at hm
    · cases hm
    next hi =>
    obtain ⟨hk, t', hv⟩ := h.ids.known i x hm
    refine ⟨(hK x).mpr ⟨fun e => hi ?_, hk⟩, t', hv⟩
    subst e; rw [hva] at hv; cases hv; rfl
  · obtain ⟨hxa, hk⟩ := (hK x).mp hk
    have hid := h.ids.born _ _ _ hva
    refine (if_neg fun e => hxa ?_).trans (h.ids.all hb x hk)
    exact id_inj (l.known_lt hk) (l.known_lt hka) hb (e.trans hid)
  · obtain ⟨-, -, -, hd⟩ := h.wait a List.mem_cons_self
    exact h.hist.invoked hka hd hk hK
  · exact (List.count_cons_of_ne (by simp)).trans (h.frees x)

/-- The callback is back: its item is deleted. -/
theorem Inv.leave (h : Inv s ch (some a) rest R due) :
    ∃ it s', s.mem a = some it ∧ it.nextItem = rest.head? ∧ s.delete a = some s' ∧
      Inv s' ch none rest R due ∧ Still s s' ∧ s'.log = .freed a :: s.log := by
  obtain ⟨it, hit, hnext⟩ := h.linked.next_of_det
  have hpop : Linked s ch rest (some a) := linked_pop h.linked
  obtain ⟨s', e, hl, rfl⟩ := linked_delete hpop
  have hlt : a < s.brk := h.linked.lt_brk (by rw [hit]; rfl)
  have l : Linked s ch ((some a).toList ++ rest) none := h.linked
  have hna : ∀ {x}, Known ch rest x → x ≠ a := fun hk e => l.cur_unknown rfl (e ▸ hk)
  have hview : ∀ x, x ≠ a → view ((s.poke a none).emit (.freed a)) x = view s x := fun x hx => by
    simp [view, TimerBase.poke, TimerBase.emit, hx]
  have hself : view ((s.poke a none).emit (.freed a)) a = none := by
    simp [view, TimerBase.poke, TimerBase.emit]
  refine ⟨it, _, hit, hnext, e, ⟨hl, h.range, ⟨fun i x hm => ?_, fun x i t hv => ?_, h.ids.last, h.ids.all⟩,
    ?_, ?_, h.hist.freed, fun x => ?_⟩, ⟨rfl, rfl, rfl⟩, rfl⟩
  · obtain ⟨hk, t, hv⟩ := h.ids.known i x hm
    exact ⟨hk, t, (hview x (hna hk)).trans hv⟩
  · by_cases hx : x = a
    · subst hx; rw [hself] at hv; cases hv
    · exact h.ids.born x i t ((hview x hx).symm.trans hv)
  · exact h.placed.mono rfl fun b x hx => ⟨hx, hview x (hna (.inl ⟨b, hx⟩)), rfl⟩
  · exact h.wait.mono fun x hx => ⟨hx, hview x (hna (.inr hx)), rfl⟩
  · show List.count _ (.freed a :: s.log) = if x < s.brk ∧ _ then 1 else 0
    by_cases hx : x = a
    · subst hx
      rw [List.count_cons_self, h.frees x, hself]
      simp [view, hit, hlt]
    · have hax : a ≠ x := fun e => hx e.symm
      rw [List.count_cons_of_ne (by simpa using hax), hview x hx]
      exact h.frees x

end SimpleSvr.L2.Timer
