import SimpleSvr.L2Machine.TimerInv

/-!
# Runs of the timer

The loops of `CheckTimer`, from the step lemmas of `TimerInv`: the cascade
chain (`cascades_spec`), one tick up to the walk (`detach_spec`), the walk with
its callbacks (`drain_spec`), the loop over ticks (`checkLoop_spec`). None of
them gets stuck and each keeps the invariant, so every reachable state has it
(`reachable_inv`).

`Walk` is what one walk does to each item of the list it drains; `drain_spec`
carries it from the cut to the end.
-/
namespace SimpleSvr.L2.Timer
open SimpleSvr.DList

variable {F D : Type} {s s' : TimerBase F D} {ch ch' : Chains} {rest rest' : List Addr}
  {cur : Option Addr} {a x : Addr} {K K' : Addr → Prop} {R R' : Nat → Nat → Prop} {due : Addr → Nat}
  {interval : Int} {env : Env F D}

/-- No list is longer than the number of items ever allocated. -/
theorem Inv.rest_length (h : Inv s ch cur rest R due) : rest.length ≤ s.brk := by
  have hn : rest.Nodup := (List.nodup_append.mp h.linked.detNodup).2.1
  have hs : rest ⊆ List.range s.brk := fun x hx =>
    List.mem_range.mpr (h.linked.known_lt (.inr hx))
  have := hn.length_le_of_subset hs
  rwa [List.length_range] at this

/-- With no list cut, what was said of it does not matter. -/
theorem Inv.idle (h : Inv s ch none [] R due) : Inv s ch none [] R' due :=
  { h with wait := fun _ hx => absurd hx List.not_mem_nil }

/-! ## cascade -/

/-- The slots of level below `k` that `cascade` empties at base `L` are empty. -/
def Emptied (L : UInt64) (ch : Chains) (k : Nat) : Prop :=
  ∀ m : Fin 4, m.val < k → L.toNat % gran m = 0 → ch (.vectorN m (tvn m L)) = []

theorem Emptied.push {L t : UInt64} {k : Nat} (h : Emptied L ch k) (hL : L.toNat ≤ 2 ^ 63) :
    Emptied L (ch.push (bucketOf L t) a) k := by
  intro m hm hal
  simp only [Chains.push]
  rw [if_neg fun e => bucketOf_avoid L t hL m hal e.symm]
  exact h m hm hal

theorem cascadeList_spec {L : UInt64} {k : Nat} :
    ∀ (rest : List Addr) (n : Nat) (s : TimerBase F D) (ch : Chains), rest.length ≤ n →
      s.lastTimeval = L → Inv s ch none rest (Ahead L.toNat) due → Emptied L ch k →
      ∃ s' ch', cascadeList n s rest.head? = some s' ∧ s'.lastTimeval = L ∧
        Inv s' ch' none [] (Ahead L.toNat) due ∧ Emptied L ch' k
  | [], n, s, ch, _, hL, h, he => ⟨s, ch, by cases n <;> rfl, hL, h, he⟩
  | a :: rest, n, s, ch, hn, hL, h, he => by
    cases n with
    | zero => cases hn
    | succ n =>
      subst hL
      obtain ⟨it, s₁, s₂, e, hnext, e₁, e₂, h₂, still⟩ := h.refile
      obtain ⟨s', ch', e', hL', h', he'⟩ := cascadeList_spec rest n s₂ _ (Nat.le_of_succ_le_succ hn)
        still.lastTimeval h₂ (he.push h.range)
      refine ⟨s', ch', ?_, hL', h', he'⟩
      simp only [List.head?_cons, cascadeList, e, Option.bind_eq_bind, Option.bind_some, e₁, e₂, hnext]
      exact e'

theorem cascade_spec {L : UInt64} (n : Fin 4) (hL : s.lastTimeval = L) (h : Inv s ch none [] R due)
    (hal : L.toNat % gran n = 0) (he : Emptied L ch n.val) :
    ∃ s' ch', cascade s n (tvn n L) = some (s', tvn n L != 0) ∧ s'.lastTimeval = L ∧
      Inv s' ch' none [] R due ∧ Emptied L ch' (n.val + 1) := by
  subst hL
  let b : Bucket := .vectorN n (tvn n s.lastTimeval)
  have hcut : Inv (s.setVector b none) (ch.cut b) none (ch b) (Ahead s.lastTimeval.toNat) due :=
    h.cut b _ (Nat.le_refl _) h.range (fun _ _ _ _ _ hp => hp)
      fun t d hp => placed_window hp hal (tvn_toNat n s.lastTimeval)
  have hem : Emptied s.lastTimeval (ch.cut b) (n.val + 1) := by
    intro m hm halm
    by_cases e : m = n
    · subst e; exact if_pos rfl
    · have hmn : m.val < n.val := Nat.lt_of_le_of_ne (Nat.le_of_lt_succ hm) fun e' => e (Fin.ext e')
      exact (if_neg fun e' => e (Bucket.vectorN.inj e').1).trans (he m hmn halm)
  obtain ⟨s', ch', e, hL', h', he'⟩ := cascadeList_spec (ch b) s.brk _ _ hcut.rest_length rfl hcut hem
  refine ⟨s', ch', ?_, hL', h'.idle, he'⟩
  simp only [cascade, h.linked.heads, Option.bind_eq_bind, b] at e ⊢
  rw [e]; rfl

/-- The chain over `ns`, entered at level `k`, empties every slot that opens at
base `L`. -/
def CascadesOk (F D : Type) (L : UInt64) (ns : List (Fin 4)) (k : Nat) : Prop :=
  ∀ {s : TimerBase F D} {ch : Chains} {R : Nat → Nat → Prop} {due : Addr → Nat}, s.lastTimeval = L →
    Inv s ch none [] R due → L.toNat % 2 ^ (8 + 6 * k) = 0 → Emptied L ch k →
    ∃ s' ch', cascades s ns = some s' ∧ s'.lastTimeval = L ∧ Inv s' ch' none [] R due ∧ Emptied L ch' 4

theorem cascades_nil (L : UInt64) : CascadesOk F D L [] 4 := fun hL h _ he => ⟨_, _, rfl, hL, h, he⟩

/-- `index` is zero exactly when the base is aligned for the next level too. -/
theorem cascades_cons {L : UInt64} {ns : List (Fin 4)} (n : Fin 4) (ih : CascadesOk F D L ns (n.val + 1)) :
    CascadesOk F D L (n :: ns) n.val := by
  intro s ch R due hL h hal he
  obtain ⟨s₁, ch₁, e₁, hL₁, h₁, he₁⟩ := cascade_spec n hL h hal he
  have hidx := tvn_toNat n L
  have hg : 2 ^ (8 + 6 * (n.val + 1)) = gran n * 64 := by
    rw [gran, show 8 + 6 * (n.val + 1) = 8 + 6 * n.val + 6 by omega, Nat.pow_add]
  have hpos := gran_pos n
  have hmod : L.toNat % (gran n * 64) = gran n * (tvn n L).val := by
    rw [Nat.mod_mul, show L.toNat % gran n = 0 from hal, hidx, Nat.zero_add]
  by_cases hz : tvn n L = 0
  · obtain ⟨s', ch', e', hres⟩ := ih hL₁ h₁ (by rw [hg, hmod, hz]; rfl) he₁
    refine ⟨s', ch', ?_, hres⟩
    rw [hz] at e₁
    simp only [cascades, hL, hz, e₁, Option.bind_eq_bind, Option.bind_some]
    exact e'
  · refine ⟨s₁, ch₁, ?_, hL₁, h₁, fun m hm halm => ?_⟩
    · simp only [cascades, hL, e₁, Option.bind_eq_bind, Option.bind_some, bne_iff_ne.mpr hz, if_true]
    · refine he₁ m (Nat.lt_succ_of_le (Nat.not_lt.mp fun hlt => hz (Fin.ext ?_))) halm
      -- a coarser aligned level would make the index zero
      have hd : gran n * 64 ∣ L.toNat := by
        rw [← hg]
        exact Nat.dvd_trans (Nat.pow_dvd_pow 2 (by omega)) (Nat.dvd_of_mod_eq_zero halm)
      have h0 := Nat.mod_eq_zero_of_dvd hd
      rw [hmod] at h0
      exact (Nat.mul_eq_zero.mp h0).resolve_left (Nat.ne_of_gt hpos)

theorem cascades_spec (L : UInt64) : CascadesOk F D L [0, 1, 2, 3] 0 :=
  cascades_cons 0 (cascades_cons 1 (cascades_cons 2 (cascades_cons 3 (cascades_nil L))))

/-! ## One tick up to the walk -/

theorem gran_dvd (n : Fin 4) {L : Nat} (h : L % gran n = 0) : L % 256 = 0 := by
  have : (2 : Nat) ^ 8 ∣ gran n := Nat.pow_dvd_pow 2 (Nat.le_add_right 8 _)
  exact Nat.mod_eq_zero_of_dvd (Nat.dvd_trans this (Nat.dvd_of_mod_eq_zero h))

/-- An iteration advances the base and cuts the list of what is due in the
tick it processes. -/
theorem detach_spec (h : Inv s ch none [] R due) (hlt : s.lastTimeval.toNat < 2 ^ 63) :
    ∃ s' ch' d, detach s = some (s', d.head?) ∧ s'.lastTimeval = s.lastTimeval + 1 ∧
      Inv s' ch' none d (fun _ d => d = s.lastTimeval.toNat) due := by
  have hidx := tvr_toNat s.lastTimeval
  have cascaded : ∃ s₁ ch₁, (if tvr s.lastTimeval = 0 then cascades s [0, 1, 2, 3] else some s) = some s₁ ∧
      s₁.lastTimeval = s.lastTimeval ∧ Inv s₁ ch₁ none [] R due ∧ Emptied s.lastTimeval ch₁ 4 := by
    by_cases hz : tvr s.lastTimeval = 0
    · rw [if_pos hz]
      exact cascades_spec _ rfl h (hidx.symm.trans (by rw [hz]; rfl)) fun m hm => absurd hm (Nat.not_lt_zero _)
    · rw [if_neg hz]
      exact ⟨s, ch, rfl, rfl, h, fun m _ hal => absurd (Fin.ext (hidx.trans (gran_dvd m hal))) hz⟩
  obtain ⟨s₁, ch₁, e₁, hL, h₁, he⟩ := cascaded
  have hsucc : (s.lastTimeval + 1).toNat = s.lastTimeval.toNat + 1 := by
    rw [UInt64.toNat_add, UInt64.toNat_one, Nat.mod_eq_of_lt (by omega)]
  have hdue : ∀ t d, Placed s₁.lastTimeval.toNat (.vector1 (tvr s.lastTimeval)) t d →
      d = s.lastTimeval.toNat := fun t d hp => by rw [hL] at hp; exact placed_due hp hidx
  have hcut := h₁.cut (.vector1 (tvr s.lastTimeval)) (s.lastTimeval + 1)
    (by rw [hL, hsucc]; exact Nat.le_succ _) (by omega)
    (fun b' hb hne t d hp => by
      rw [hL] at hp
      rw [hsucc]
      refine placed_succ hp (fun i e hi => hb ?_) fun n i e hal hi => hne ?_
      · rw [e]; congr 1; exact Fin.ext (hi.trans hidx.symm)
      · have : i = tvn n s.lastTimeval := Fin.ext (hi.trans (tvn_toNat n _).symm)
        rw [e, this]; exact he n n.isLt hal)
    hdue
  refine ⟨_, _, _, ?_, rfl, hcut⟩
  simp only [detach, Option.bind_eq_bind]
  split at e₁
  · next hz => rw [if_pos hz, e₁, Option.bind_some, h₁.linked.heads, hL]
  · next hz => rw [if_neg hz, e₁, Option.bind_some, h₁.linked.heads, hL]

/-! ## The walk -/

/-- Effect of a walk in tick `k` over the cut list `d`, of which `rest` is
still ahead, given the trace `ev` since the cut. -/
structure Walk (d : List Addr) (k : Nat) (s : TimerBase F D) (ev : List Event) (K : Addr → Prop)
    (cur : Option Addr) (rest : List Addr) : Prop where
  sub : ∀ x ∈ rest, x ∈ d
  old : ∀ x ∈ d, x < s.brk
  ahead : ∀ x ∈ rest, Untouched x ev ∧ fires x ev = []
  behind : ∀ x ∈ d, x ∉ rest →
    (Untouched x ev ∧ fires x ev = [k] ∧ ¬K x) ∨ (¬Untouched x ev ∧ fires x ev = [])
  others : ∀ x, x ∉ d → fires x ev = []
  refiled : ∀ x t L, .linked x t L ∈ ev → x ∈ d → ¬Untouched x ev
  freed : ∀ x, .cleared x ∈ ev ∨ fires x ev ≠ [] → cur = some x ∨ .freed x ∈ ev

section walk
variable {d : List Addr} {k : Nat} {ev : List Event}

theorem Walk.start (hd : ∀ x ∈ d, x < s.brk) : Walk d k s [] K none d where
  sub _ hx := hx
  old := hd
  ahead _ _ := ⟨untouched_nil, rfl⟩
  behind _ h h' := absurd h h'
  others _ _ := rfl
  refiled _ _ _ h := absurd h List.not_mem_nil
  freed _ h := by simp at h

/-- An item that a call can still reach has not fired. -/
theorem Walk.unfired {a : Addr} (h : Walk d k s ev (Known ch rest) cur rest) (ha : a ∈ d) (hk : Known ch rest a) :
    fires a ev = [] := by
  by_cases hrest : a ∈ rest
  · exact (h.ahead a hrest).2
  · rcases h.behind a ha hrest with hfired | htouched
    · exact absurd hk hfired.2.2
    · exact htouched.2

theorem Walk.op (h : Walk d k s ev (Known ch rest) cur rest)
    (hl : Linked s ch (cur.toList ++ rest) none) (hi : Ids s (Known ch rest))
    (hop : OpCase s s' ch rest ch' rest') :
    ∃ new, s'.log = new ++ s.log ∧ Walk d k s' (new ++ ev) (Known ch' rest') cur rest' := by
  have hrest : rest.Nodup := (List.nodup_append.mp hl.detNodup).2.1
  cases hop with
  | idle e => exact ⟨[], by rw [e]; rfl, by rw [e]; exact h⟩
  | add t id hid hlog hview hmap hlast hbase hbrk =>
    have hne : ∀ x ∈ d, x ≠ s.brk := fun x hx => Nat.ne_of_lt (h.old x hx)
    refine ⟨[.linked s.brk t s.lastTimeval], hlog, h.sub, fun x hx => ?_, fun x hx => ?_, fun x hx hr => ?_,
      h.others, fun x t' L hm hx => ?_, fun x hx => ?_⟩
    · rw [hbrk]; exact Nat.lt_succ_of_lt (h.old x hx)
    · exact ⟨untouched_linked.mpr (h.ahead x hx).1, (h.ahead x hx).2⟩
    · simp only [List.singleton_append, untouched_linked, fires_linked, known_push, hne x hx, false_or]
      exact h.behind x hx hr
    · rcases List.mem_cons.mp hm with e | hm
      · cases e; exact absurd rfl (hne _ hx)
      · exact fun hu => h.refiled x t' L hm hx (untouched_linked.mp hu)
    · exact (h.freed x (by simpa using hx)).imp_right (List.mem_cons_of_mem _)
  | move id a t hm hlog hview hmap hstill =>
    obtain ⟨hka, -⟩ := hi.known id a hm
    refine ⟨[.linked a t s.lastTimeval, .updated a], hlog, fun x hx => h.sub x (List.mem_of_mem_erase hx),
      fun x hx => ?_, fun x hx => ?_, fun x hx hr => ?_, h.others, fun x t' L hm hx => ?_, fun x hx => ?_⟩
    · rw [hstill.brk]; exact h.old x hx
    · obtain ⟨hxa, hx⟩ := hrest.mem_erase_iff.mp hx
      exact ⟨untouched_linked.mpr (untouched_updated.mpr ⟨hxa, (h.ahead x hx).1⟩), (h.ahead x hx).2⟩
    · simp only [List.cons_append, List.nil_append, untouched_linked, untouched_updated, fires_linked,
        fires_updated, known_push, known_erase hl]
      by_cases hxa : x = a
      · subst hxa
        exact .inr ⟨fun hu => hu.1 rfl, h.unfired hx hka⟩
      · have hxr : x ∉ rest := fun hx' => hr (hrest.mem_erase_iff.mpr ⟨hxa, hx'⟩)
        simpa [hxa] using h.behind x hx hxr
    · simp only [List.cons_append, List.nil_append, untouched_linked, untouched_updated] at hm ⊢
      rintro ⟨hxa, hu⟩
      have hm : .linked x t' L ∈ ev := by simpa [hxa] using hm
      exact h.refiled x t' L hm hx hu
    · exact (h.freed x (by simpa using hx)).imp_right fun hf => by simp [hf]
  | remove id a hm hlog hview hmap hstill =>
    obtain ⟨hka, -⟩ := hi.known id a hm
    refine ⟨[.freed a, .cleared a], hlog, fun x hx => h.sub x (List.mem_of_mem_erase hx),
      fun x hx => ?_, fun x hx => ?_, fun x hx hr => ?_, h.others, fun x t' L hm hx => ?_, fun x hx => ?_⟩
    · rw [hstill.brk]; exact h.old x hx
    · obtain ⟨hxa, hx⟩ := hrest.mem_erase_iff.mp hx
      exact ⟨untouched_freed.mpr (untouched_cleared.mpr ⟨hxa, (h.ahead x hx).1⟩), (h.ahead x hx).2⟩
    · simp only [List.cons_append, List.nil_append, untouched_freed, untouched_cleared, fires_freed,
        fires_cleared, known_erase hl]
      by_cases hxa : x = a
      · subst hxa
        exact .inr ⟨fun hu => hu.1 rfl, h.unfired hx hka⟩
      · have hxr : x ∉ rest := fun hx' => hr (hrest.mem_erase_iff.mpr ⟨hxa, hx'⟩)
        simpa [hxa] using h.behind x hx hxr
    · simp only [List.cons_append, List.nil_append, untouched_freed, untouched_cleared] at hm ⊢
      exact fun hu => h.refiled x t' L (by simpa using hm) hx hu.2
    · by_cases hxa : x = a
      · subst hxa; exact .inr (by simp)
      · exact (h.freed x (by simpa [hxa] using hx)).imp_right fun hf => by simp [hf]

theorem Walk.enter {s₁ : TimerBase F D} {tick : UInt64} (h : Walk d tick.toNat s ev K none (a :: rest))
    (hn : (a :: rest).Nodup) (hb : s₁.brk = s.brk) (hK : ∀ x, K' x → x ≠ a ∧ K x) :
    Walk d tick.toNat s₁ (.invoked a tick :: ev) K' (some a) rest := by
  have hna := (List.nodup_cons.mp hn).1
  obtain ⟨hu, hf⟩ := h.ahead a List.mem_cons_self
  have hother : ∀ x, x ≠ a → fires x (.invoked a tick :: ev) = fires x ev := fun x hx => by
    rw [fires_invoked, if_neg fun e => hx e.symm]
  refine ⟨fun x hx => h.sub x (List.mem_cons_of_mem a hx), fun x hx => by rw [hb]; exact h.old x hx,
    fun x hx => ?_, fun x hx hr => ?_, fun x hx => ?_, fun x t L hm hx hu => ?_, fun x hx => ?_⟩
  · have hxa : x ≠ a := fun e => hna (e ▸ hx)
    rw [untouched_invoked, hother x hxa]
    exact h.ahead x (List.mem_cons_of_mem a hx)
  · rw [untouched_invoked]
    by_cases hxa : x = a
    · subst hxa
      exact .inl ⟨hu, by rw [fires_invoked, if_pos rfl, hf], fun hk => (hK x hk).1 rfl⟩
    · rw [hother x hxa]
      refine (h.behind x hx ?_).imp_left fun ⟨h1, h2, h3⟩ => ⟨h1, h2, fun hk => h3 (hK x hk).2⟩
      exact fun hx => (List.mem_cons.mp hx).elim hxa hr
  · rw [hother x fun e => hx (e ▸ h.sub a List.mem_cons_self)]
    exact h.others x hx
  · exact h.refiled x t L (by simpa using hm) hx (untouched_invoked.mp hu)
  · by_cases hxa : x = a
    · exact .inl (by rw [hxa])
    · rw [hother x hxa] at hx
      exact .inr (List.mem_cons_of_mem _ ((h.freed x (by simpa using hx)).resolve_left (by simp)))

theorem Walk.leave {s₁ : TimerBase F D} (h : Walk d k s ev K (some a) rest) (hb : s₁.brk = s.brk) :
    Walk d k s₁ (.freed a :: ev) K none rest where
  sub := h.sub
  old x hx := by rw [hb]; exact h.old x hx
  ahead x hx := ⟨untouched_freed.mpr (h.ahead x hx).1, (h.ahead x hx).2⟩
  behind x hx hr := by rw [untouched_freed, fires_freed]; exact h.behind x hx hr
  others := h.others
  refiled x t L hm hx hu := h.refiled x t L (by simpa using hm) hx (untouched_freed.mp hu)
  freed x hx := by
    rcases h.freed x (by simpa using hx) with e | hf
    · cases e; exact .inr List.mem_cons_self
    · exact .inr (List.mem_cons_of_mem _ hf)

end walk

/-- A callback's calls all succeed, whatever they are. -/
theorem runCalls_spec (interval : Int) {d : List Addr} {k : Nat} (a : Addr) :
    ∀ (ops : List (Op F D)) (s : TimerBase F D) (ch : Chains) (rest : List Addr) (due : Addr → Nat)
      (ev : List Event), Inv s ch (some a) rest R due → Walk d k s ev (Known ch rest) (some a) rest →
      ∃ s' ch' rest' due' new, runCalls interval s ops = some s' ∧ Inv s' ch' (some a) rest' R due' ∧
        s'.log = new ++ s.log ∧ s'.lastTimeval = s.lastTimeval ∧ rest'.length ≤ rest.length ∧
        Walk d k s' (new ++ ev) (Known ch' rest') (some a) rest'
  | [], s, ch, rest, due, ev, h, w => ⟨s, ch, rest, due, [], rfl, h, rfl, rfl, Nat.le_refl _, w⟩
  | op :: ops, s, ch, rest, due, ev, h, w => by
    obtain ⟨s₁, ch₁, rest₁, due₁, e₁, h₁, hop⟩ := h.op (.inl rfl) interval op
    obtain ⟨new₁, hlog₁, w₁⟩ := w.op h.linked h.ids hop
    obtain ⟨hb, hlen⟩ : s₁.lastTimeval = s.lastTimeval ∧ rest₁.length ≤ rest.length := by
      cases hop with
      | idle e => exact ⟨by rw [e], Nat.le_refl _⟩
      | add t id hid hlog hview hmap hlast hbase hbrk => exact ⟨hbase, Nat.le_refl _⟩
      | move id a t hm hlog hview hmap hstill => exact ⟨hstill.lastTimeval, List.length_erase_le⟩
      | remove id a hm hlog hview hmap hstill => exact ⟨hstill.lastTimeval, List.length_erase_le⟩
    obtain ⟨s', ch', rest', due', new, e', h', hlog', hb', hlen', w'⟩ :=
      runCalls_spec interval a ops s₁ ch₁ rest₁ due₁ (new₁ ++ ev) h₁ w₁
    refine ⟨s', ch', rest', due', new ++ new₁, ?_, h', by rw [hlog', hlog₁, List.append_assoc],
      hb'.trans hb, Nat.le_trans hlen' hlen, by rw [List.append_assoc]; exact w'⟩
    simp only [runCalls, e₁, Option.bind_eq_bind, Option.bind_some]
    exact e'

/-- The walk ends, whatever the callbacks do, and did `Walk` to its list. -/
theorem drain_spec (interval : Int) (env : Env F D) {d : List Addr} {tick : UInt64} :
    ∀ (n : Nat) (s : TimerBase F D) (ch : Chains) (rest : List Addr) (due : Addr → Nat) (ev : List Event),
      rest.length ≤ n → tick.toNat < s.lastTimeval.toNat →
      Inv s ch none rest (fun _ d => d = tick.toNat) due → Walk d tick.toNat s ev (Known ch rest) none rest →
      ∃ s' ch' due' new, drain interval env tick n s rest.head? = some s' ∧
        Inv s' ch' none [] (fun _ d => d = tick.toNat) due' ∧ s'.log = new ++ s.log ∧
        s'.lastTimeval = s.lastTimeval ∧ Walk d tick.toNat s' (new ++ ev) (Known ch' []) none []
  | n, s, ch, [], due, ev, _, _, h, w => ⟨s, ch, due, [], by cases n <;> rfl, h, rfl, rfl, w⟩
  | 0, _, _, _ :: _, _, _, hn, _, _, _ => by cases hn
  | n + 1, s, ch, a :: rest, due, ev, hn, hk, h, w => by
    obtain ⟨it, hit, h₁⟩ := h.enter hk
    have l : Linked s ch ((some a).toList ++ rest) none := h.linked
    have hK : ∀ x, Known ch rest x → x ≠ a ∧ Known ch (a :: rest) x := fun x hx =>
      ⟨fun e => l.cur_unknown rfl (e ▸ hx), known_cons.mpr (.inr hx)⟩
    have w₁ : Walk d tick.toNat ((s.eraseId it.timerId).emit (.invoked a tick)) _ _ (some a) rest :=
      w.enter h.linked.detNodup rfl hK
    obtain ⟨s₂, ch₂, rest₂, due₂, new₂, e₂, h₂, hlog₂, hb₂, hlen₂, w₂⟩ :=
      runCalls_spec interval a
        (env it.callback it.data ((s.eraseId it.timerId).emit (.invoked a tick))) _ _ _ _ _ h₁ w₁
    obtain ⟨it₂, s₃, hit₂, hnext, e₃, h₃, still, hlog₃⟩ := h₂.leave
    have w₃ := w₂.leave still.brk
    obtain ⟨s', ch', due', new, e', h', hlog', hb', w'⟩ := drain_spec interval env n s₃ ch₂ rest₂ due₂ _
      (Nat.le_trans hlen₂ (Nat.le_of_succ_le_succ hn)) (by rw [still.lastTimeval, hb₂]; exact hk) h₃ w₃
    refine ⟨s', ch', due', new ++ (.freed a :: (new₂ ++ [.invoked a tick])), ?_, h', ?_,
      hb'.trans (still.lastTimeval.trans hb₂), by simpa using w'⟩
    · have hit' : ((s.eraseId it.timerId).emit (.invoked a tick)).mem a = some it := hit
      simp only [List.head?_cons, drain, hit, Option.bind_eq_bind, Option.bind_some, invoke, hit', e₂, hit₂, e₃,
        hnext]
      exact e'
    · rw [hlog', hlog₃, hlog₂]
      simp [TimerBase.emit, TimerBase.eraseId]

/-! ## CheckTimer -/

/-- One iteration, from the cut to the end of the walk. -/
theorem tick_spec (interval : Int) (env : Env F D) (h : Inv s ch none [] R due) (hlt : s.lastTimeval.toNat < 2 ^ 63) :
    ∃ s₁ ch₁ d s' ch' due' ev, detach s = some (s₁, d.head?) ∧
      Inv s₁ ch₁ none d (fun _ d => d = s.lastTimeval.toNat) due ∧
      tick interval env s = some s' ∧ s'.lastTimeval = s.lastTimeval + 1 ∧ s'.log = ev ++ s₁.log ∧
      Inv s' ch' none [] (fun _ d => d = s.lastTimeval.toNat) due' ∧
      Walk d s.lastTimeval.toNat s' ev (Known ch' []) none [] := by
  obtain ⟨s₁, ch₁, d, e₁, hb₁, h₁⟩ := detach_spec h hlt
  have hk : s.lastTimeval.toNat < s₁.lastTimeval.toNat := by
    rw [hb₁, UInt64.toNat_add, UInt64.toNat_one, Nat.mod_eq_of_lt (by omega)]
    exact Nat.lt_succ_self _
  have w : Walk d s.lastTimeval.toNat s₁ [] (Known ch₁ d) none d :=
    Walk.start fun x hx => h₁.linked.known_lt (.inr hx)
  obtain ⟨s', ch', due', new, e', h', hlog, hb, w'⟩ :=
    drain_spec interval env s₁.brk s₁ ch₁ d due [] h₁.rest_length hk h₁ w
  refine ⟨s₁, ch₁, d, s', ch', due', new, e₁, h₁, ?_, hb.trans hb₁, hlog, h', by simpa using w'⟩
  simp only [tick, e₁, Option.bind_eq_bind, Option.bind_some]
  exact e'

theorem checkLoop_spec (interval : Int) (env : Env F D) {now : UInt64} (hnow : now.toNat ≤ 2 ^ 63) :
    ∀ (n : Nat) (s : TimerBase F D) (ch : Chains) (due : Addr → Nat), Inv s ch none [] R due →
      now.toNat - s.lastTimeval.toNat ≤ n →
      ∃ s' ch' due', checkLoop interval env now n s = some s' ∧ now ≤ s'.lastTimeval ∧
        Inv s' ch' none [] R due'
  | n, s, ch, due, h, hn => by
    by_cases hlt : s.lastTimeval < now
    · have hlt' := UInt64.lt_iff_toNat_lt.mp hlt
      cases n with
      | zero => exact absurd hn (by omega)
      | succ n =>
        obtain ⟨-, -, -, s₁, ch₁, due₁, -, -, -, e₁, hb₁, -, h₁, -⟩ :=
          tick_spec interval env h (by omega)
        have hsucc : s₁.lastTimeval.toNat = s.lastTimeval.toNat + 1 := by
          rw [hb₁, UInt64.toNat_add, UInt64.toNat_one, Nat.mod_eq_of_lt (by omega)]
        obtain ⟨s', ch', due', e', hle, h'⟩ := checkLoop_spec interval env hnow n s₁ ch₁ due₁ h₁.idle (by omega)
        refine ⟨s', ch', due', ?_, hle, h'⟩
        simp only [checkLoop, if_pos hlt, e₁, Option.bind_eq_bind, Option.bind_some]
        exact e'
    · refine ⟨s, ch, due, ?_, ?_, h⟩
      · cases n <;> simp [checkLoop, hlt]
      · exact UInt64.le_iff_toNat_le.mpr (Nat.not_lt.mp fun h => hlt (UInt64.lt_iff_toNat_lt.mpr h))

theorem checkTimer_spec (env : Env F D) {tv : Timeval} (h : Inv s ch none [] R due) (htv : InRange interval tv) :
    ∃ s' ch' due', checkTimer interval env s tv = some s' ∧ getTimeval interval tv ≤ s'.lastTimeval ∧
      Inv s' ch' none [] R due' :=
  checkLoop_spec interval env htv _ s ch due h (Nat.le_refl _)

/-! ## Runs -/

theorem inv_construct {tv : Timeval} (htv : InRange interval tv) :
    Inv (construct (F := F) (D := D) interval tv) (fun _ => []) none [] R fun _ => 0 where
  linked := by
    refine ⟨fun _ => rfl, fun _ => trivial, fun _ => List.nodup_nil, nofun, ⟨none, trivial⟩,
      List.nodup_nil, nofun, nofun, fun a => ?_, fun _ _ => rfl⟩
    simp [construct]
  range := htv
  ids := ⟨nofun, nofun, rfl, fun _ a hk => by simp [Known] at hk⟩
  placed := nofun
  wait := nofun
  hist := ⟨fun post a t L pre e => by simp [construct] at e, fun a t L h => by simp [construct] at h⟩
  frees a := by simp [construct]

/-- Every call succeeds in every state a run can reach. -/
theorem call_spec (env : Env F D) {c : Call F D} (h : Inv s ch none [] R due) (hc : c.InRange interval) :
    ∃ s' ch' due', call interval env s c = some s' ∧ Inv s' ch' none [] R due' := by
  cases c with
  | op o =>
    obtain ⟨s', ch', rest', due', e, h', hop⟩ := h.op (.inr rfl) interval o
    have hr : rest' = [] := by cases hop <;> rfl
    subst hr
    exact ⟨s', ch', due', e, h'⟩
  | checkTimer tv =>
    obtain ⟨s', ch', due', e, -, h'⟩ := checkTimer_spec env h hc
    exact ⟨s', ch', due', e, h'⟩

theorem inductive_inv (R : Nat → Nat → Prop) :
    (lts (F := F) (D := D) interval env).Inductive fun s => ∃ ch due, Inv s ch none [] R due where
  init := by
    rintro s ⟨tv, htv, rfl⟩
    exact ⟨_, _, inv_construct htv⟩
  step := by
    rintro s c s' ⟨ch, due, h⟩ ⟨hc, e⟩
    obtain ⟨s₁, ch', due', e', h'⟩ := call_spec env h hc
    rw [e] at e'
    cases e'
    exact ⟨ch', due', h'⟩

theorem reachable_inv (hr : (lts (F := F) (D := D) interval env).Reachable s) (R : Nat → Nat → Prop) :
    ∃ ch due, Inv s ch none [] R due := (inductive_inv R).reachable s hr

end SimpleSvr.L2.Timer
