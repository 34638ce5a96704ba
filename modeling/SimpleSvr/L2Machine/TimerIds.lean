import SimpleSvr.L2Machine.TimerExact

/-!
# Timer ids

`SetTimeout` takes its id from a 32-bit counter that wraps, and the id map
ignores the insertion of an id that it already holds. `timer_ids` gives the
exact condition under which an id is good: the call is not one of those that
return 0, and no pending item was set a multiple of 2^32 calls earlier
(`Spaced`). Only then does the id designate the new item. The first 2^32 - 1
calls all meet it, and while the counter has not wrapped every pending item is
found under its own id. `timer_ids_wrap` reaches the other case: one timer is
left pending, four billion others are set and cleared, and the id of the next
one is that of the first.

Calls are made from outside or by the callbacks of `CheckTimer`; `CallState`
is every state in which one can be made.
-/
namespace SimpleSvr.L2.Timer
open SimpleSvr.DList

variable {F D : Type} {interval : Int} {env : Env F D} {s s' : TimerBase F D} {ch : Chains}
  {cur : Option Addr} {rest : List Addr} {a : Addr} {R : Nat → Nat → Prop} {due : Addr → Nat}

/-! ## Where calls are made -/

/-- The walk of tick `k` in state `s`, with the item at `head` next. -/
inductive Walking (interval : Int) (env : Env F D) : UInt64 → Option Addr → TimerBase F D → Prop
  | cut {s s₁ : TimerBase F D} {head : Option Addr} (h : LoopHead interval env s)
      (hlt : s.lastTimeval.toNat < 2 ^ 63) (e : detach s = some (s₁, head)) :
      Walking interval env s.lastTimeval head s₁
  | next {k : UInt64} {a : Addr} {s s₁ s₂ : TimerBase F D} {it it₁ : TimerItem F D}
      (h : Walking interval env k (some a) s) (hit : s.mem a = some it)
      (e : invoke interval env ((s.eraseId it.timerId).emit (.invoked a k)) a = some s₁)
      (hit₁ : s₁.mem a = some it₁) (e₁ : s₁.delete a = some s₂) : Walking interval env k it₁.nextItem s₂

/-- The states in which a call on the timer is made: between two calls from
outside, or by the callback of the item `cur`, after those of its calls that
came before. -/
inductive CallState (interval : Int) (env : Env F D) : Option Addr → TimerBase F D → Prop
  | outside {s : TimerBase F D} (hr : (lts interval env).Reachable s) : CallState interval env none s
  | callback {k : UInt64} {a : Addr} {s s₁ : TimerBase F D} {it : TimerItem F D} {ops : List (Op F D)}
      (h : Walking interval env k (some a) s) (hit : s.mem a = some it)
      (hops : ops <+: env it.callback it.data ((s.eraseId it.timerId).emit (.invoked a k)))
      (e : runCalls interval ((s.eraseId it.timerId).emit (.invoked a k)) ops = some s₁) :
      CallState interval env (some a) s₁

/-- What the walk calls, from the cut of its item to any of its calls. -/
theorem Inv.invoked (interval : Int) {k : UInt64} (h : Inv s ch none (a :: rest) (fun _ d => d = k.toNat) due)
    (hk : k.toNat < s.lastTimeval.toNat) {it : TimerItem F D} (hit : s.mem a = some it) (ops : List (Op F D)) :
    ∃ s₁ ch₁ rest₁ due₁, runCalls interval ((s.eraseId it.timerId).emit (.invoked a k)) ops = some s₁ ∧
      s₁.lastTimeval = s.lastTimeval ∧ Inv s₁ ch₁ (some a) rest₁ (fun _ d => d = k.toNat) due₁ := by
  obtain ⟨it', hit', h₁⟩ := h.enter hk
  rw [hit] at hit'
  cases hit'
  have w : Walk (a :: rest) k.toNat s [] (fun _ => True) none (a :: rest) :=
    Walk.start fun x hx => h.linked.known_lt (.inr hx)
  have w₁ : Walk (a :: rest) k.toNat ((s.eraseId it.timerId).emit (.invoked a k)) _ (Known ch rest) (some a) rest :=
    w.enter h.linked.detNodup rfl fun x hx => ⟨fun e => h₁.linked.cur_unknown rfl (e ▸ hx), trivial⟩
  obtain ⟨s₁, ch₁, rest₁, due₁, -, e₁, h₁, -, hb, -, -⟩ := runCalls_spec interval a ops _ _ _ _ _ h₁ w₁
  exact ⟨s₁, ch₁, rest₁, due₁, e₁, hb, h₁⟩

theorem Walking.inv {k : UInt64} {head : Option Addr} (h : Walking interval env k head s) :
    ∃ ch rest due, head = rest.head? ∧ k.toNat < s.lastTimeval.toNat ∧
      Inv s ch none rest (fun _ d => d = k.toNat) due := by
  induction h with
  | @cut s s₁ head h hlt e =>
    obtain ⟨ch, due, hi⟩ := h.inv fun _ _ => True
    obtain ⟨s', ch', d, e', hb, h'⟩ := detach_spec hi hlt
    cases e.symm.trans e'
    refine ⟨ch', d, due, rfl, ?_, h'⟩
    rw [hb, UInt64.toNat_add, UInt64.toNat_one, Nat.mod_eq_of_lt (by omega)]
    exact Nat.lt_succ_self _
  | @next k a s s₁ s₂ it it₁ h hit e hit₁ e₁ ih =>
    obtain ⟨ch, rest, due, hhead, hk, hi⟩ := ih
    cases rest with
    | nil => cases hhead
    | cons b rest =>
      cases hhead
      have hit' : ((s.eraseId it.timerId).emit (.invoked a k)).mem a = some it := hit
      obtain ⟨s', ch', rest', due', e', hb, h'⟩ := hi.invoked interval hk hit
        (env it.callback it.data ((s.eraseId it.timerId).emit (.invoked a k)))
      simp only [invoke, hit', Option.bind_eq_bind, Option.bind_some] at e
      cases e.symm.trans e'
      obtain ⟨it', s₃, hit₃, hnext, e₃, h₃, still, -⟩ := h'.leave
      cases hit₁.symm.trans hit₃
      cases e₁.symm.trans e₃
      exact ⟨ch', rest', due', hnext, by rw [still.lastTimeval, hb]; exact hk, h₃⟩

theorem CallState.inv (h : CallState interval env cur s) :
    ∃ ch rest R due, Inv s ch cur rest R due ∧ (cur.isSome ∨ rest = []) := by
  cases h with
  | outside hr =>
    obtain ⟨ch, due, hi⟩ := reachable_inv hr fun _ _ => True
    exact ⟨ch, [], _, due, hi, .inr rfl⟩
  | @callback k a s₀ _ it ops h hit hops e =>
    obtain ⟨ch, rest, due, hhead, hk, hi⟩ := h.inv
    cases rest with
    | nil => cases hhead
    | cons b rest =>
      cases hhead
      obtain ⟨s₁, ch₁, rest₁, due₁, e₁, -, h₁⟩ := hi.invoked interval hk hit ops
      cases e.symm.trans e₁
      exact ⟨ch₁, rest₁, _, due₁, h₁, .inl rfl⟩

/-! ## Good ids -/

/-- `a` waits to fire: it is live and its callback is not the one that runs. -/
def Waits (cur : Option Addr) (s : TimerBase F D) (a : Addr) : Prop := (s.mem a).isSome ∧ cur ≠ some a

/-- `Clear(id)` deletes `a` and leaves every other item as it is. -/
def ClearsOnly (s : TimerBase F D) (id : UInt32) (a : Addr) : Prop :=
  (s.mem a).isSome ∧ ∃ s', clear s id = some s' ∧ s'.mem a = none ∧ ∀ x, x ≠ a → view s' x = view s x

/-- `SetTimeout` returns an id that is not 0 and not that of a waiting item,
that the map holds for the new item, and that clears the new item only. -/
def GoodId (interval : Int) (cur : Option Addr) (s : TimerBase F D) (callback : F) (timeout : Int) (data : D)
    (tv : Timeval) : Prop :=
  ∃ s' id, setTimeout interval s callback timeout data tv = some (s', id) ∧ id ≠ 0 ∧
    (∀ a it, Waits cur s a → s.mem a = some it → it.timerId ≠ id) ∧
    s'.timerDataMap id = some s.brk ∧ ClearsOnly s' id s.brk

/-- The call is not the `j * 2^32`th, and no waiting item was set `j * 2^32`
calls earlier. -/
def Spaced (cur : Option Addr) (s : TimerBase F D) : Prop :=
  (s.brk + 1) % 2 ^ 32 ≠ 0 ∧ ∀ a, Waits cur s a → (s.brk - a) % 2 ^ 32 ≠ 0

theorem Inv.waits (h : Inv s ch cur rest R due) : Waits cur s a ↔ Known ch rest a := by
  refine ⟨fun ⟨hl, hc⟩ => ?_, fun hk => ⟨h.linked.known_live hk, fun e => h.linked.cur_unknown e hk⟩⟩
  rcases (h.linked.live a).mp hl with hb | hd | hn
  · exact .inl hb
  · rcases List.mem_append.mp hd with hm | hm
    · exact absurd (Option.mem_toList.mp hm) hc
    · exact .inr hm
  · cases hn

/-- The id of item `a` is `a + 1` in 32 bits, for ever. -/
theorem Inv.timerId (h : Inv s ch cur rest R due) {it : TimerItem F D} (hit : s.mem a = some it) :
    it.timerId = UInt32.ofNat (a + 1) :=
  h.ids.born a it.timerId it.timeval (by simp [view, hit])

theorem Inv.nextId (h : Inv s ch cur rest R due) : s.lastTimerId + 1 = UInt32.ofNat (s.brk + 1) := by
  rw [h.ids.last, UInt32.ofNat_add]; rfl

theorem ofNat_eq_zero {n : Nat} : UInt32.ofNat n = 0 ↔ n % 2 ^ 32 = 0 := by
  rw [← UInt32.toNat_inj, UInt32.toNat_ofNat']; rfl

theorem ofNat_eq_succ {a n : Nat} (h : a ≤ n) :
    UInt32.ofNat (a + 1) = UInt32.ofNat (n + 1) ↔ (n - a) % 2 ^ 32 = 0 := by
  rw [← UInt32.toNat_inj, UInt32.toNat_ofNat', UInt32.toNat_ofNat']
  omega

theorem Linked.clearsOnly (h : Linked s ch (cur.toList ++ rest) none) (hc : cur.isSome ∨ rest = [])
    (hk : Known ch rest a) {id : UInt32} (hm : s.timerDataMap id = some a) : ClearsOnly s id a := by
  obtain ⟨s', e, -, -, hview, -, -⟩ := clear_spec h (known_tail hc hk) hm
  refine ⟨h.known_live hk, s', e, ?_, fun x hx => by rw [hview, if_neg hx]⟩
  simpa [view] using hview a

/-- An id that no waiting item has is not in the map, so it goes to the new item. -/
theorem Inv.setTimeout_unused (h : Inv s ch cur rest R due) (interval : Int) (hc : cur.isSome ∨ rest = [])
    (hu : ∀ a, Known ch rest a → (s.brk - a) % 2 ^ 32 ≠ 0) (callback : F) (timeout : Int) (data : D)
    (tv : Timeval) :
    ∃ s', setTimeout interval s callback timeout data tv = some (s', s.lastTimerId + 1) ∧
      s.timerDataMap (s.lastTimerId + 1) = none ∧ s'.timerDataMap (s.lastTimerId + 1) = some s.brk ∧
      ClearsOnly s' (s.lastTimerId + 1) s.brk := by
  have hnone : s.timerDataMap (s.lastTimerId + 1) = none := by
    refine Option.eq_none_iff_forall_ne_some.mpr fun a hm => ?_
    obtain ⟨hk, t, hv⟩ := h.ids.known _ _ hm
    have hid := h.ids.born _ _ _ hv
    rw [h.nextId] at hid
    exact hu a hk ((ofNat_eq_succ (Nat.le_of_lt (h.linked.known_lt hk))).mp hid.symm)
  obtain ⟨s', e, hl, -, -, hmap, -⟩ := setTimeout_spec h.linked interval callback timeout data tv
  have hm : s'.timerDataMap (s.lastTimerId + 1) = some s.brk := by rw [hmap, hnone, if_pos rfl]; rfl
  exact ⟨s', e, hnone, hm, hl.clearsOnly hc (known_push.mpr (.inl rfl)) hm⟩

theorem Inv.goodId (h : Inv s ch cur rest R due) (hc : cur.isSome ∨ rest = []) (callback : F) (timeout : Int)
    (data : D) (tv : Timeval) : GoodId interval cur s callback timeout data tv ↔ Spaced cur s := by
  have hlt : ∀ {a}, Waits cur s a → a ≤ s.brk := fun hw => Nat.le_of_lt (h.linked.known_lt (h.waits.mp hw))
  constructor
  · intro hset
    obtain ⟨s', id, e, hz, hne, -, -⟩ := hset
    obtain ⟨s₁, e₁, -⟩ := setTimeout_spec h.linked interval callback timeout data tv
    cases e.symm.trans e₁
    rw [h.nextId] at hz hne
    refine ⟨fun h0 => hz (ofNat_eq_zero.mpr h0), fun a hw h0 => ?_⟩
    obtain ⟨it, hit⟩ := Option.isSome_iff_exists.mp hw.1
    exact hne a it hw hit ((h.timerId hit).trans ((ofNat_eq_succ (hlt hw)).mpr h0))
  · intro hfree
    obtain ⟨hz, hs⟩ := hfree
    obtain ⟨s', e, -, hm, hcl⟩ := h.setTimeout_unused interval hc
      (fun a hk => hs a (h.waits.mpr hk)) callback timeout data tv
    refine ⟨s', _, e, fun h0 => hz (ofNat_eq_zero.mp (h.nextId.symm.trans h0)), fun a it hw hit he => ?_, hm, hcl⟩
    rw [h.timerId hit, h.nextId] at he
    exact hs a hw ((ofNat_eq_succ (hlt hw)).mp he)

/-- As long as the counter has not wrapped, the next id is good. -/
theorem Inv.spaced (h : Inv s ch cur rest R due) (hb : s.brk + 1 < 2 ^ 32) : Spaced cur s := by
  refine ⟨by rw [Nat.mod_eq_of_lt hb]; exact Nat.succ_ne_zero _, fun a hw => ?_⟩
  have hlt := h.linked.known_lt (h.waits.mp hw)
  rw [Nat.mod_eq_of_lt (Nat.lt_of_le_of_lt (Nat.sub_le _ _) (Nat.lt_of_succ_lt hb))]
  exact Nat.ne_of_gt (Nat.sub_pos_of_lt hlt)

/-- A `SetTimeout`, made from anywhere in any run, returns a good id exactly
when it is `Spaced` from 0 and from the waiting items. The first 2^32 - 1 calls
are, and until the next one every id stands for its item. -/
theorem timer_ids (h : CallState interval env cur s) :
    (∀ callback timeout data tv, GoodId interval cur s callback timeout data tv ↔ Spaced cur s) ∧
    (s.brk + 1 < 2 ^ 32 → Spaced cur s) ∧
    (s.brk < 2 ^ 32 → ∀ a it, Waits cur s a → s.mem a = some it →
      it.timerId ≠ 0 ∧ ClearsOnly s it.timerId a) := by
  obtain ⟨ch, rest, R, due, hi, hc⟩ := h.inv
  refine ⟨hi.goodId hc, hi.spaced, fun hb a it hw hit => ?_⟩
  have hk := hi.waits.mp hw
  have hlt := hi.linked.known_lt hk
  rw [hi.timerId hit]
  refine ⟨fun h0 => ?_, hi.linked.clearsOnly hc hk (hi.ids.all hb a hk)⟩
  rw [ofNat_eq_zero, Nat.mod_eq_of_lt (Nat.lt_of_le_of_lt hlt hb)] at h0
  exact Nat.succ_ne_zero a h0

/-- One timer waits, and the next id is good. -/
theorem timer_ids_next : ∃ s, runFrom (fun _ _ _ => []) [.op (.setTimeout true 5 () ⟨0, 3000⟩)] = some s ∧
    GoodId 1 none s false 9 () ⟨0, 3000⟩ := by
  obtain ⟨s, e⟩ := Option.isSome_iff_exists.mp (show (runFrom (fun _ _ _ => [])
    [.op (.setTimeout true 5 () ⟨0, 3000⟩)]).isSome by rfl)
  have hb : s.brk = 1 := value_of TimerBase.brk e rfl
  have ids := timer_ids (.outside (runFrom_reachable (by decide) e))
  exact ⟨s, e, (ids.1 false 9 () ⟨0, 3000⟩).mpr (ids.2.1 (by rw [hb]; decide))⟩

/-! ## After four billion calls -/

/-- Setting a timer and clearing it again only moves the counters. -/
theorem Inv.set_clear (h : Inv s ch none [] R due) (interval : Int)
    (hu : ∀ a, Known ch [] a → (s.brk - a) % 2 ^ 32 ≠ 0) (callback : F) (timeout : Int) (data : D) (tv : Timeval) :
    ∃ s₁ s₂, applyOp interval s (.setTimeout callback timeout data tv) = some s₁ ∧
      applyOp interval s₁ (.clear (s.lastTimerId + 1)) = some s₂ ∧ s₂.brk = s.brk + 1 ∧
      s₂.timerDataMap = s.timerDataMap ∧ view s₂ = view s := by
  obtain ⟨s₁, e₁, hl, -, hview, hmap, -, -, hbrk⟩ :=
    setTimeout_spec h.linked interval callback timeout data tv
  obtain ⟨s₁', e₁', hnone, hm, -⟩ := h.setTimeout_unused interval (.inr rfl) hu callback timeout data tv
  cases e₁.symm.trans e₁'
  obtain ⟨s₂, e₂, -, -, hview₂, hmap₂, still⟩ := clear_spec hl (known_tail (.inr rfl) (known_push.mpr (.inl rfl))) hm
  refine ⟨s₁, s₂, by simp [applyOp, e₁], e₂, still.brk.trans hbrk, funext fun i => ?_, funext fun x => ?_⟩
  · rw [hmap₂]
    split
    · next hi => rw [hi, hnone]
    · next hi => rw [hmap, if_neg hi, Option.or_none]
  · rw [hview₂]
    split
    · next hx => rw [hx, view, h.linked.fresh _ (Nat.le_refl _)]; rfl
    · next hx => rw [hview, if_neg hx]

theorem reachable_op {o : Op F D} (hr : (lts interval env).Reachable s) (e : applyOp interval s o = some s') :
    (lts interval env).Reachable s' :=
  have hc : (Call.op o).InRange interval := trivial
  .step hr ⟨hc, e⟩

/-- The first timer stays, each later one is cleared again, `n` times. -/
theorem set_clear_run : ∀ n, n < 2 ^ 32 → ∃ s, (lts 1 fun (_ : Bool) (_ : Unit) _ => []).Reachable s ∧
    s.brk = n + 1 ∧ s.timerDataMap 1 = some 0 ∧ ∀ a, (s.mem a).isSome ↔ a = 0
  | 0, _ => by
    obtain ⟨s, e⟩ := Option.isSome_iff_exists.mp (show (runFrom (fun _ _ _ => [])
      [.op (.setTimeout true 5 () ⟨0, 3000⟩)]).isSome by rfl)
    have hr := runFrom_reachable (by decide) e
    have hb : s.brk = 1 := value_of TimerBase.brk e rfl
    have hm : s.timerDataMap 1 = some 0 := value_of (fun s => s.timerDataMap 1) e rfl
    obtain ⟨ch, due, h⟩ := reachable_inv hr fun _ _ => True
    refine ⟨s, hr, hb, hm, fun a => ⟨fun hl => ?_, ?_⟩⟩
    · have := h.linked.lt_brk hl
      rw [hb] at this
      exact Nat.lt_one_iff.mp this
    · rintro rfl
      exact h.linked.known_live (h.ids.known 1 0 hm).1
  | n + 1, hn => by
    obtain ⟨s, hr, hb, hm, hl⟩ := set_clear_run n (Nat.lt_of_succ_lt hn)
    obtain ⟨ch, due, h⟩ := reachable_inv hr fun _ _ => True
    have hu : ∀ a, Known ch [] a → (s.brk - a) % 2 ^ 32 ≠ 0 := fun a hk => by
      rw [(hl a).mp (h.linked.known_live hk), hb, Nat.sub_zero, Nat.mod_eq_of_lt hn]
      exact Nat.succ_ne_zero n
    obtain ⟨s₁, s₂, e₁, e₂, hb₂, hm₂, hv⟩ := h.set_clear 1 hu false 5 () ⟨0, 3000⟩
    refine ⟨s₂, reachable_op (reachable_op hr e₁) e₂, by rw [hb₂, hb], by rw [hm₂, hm], fun a => ?_⟩
    rw [isSome_of_view (congrFun hv)]
    exact hl a

/-- The `2^32`th call returns 0. The one after it returns 1, which the first
timer, still waiting, has: the map keeps the first, and `Clear` of the id just
returned deletes it instead of the new item. -/
theorem timer_ids_wrap :
    (∃ s s', (lts 1 fun (_ : Bool) (_ : Unit) _ => []).Reachable s ∧
      setTimeout 1 s false 5 () ⟨0, 3000⟩ = some (s', 0)) ∧
    ∃ s s₁ s₂, (lts 1 fun (_ : Bool) (_ : Unit) _ => []).Reachable s ∧ Waits none s 0 ∧
      setTimeout 1 s false 5 () ⟨0, 3000⟩ = some (s₁, 1) ∧ clear s₁ 1 = some s₂ ∧
      s₂.mem 0 = none ∧ (s₂.mem s.brk).isSome := by
  constructor
  · obtain ⟨s, hr, hb, -⟩ := set_clear_run (2 ^ 32 - 2) (by decide)
    obtain ⟨ch, due, h⟩ := reachable_inv hr fun _ _ => True
    obtain ⟨s', e, -⟩ := setTimeout_spec h.linked 1 false 5 () ⟨0, 3000⟩
    rw [h.nextId, hb] at e
    exact ⟨s, s', hr, e⟩
  · obtain ⟨s, hr, hb, hm, hl⟩ := set_clear_run (2 ^ 32 - 1) (by decide)
    obtain ⟨ch, due, h⟩ := reachable_inv hr fun _ _ => True
    obtain ⟨s₁, e₁, hl₁, -, hview, hmap, -⟩ := setTimeout_spec h.linked 1 false 5 () ⟨0, 3000⟩
    rw [h.nextId, hb] at e₁
    have hm₁ : s₁.timerDataMap 1 = some 0 := by rw [hmap, hm]; rfl
    have hne : s.brk ≠ 0 := by rw [hb]; decide
    have hl₁ : Linked s₁ _ ((none : Option Addr).toList ++ []) none := hl₁
    have hk₁ : Known (ch.push (bucketOf s.lastTimeval (expiry 1 5 ⟨0, 3000⟩)) s.brk) [] 0 :=
      known_push.mpr (.inr (h.ids.known 1 0 hm).1)
    obtain ⟨-, s₂, e₂, hm₂, hv₂⟩ := hl₁.clearsOnly (.inr rfl) hk₁ hm₁
    refine ⟨s, s₁, s₂, hr, ⟨(hl 0).mpr rfl, nofun⟩, e₁, e₂, hm₂, ?_⟩
    have hv := (hv₂ s.brk hne).trans (hview s.brk)
    rw [if_pos rfl] at hv
    simpa [view] using congrArg Option.isSome hv

end SimpleSvr.L2.Timer
