import SimpleSvr.L2Machine.TimerExact
import Mathlib.Algebra.Ring.Int.Defs

/-!
# Timers that fire early

`SetTimeout` rounds the clock and the timeout down to ticks, each for itself, and
`CheckTimer` invokes an item as soon as the tick of their sum is over.
`early_iff`: no callback runs before its time exactly if the two remainders
make up one `Interval` at most.
-/
namespace SimpleSvr.L2.Timer

variable {F D : Type} {interval timeout : Int} {env : Env F D} {s s' : TimerBase F D} {tv : Timeval}
  {R : Nat → Nat → Prop} {due : Addr → Nat} {ch : Chains}

/-! ## Runs against a clock -/

/-- The reading in milliseconds. -/
def millis (tv : Timeval) : Int := tv.tvSec * 1000 + tv.tvUsec.tdiv 1000

/-- The operation is made between the times `lo` and `hi`. -/
def Op.Within (lo hi : Int) : Op F D → Prop
  | .setTimeout _ _ _ tv => lo ≤ millis tv ∧ millis tv ≤ hi
  | .update _ _ tv => lo ≤ millis tv ∧ millis tv ≤ hi
  | .clear _ => lo ≤ hi

/-- The call is made between `lo` and `hi`; its callbacks read the clock after `CheckTimer` did. -/
def Call.Within (lo hi : Int) (env : Env F D) : Call F D → Prop
  | .op o => o.Within lo hi
  | .checkTimer tv => lo ≤ millis tv ∧ millis tv ≤ hi ∧ ∀ f d s, ∀ o ∈ env f d s, o.Within (millis tv) hi

/-- Runs against a clock that never goes back. The time stands beside the timer, and each call comes
with the callbacks that run in it. -/
def clocked (interval : Int) : LTS (TimerBase F D × Int) (Call F D × Env F D) where
  init s := ∃ tv, 0 ≤ millis tv ∧ millis tv ≤ s.2 ∧ s.2 < 2 ^ 63 ∧ s.1 = construct interval tv
  step s c s' := c.1.Within s.2 s'.2 c.2 ∧ s'.2 < 2 ^ 63 ∧ call interval c.2 s.1 c.1 = some s'.1

/-- The step from `s` to `s'` invokes the item `a`, which was filed when the trace was `log` and was
neither updated nor cleared since. -/
def Invokes (s s' : TimerBase F D) (log : List Event) (a : Addr) : Prop :=
  ∃ post new k, s'.log = post ++ log ∧ Untouched a post ∧ .invoked a k ∈ post ∧
    s'.log = new ++ s.log ∧ .invoked a k ∈ new

/-- A callback that `SetTimeout` set at the reading `tv`, in whatever state, is invoked by no
`CheckTimer` whose reading is less than `timeout` later. -/
def NeverEarly (interval timeout : Int) (tv : Timeval) : Prop :=
  ∀ (F D : Type) (s s' : TimerBase F D × Int) (now : Timeval) (env : Env F D) (s₀ s₁ : TimerBase F D)
    (callback : F) (data : D) (id : UInt32), (clocked interval).Reachable s →
    (clocked interval).step s (.checkTimer now, env) s' →
    setTimeout interval s₀ callback timeout data tv = some (s₁, id) → Invokes s.1 s'.1 s₁.log s₀.brk →
    millis tv + timeout ≤ millis now

/-! ## Ticks -/

theorem millis_reading (x : Int) : millis ⟨x / 1000, x % 1000 * 1000⟩ = x := by
  show x / 1000 * 1000 + (x % 1000 * 1000).tdiv 1000 = x
  rw [Int.mul_tdiv_cancel _ (by decide)]
  omega

theorem toNat_ofInt {x : Int} (h0 : 0 ≤ x) (h : x < 2 ^ 64) : ((UInt64.ofInt x).toNat : Int) = x := by
  rw [UInt64.ofInt, UInt64.toNat_ofNat']
  omega

theorem getTimeval_toNat (hI : 0 < interval) (h0 : 0 ≤ millis tv) (h : millis tv < 2 ^ 63) :
    ((getTimeval interval tv).toNat : Int) = millis tv / interval := by
  have hle : millis tv / interval ≤ millis tv := Int.ediv_le_self _ h0
  have hpos : 0 ≤ millis tv / interval := Int.ediv_nonneg h0 (Int.le_of_lt hI)
  rw [getTimeval, ← millis, Int.tdiv_eq_ediv_of_nonneg h0]
  exact toNat_ofInt hpos (by omega)

theorem inRange_of_millis (hI : 0 < interval) (h0 : 0 ≤ millis tv) (h : millis tv < 2 ^ 63) : InRange interval tv := by
  have hle : millis tv / interval ≤ millis tv := Int.ediv_le_self _ h0
  have heq := getTimeval_toNat hI h0 h
  unfold InRange
  omega

theorem expiry_toNat (hI : 0 < interval) (hT : 0 ≤ timeout) (h0 : 0 ≤ millis tv) (h : millis tv + timeout < 2 ^ 63) :
    ((expiry interval timeout tv).toNat : Int) = millis tv / interval + timeout / interval := by
  have hs : millis tv / interval ≤ millis tv := Int.ediv_le_self _ h0
  have ht : timeout / interval ≤ timeout := Int.ediv_le_self _ hT
  have hpos : 0 ≤ timeout / interval := Int.ediv_nonneg hT (Int.le_of_lt hI)
  have hreading := getTimeval_toNat hI h0 (by omega)
  have htimeout := toNat_ofInt hpos (by omega)
  rw [expiry, UInt64.toNat_add, Int.tdiv_eq_ediv_of_nonneg hT]
  omega

/-- The tick after the one in which the rounded sum falls starts no earlier than the sum itself. -/
theorem rounded_sum_le {x y : Int} :
    x + y ≤ interval * (x / interval + y / interval + 1) ↔ x % interval + y % interval ≤ interval := by
  have hx := Int.mul_ediv_add_emod x interval
  have hy := Int.mul_ediv_add_emod y interval
  rw [Int.mul_add, Int.mul_add, Int.mul_one]
  omega

/-! ## What is filed -/

theorem modify_keeps {a : Addr} {f : TimerItem F D → TimerItem F D} (e : s.modify a f = some s') :
    s'.log = s.log ∧ s'.lastTimeval = s.lastTimeval := by
  obtain ⟨it, -, rfl⟩ := Option.map_eq_some_iff.mp e
  exact ⟨rfl, rfl⟩

theorem internalAddTimerItem_log {a : Addr} {it : TimerItem F D} (hit : s.mem a = some it)
    (e : internalAddTimerItem s a = some s') : s'.log = .linked a it.timeval s.lastTimeval :: s.log := by
  simp only [internalAddTimerItem, hit, Option.bind_eq_bind, Option.bind_some] at e
  obtain ⟨s₁, e₁, e⟩ := Option.bind_eq_some_iff.mp e
  obtain ⟨hlog, hbase⟩ := modify_keeps e₁
  have hfiled : .linked a it.timeval s₁.lastTimeval :: s₁.log = .linked a it.timeval s.lastTimeval :: s.log := by
    rw [hlog, hbase]
  split at e
  · cases e
    exact hfiled
  · obtain ⟨s₂, e₂, e⟩ := Option.bind_eq_some_iff.mp e
    obtain ⟨s₃, e₃, e⟩ := Option.bind_eq_some_iff.mp e
    cases e
    exact (modify_keeps e₃).1.trans ((modify_keeps e₂).1.trans hfiled)

/-- `SetTimeout` files its item, in whatever state it is called. -/
theorem setTimeout_log {callback : F} {data : D} {id : UInt32}
    (e : setTimeout interval s callback timeout data tv = some (s', id)) :
    s'.log = .linked s.brk (expiry interval timeout tv) s.lastTimeval :: s.log := by
  obtain ⟨s₁, e₁, e⟩ := Option.bind_eq_some_iff.mp e
  cases e
  have hlog := internalAddTimerItem_log (if_pos rfl) e₁
  have hid : (insertId s₁ (s.lastTimerId + 1) s.brk).log = s₁.log := by
    unfold insertId
    split <;> rfl
  rw [hid, hlog]
  rfl

theorem delete_log {a : Addr} (e : s.delete a = some s') : s'.log = .freed a :: s.log := by
  obtain ⟨it, -, rfl⟩ := Option.map_eq_some_iff.mp e
  rfl

/-! ## Callbacks that do nothing -/

def idle : Env F D := fun _ _ _ => []

/-- Between `s` and `s'` nothing was updated or cleared. -/
def Quiet (s s' : TimerBase F D) : Prop := ∃ new, s'.log = new ++ s.log ∧ ∀ a, Untouched a new

theorem Quiet.refl (s : TimerBase F D) : Quiet s s := ⟨[], rfl, fun _ => untouched_nil⟩

theorem Quiet.trans {s₁ : TimerBase F D} (h : Quiet s s₁) (h' : Quiet s₁ s') : Quiet s s' := by
  obtain ⟨new, hnew, hu⟩ := h
  obtain ⟨new', hnew', hu'⟩ := h'
  refine ⟨new' ++ new, by rw [hnew', hnew, List.append_assoc], fun a => ?_⟩
  obtain ⟨hup, hcl⟩ := hu a
  obtain ⟨hup', hcl'⟩ := hu' a
  exact ⟨fun hm => (List.mem_append.mp hm).elim hup' hup, fun hm => (List.mem_append.mp hm).elim hcl' hcl⟩

theorem cascadeList_quiet : ∀ (n : Nat) (s : TimerBase F D) (o : Option Addr),
    cascadeList n s o = some s' → Quiet s s'
  | 0, s, none, e | n + 1, s, none, e => by
    cases e
    exact Quiet.refl _
  | n + 1, s, some a, e => by
    obtain ⟨it, -, e⟩ := Option.bind_eq_some_iff.mp e
    obtain ⟨s₁, e₁, e⟩ := Option.bind_eq_some_iff.mp e
    obtain ⟨s₂, e₂, e⟩ := Option.bind_eq_some_iff.mp e
    obtain ⟨it₁, hit, -⟩ := Option.bind_eq_some_iff.mp e₂
    have hlinked : Quiet s s₂ := by
      refine ⟨[.linked a it₁.timeval s₁.lastTimeval], ?_, fun x => untouched_linked.mpr untouched_nil⟩
      rw [internalAddTimerItem_log hit e₂, (modify_keeps e₁).1]
      rfl
    exact hlinked.trans (cascadeList_quiet n s₂ _ e)

theorem cascades_quiet : ∀ (ns : List (Fin 4)) (s : TimerBase F D), cascades s ns = some s' → Quiet s s'
  | [], s, e => by
    cases e
    exact Quiet.refl _
  | n :: ns, s, e => by
    obtain ⟨r, hr, e⟩ := Option.bind_eq_some_iff.mp e
    obtain ⟨s₁, e₁, hs₁⟩ := Option.bind_eq_some_iff.mp hr
    cases hs₁
    have hone : Quiet s s₁ := cascadeList_quiet _ (s.setVector _ none) _ e₁
    dsimp only at e
    split at e
    · cases e
      exact hone
    · exact hone.trans (cascades_quiet ns s₁ e)

theorem detach_quiet {o : Option Addr} (e : detach s = some (s', o)) : Quiet s s' := by
  simp only [detach, Option.bind_eq_bind] at e
  split at e
  · obtain ⟨s₁, e₁, e⟩ := Option.bind_eq_some_iff.mp e
    cases e
    have hcascaded : Quiet s s₁ := cascades_quiet _ s e₁
    exact hcascaded
  · cases e
    exact Quiet.refl _

theorem drain_quiet {tick : UInt64} : ∀ (n : Nat) (s : TimerBase F D) (o : Option Addr),
    drain interval idle tick n s o = some s' → Quiet s s'
  | 0, s, none, e | n + 1, s, none, e => by
    cases e
    exact Quiet.refl _
  | n + 1, s, some a, e => by
    obtain ⟨it, -, e⟩ := Option.bind_eq_some_iff.mp e
    obtain ⟨s₁, e₁, e⟩ := Option.bind_eq_some_iff.mp e
    obtain ⟨it₁, -, e⟩ := Option.bind_eq_some_iff.mp e
    obtain ⟨s₂, e₂, e⟩ := Option.bind_eq_some_iff.mp e
    obtain ⟨it₂, -, e₁⟩ := Option.bind_eq_some_iff.mp e₁
    have hs₁ : (s.eraseId it.timerId).emit (.invoked a tick) = s₁ := Option.some.inj e₁
    rw [← hs₁] at e₂
    have hfired : Quiet s s₂ := by
      refine ⟨[.freed a, .invoked a tick], delete_log e₂, fun x => ?_⟩
      simp
    exact hfired.trans (drain_quiet n s₂ _ e)

theorem checkLoop_quiet {now : UInt64} : ∀ (n : Nat) (s : TimerBase F D),
    checkLoop interval idle now n s = some s' → Quiet s s'
  | 0, s, e => by
    simp only [checkLoop] at e
    split at e
    · cases e
    · cases e
      exact Quiet.refl _
  | n + 1, s, e => by
    simp only [checkLoop] at e
    split at e
    · obtain ⟨s₁, e₁, e⟩ := Option.bind_eq_some_iff.mp e
      obtain ⟨r, hr, e₁⟩ := Option.bind_eq_some_iff.mp e₁
      exact (detach_quiet hr).trans ((drain_quiet _ _ _ e₁).trans (checkLoop_quiet n s₁ e))
    · cases e
      exact Quiet.refl _

/-! ## Steps -/

/-- The loop of `CheckTimer` stops at the clock. -/
theorem checkLoop_stops {now : UInt64} (hnow : now.toNat ≤ 2 ^ 63) :
    ∀ (n : Nat) (s : TimerBase F D) (ch : Chains) (due : Addr → Nat), Inv s ch none [] R due →
      s.lastTimeval.toNat ≤ now.toNat → checkLoop interval env now n s = some s' → s'.lastTimeval.toNat = now.toNat
  | n, s, ch, due, h, hle, e => by
    by_cases hlt : s.lastTimeval < now
    · have hlt' := UInt64.lt_iff_toNat_lt.mp hlt
      cases n with
      | zero =>
        rw [checkLoop, if_pos hlt] at e
        cases e
      | succ n =>
        obtain ⟨-, -, -, s₁, ch₁, due₁, -, -, -, e₁, hb₁, -, h₁, -⟩ := tick_spec interval env h (by omega)
        have hsucc : s₁.lastTimeval.toNat = s.lastTimeval.toNat + 1 := by
          rw [hb₁, UInt64.toNat_add, UInt64.toNat_one, Nat.mod_eq_of_lt (by omega)]
        rw [checkLoop, if_pos hlt, e₁, Option.bind_eq_bind, Option.bind_some] at e
        exact checkLoop_stops hnow n s₁ ch₁ due₁ h₁.idle (by omega) e
    · have hs : s = s' := by cases n <;> simpa [checkLoop, hlt] using e
      have hge := Nat.not_lt.mp fun h => hlt (UInt64.lt_iff_toNat_lt.mpr h)
      rw [← hs]
      exact Nat.le_antisymm hle hge

/-- A `CheckTimer` that does something leaves the base at the clock. -/
theorem checkTimer_stops (h : Inv s ch none [] R due) (hr : InRange interval tv)
    (e : checkTimer interval env s tv = some s') (hlog : s'.log ≠ s.log) :
    s'.lastTimeval.toNat = (getTimeval interval tv).toNat := by
  by_cases hle : s.lastTimeval.toNat ≤ (getTimeval interval tv).toNat
  · exact checkLoop_stops hr _ s ch due h hle e
  · have hnot : ¬s.lastTimeval < getTimeval interval tv := fun hlt =>
      hle (Nat.le_of_lt (UInt64.lt_iff_toNat_lt.mp hlt))
    have hzero : (getTimeval interval tv).toNat - s.lastTimeval.toNat = 0 := by omega
    have heq : checkTimer interval env s tv = some s := by
      simp only [checkTimer, hzero, checkLoop, hnot, if_false]
    rw [heq] at e
    cases e
    exact absurd rfl hlog

/-- What holds between the calls of a run. -/
def Clocked (s : TimerBase F D × Int) : Prop :=
  0 ≤ s.2 ∧ s.2 < 2 ^ 63 ∧ ∃ ch due, Inv s.1 ch none [] (fun _ _ => True) due

theorem clocked_inductive (hI : 0 < interval) : (clocked (F := F) (D := D) interval).Inductive Clocked where
  init := by
    intro s hs
    obtain ⟨tv, h0, hle, hlt, e⟩ := hs
    refine ⟨by omega, hlt, ?_⟩
    rw [e]
    exact ⟨_, _, inv_construct (inRange_of_millis hI h0 (by omega))⟩
  step := by
    intro s c s' h hs
    obtain ⟨c, env⟩ := c
    obtain ⟨h0, hlt, ch, due, h⟩ := h
    obtain ⟨hc, hlt', e⟩ := hs
    have hle : s.2 ≤ s'.2 ∧ c.InRange interval := by
      cases c with
      | op o =>
        refine ⟨?_, trivial⟩
        cases o with
        | setTimeout callback timeout data tv => exact Int.le_trans hc.1 hc.2
        | update id timeout tv => exact Int.le_trans hc.1 hc.2
        | clear id => exact hc
      | checkTimer tv =>
        obtain ⟨hlo, hhi, -⟩ := hc
        exact ⟨Int.le_trans hlo hhi, inRange_of_millis hI (by omega) (by omega)⟩
    obtain ⟨s₁, ch', due', e', h'⟩ := call_spec env h hle.2
    rw [e] at e'
    cases e'
    exact ⟨by omega, hlt', ch', due', h'⟩

/-! ## Early or not -/

/-- A callback runs after the tick of its expiry. -/
theorem invoked_after_expiry (h : Inv s ch none [] R due) (hr : InRange interval tv)
    (e : checkTimer interval env s tv = some s') {log : List Event} {a : Addr} {t L : UInt64}
    (hi : Invokes s s' (.linked a t L :: log) a) : t.toNat < (getTimeval interval tv).toNat := by
  obtain ⟨post, new, k, hpost, hu, hk, hnew, hk'⟩ := hi
  obtain ⟨s₁, ch', due', e₁, -, h'⟩ := checkTimer_spec env h hr
  rw [e] at e₁
  cases e₁
  have hne : s'.log ≠ s.log := by
    intro heq
    rw [heq] at hnew
    rw [List.self_eq_append_left.mp hnew] at hk'
    cases hk'
  rw [← checkTimer_stops h hr e hne]
  rcases h'.exact post a t L log hpost hu with ⟨hlt, -⟩ | ⟨-, hf, -⟩
  · omega
  · -- it has fired
    have hmem : k.toNat ∈ fires a post := List.mem_filterMap.mpr ⟨_, hk, if_pos rfl⟩
    rw [hf] at hmem
    cases hmem

theorem neverEarly_of (hI : 0 < interval) (hT : 0 ≤ timeout) (h0 : 0 ≤ millis tv) (h : millis tv + timeout < 2 ^ 63)
    (hround : millis tv % interval + timeout % interval ≤ interval) : NeverEarly interval timeout tv := by
  intro F D s s' now env s₀ s₁ callback data id hr hs hset hi
  obtain ⟨hpos, -, ch, due, hinv⟩ := (clocked_inductive hI).reachable s hr
  obtain ⟨⟨hlo, hhi, -⟩, hlt, e⟩ := hs
  rw [setTimeout_log hset] at hi
  have hnow : (0 : Int) ≤ millis now ∧ millis now < 2 ^ 63 := by omega
  have hafter := invoked_after_expiry hinv (inRange_of_millis hI hnow.1 hnow.2) e hi
  have hticks : millis tv / interval + timeout / interval + 1 ≤ millis now / interval := by
    rw [← expiry_toNat hI hT h0 h, ← getTimeval_toNat hI hnow.1 hnow.2]
    omega
  calc millis tv + timeout ≤ interval * (millis tv / interval + timeout / interval + 1) := rounded_sum_le.mpr hround
    _ ≤ interval * (millis now / interval) := Int.mul_le_mul_of_nonneg_left hticks (Int.le_of_lt hI)
    _ ≤ millis now := Int.mul_ediv_self_le (Int.ne_of_gt hI)

/-- A run that sets a callback and checks the timer as soon as the tick of the rounded sum is over. -/
theorem fires_at (hI : 0 < interval) (hT : 0 ≤ timeout) (h0 : 0 ≤ millis tv) (h : millis tv + timeout < 2 ^ 63)
    (now : Timeval) (hnow : millis now / interval = millis tv / interval + timeout / interval + 1)
    (hle : millis tv ≤ millis now) (hlt : millis now < 2 ^ 63) (hnever : NeverEarly interval timeout tv) :
    millis tv + timeout ≤ millis now := by
  let s := construct (F := Unit) (D := Unit) interval tv
  have hinit : (clocked interval).Reachable (s, millis tv) := .init ⟨tv, h0, Int.le_refl _, by omega, rfl⟩
  have hinv : Inv s (fun _ => []) none [] (fun _ _ => True) fun _ => 0 :=
    inv_construct (inRange_of_millis hI h0 (by omega))
  obtain ⟨s₁, e₁, -, hlog₁, -, -, -, hbase₁, -⟩ := setTimeout_spec hinv.linked interval () timeout () tv
  have hset : call interval idle s (.op (.setTimeout () timeout () tv)) = some s₁ := by
    rw [call, applyOp, e₁]
    rfl
  have hr : (clocked interval).Reachable (s₁, millis tv) :=
    .step hinit (show (clocked interval).step _ (.op (.setTimeout () timeout () tv), idle) _ from
      ⟨⟨Int.le_refl _, Int.le_refl _⟩, by omega, hset⟩)
  obtain ⟨-, -, ch, due, hinv₁⟩ := (clocked_inductive hI).reachable _ hr
  have hrange := @inRange_of_millis interval now hI (by omega) hlt
  obtain ⟨s', ch', due', e', hbase, h'⟩ := checkTimer_spec idle hinv₁ hrange
  obtain ⟨new, hnew, hu⟩ := checkLoop_quiet _ _ e'
  have hs : (clocked interval).step (s₁, millis tv) (.checkTimer now, idle) (s', millis now) :=
    ⟨⟨hle, Int.le_refl _, fun _ _ _ _ h => absurd h List.not_mem_nil⟩, hlt, e'⟩
  have hinvoked : ∃ k, .invoked s.brk k ∈ new := by
    rw [hlog₁] at hnew
    rcases h'.exact new s.brk _ _ _ hnew (hu s.brk) with ⟨-, hf⟩ | ⟨hwait, -⟩
    · obtain ⟨e, he, hk⟩ := List.mem_filterMap.mp (show _ ∈ fires s.brk new by rw [hf]; exact List.mem_singleton_self _)
      cases e with
      | invoked b k =>
        simp only [firedAt] at hk
        split at hk
        · next hb => exact ⟨k, hb ▸ he⟩
        · cases hk
      | linked | updated | cleared | freed => cases hk
    · -- the clock is past the tick
      have hexp := expiry_toNat hI hT h0 h
      have hclock := @getTimeval_toNat interval now hI (by omega) hlt
      have hstart := getTimeval_toNat hI h0 (show millis tv < 2 ^ 63 by omega)
      have hpos : 0 ≤ timeout / interval := Int.ediv_nonneg hT (Int.le_of_lt hI)
      have hle' := UInt64.le_iff_toNat_le.mp hbase
      have hs₀ : s.lastTimeval = getTimeval interval tv := rfl
      rw [hs₀] at hwait
      omega
  obtain ⟨k, hk⟩ := hinvoked
  exact hnever Unit Unit _ _ now _ s s₁ () () _ hr hs e₁ ⟨new, new, k, hnew, hu s.brk, hk, hnew, hk⟩

/-- No callback set at the reading `tv` runs before `timeout` has passed, exactly if the milliseconds that the two
divisions drop make up one `Interval` at most. -/
theorem early_iff (hI : 0 < interval) (hT : 0 ≤ timeout) (h0 : 0 ≤ millis tv) (h : millis tv + timeout < 2 ^ 63) :
    NeverEarly interval timeout tv ↔ millis tv % interval + timeout % interval ≤ interval := by
  refine ⟨fun hnever => ?_, neverEarly_of hI hT h0 h⟩
  by_contra hround
  have hearly := mt rounded_sum_le.mp hround
  let due : Int := interval * (millis tv / interval + timeout / interval + 1)
  have hmillis := millis_reading due
  have hticks : due / interval = millis tv / interval + timeout / interval + 1 :=
    Int.mul_ediv_cancel_left _ (Int.ne_of_gt hI)
  have hnext : millis tv < interval * (millis tv / interval) + interval := Int.lt_mul_ediv_self_add hI
  have hpos : 0 ≤ interval * (timeout / interval) :=
    Int.mul_nonneg (Int.le_of_lt hI) (Int.ediv_nonneg hT (Int.le_of_lt hI))
  have hle : millis tv ≤ due := by
    have hsplit : due = interval * (millis tv / interval) + interval * (timeout / interval) + interval := by
      show interval * (millis tv / interval + timeout / interval + 1) = _
      rw [Int.mul_add, Int.mul_add, Int.mul_one]
    omega
  have hfires := fires_at hI hT h0 h _ (by rw [hmillis, hticks]) (by omega) (by omega) hnever
  omega

/-- 9 and 20 drop 9 and 0 milliseconds. -/
theorem early_iff_even : NeverEarly 10 20 ⟨0, 9000⟩ :=
  (early_iff (by decide) (by decide) (by decide) (by decide)).mpr (by decide)

/-- Set at 9 ms for 19 ms, the callback runs at 20 ms, in tick 1. -/
theorem fires_early : ¬NeverEarly 10 19 ⟨0, 9000⟩ ∧ ∃ s, [Call.op (.setTimeout () 19 () ⟨0, 9000⟩),
    .checkTimer ⟨0, 20000⟩].foldlM (call 10 idle) (construct 10 ⟨0, 9000⟩) = some s ∧
    s.log = [.freed 0, .invoked 0 1, .linked 0 1 0] := by
  constructor
  · intro hnever
    have hdue := fires_at (by decide) (by decide) (by decide) (by decide) ⟨0, 20000⟩ (by decide) (by decide) (by decide)
      hnever
    exact absurd hdue (by decide)
  · obtain ⟨s, e⟩ := Option.isSome_iff_exists.mp (show ([Call.op (.setTimeout () 19 () ⟨0, 9000⟩),
      .checkTimer ⟨0, 20000⟩].foldlM (call 10 idle) (construct 10 ⟨0, 9000⟩)).isSome by rfl)
    exact ⟨s, e, value_of TimerBase.log e rfl⟩

end SimpleSvr.L2.Timer
