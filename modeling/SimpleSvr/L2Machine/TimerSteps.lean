import SimpleSvr.L2Machine.TimerEarly

/-!
# `CheckTimer` step by step

`checkTimer` runs a call to its end, callbacks included. Here the same call is a
machine that stops wherever other code can look: at the `while`, in front of each
item of the cut list, and in each callback. Timer calls are made between two
calls of `CheckTimer` or in a callback.

`Stands` is the timer's invariant at each of these places. `advance_spec` and
`Stands.op` keep it, and `Stands.filed` reads off it what became of an item:
it waits for a tick that is not over, or was invoked in its tick.
`checkTimer_steps`: what `checkTimer` computes is a run of the machine.
-/
namespace SimpleSvr.L2.Timer

/-- Where a call of `CheckTimer` is. -/
inductive CheckPc where
  | returned
  | loop (now : UInt64)
  | walk (now tick : UInt64) (head : Option Addr)
  | callback (now tick : UInt64) (a : Addr)
  deriving DecidableEq

variable {F D : Type} {interval : Int} {env : Env F D} {s s' : TimerBase F D} {pc pc' : CheckPc}
  {now k : UInt64} {a : Addr} {post pre : List Event} {t L : UInt64} {o : Op F D}

/-- On to the next place: the test of the loop, the cut, the next item, or the end of a callback.
mirrors include/Timer.hpp:300-337 -/
def advance (s : TimerBase F D) : CheckPc → Option (TimerBase F D × CheckPc)
  | .returned => none
  | .loop now =>
    if s.lastTimeval < now then (detach s).map fun c => (c.1, .walk now s.lastTimeval c.2)
    else some (s, .returned)
  | .walk now _ none => some (s, .loop now)
  | .walk now k (some a) =>
    (s.mem a).map fun it => ((s.eraseId it.timerId).emit (.invoked a k), .callback now k a)
  | .callback now k a => do
    let it ← s.mem a
    let s ← s.delete a
    some (s, .walk now k it.nextItem)

/-- Timer calls come from outside or from a callback. -/
def CheckPc.Callable : CheckPc → Prop
  | .returned | .callback _ _ _ => True
  | _ => False

instance : DecidablePred CheckPc.Callable
  | .returned | .callback _ _ _ => .isTrue trivial
  | .loop _ | .walk _ _ _ => .isFalse id

/-! ## The invariant -/

/-- The iteration is that of tick `k`. -/
structure InTick (s : TimerBase F D) (now k : UInt64) : Prop where
  base : s.lastTimeval.toNat = k.toNat + 1
  due : k.toNat < now.toNat
  range : now.toNat ≤ 2 ^ 63

def Stands (s : TimerBase F D) : CheckPc → Prop
  | .returned => ∃ ch due, Inv s ch none [] (fun _ _ => True) due
  | .loop now => (s.lastTimeval.toNat ≤ now.toNat ∧ now.toNat ≤ 2 ^ 63) ∧
      ∃ ch due, Inv s ch none [] (fun _ _ => True) due
  | .walk now k head => InTick s now k ∧
      ∃ ch rest due, head = rest.head? ∧ Inv s ch none rest (fun _ d => d = k.toNat) due
  | .callback now k a => InTick s now k ∧
      ∃ ch rest due, Inv s ch (some a) rest (fun _ d => d = k.toNat) due

/-- The reading of the clock that the call goes by. -/
def CheckPc.reading : CheckPc → Option UInt64
  | .returned => none
  | .loop now | .walk now _ _ | .callback now _ _ => some now

/-- The first tick whose items may still wait. -/
def CheckPc.current (base : UInt64) : CheckPc → Nat
  | .returned | .loop _ => base.toNat
  | .walk _ k _ | .callback _ k _ => k.toNat

theorem advance_spec (h : Stands s pc) (hpc : pc ≠ .returned) :
    ∃ s' pc', advance s pc = some (s', pc') ∧ Stands s' pc' ∧ Quiet s s' := by
  cases pc with
  | returned => exact absurd rfl hpc
  | loop now =>
    obtain ⟨⟨hle, hr⟩, ch, due, h⟩ := h
    by_cases hlt : s.lastTimeval < now
    · have hlt' := UInt64.lt_iff_toNat_lt.mp hlt
      obtain ⟨s', ch', d, e, hb, h'⟩ := detach_spec h (by omega)
      have hsucc : s'.lastTimeval.toNat = s.lastTimeval.toNat + 1 := by
        rw [hb, UInt64.toNat_add, UInt64.toNat_one, Nat.mod_eq_of_lt (by omega)]
      refine ⟨s', .walk now s.lastTimeval d.head?, ?_, ⟨⟨hsucc, hlt', hr⟩, ch', d, due, rfl, h'⟩, detach_quiet e⟩
      simp only [advance, if_pos hlt, e, Option.map_some]
    · exact ⟨s, .returned, by simp only [advance, if_neg hlt], ⟨ch, due, h⟩, .refl s⟩
  | walk now k head =>
    obtain ⟨htick, ch, rest, due, rfl, h⟩ := h
    cases rest with
    | nil => exact ⟨s, .loop now, rfl, ⟨⟨by rw [htick.base]; exact htick.due, htick.range⟩, ch, due, h.idle⟩, .refl s⟩
    | cons a rest =>
      obtain ⟨it, hit, h'⟩ := h.enter (by rw [htick.base]; exact Nat.lt_succ_self _)
      refine ⟨(s.eraseId it.timerId).emit (.invoked a k), .callback now k a, ?_,
        ⟨⟨htick.base, htick.due, htick.range⟩, ch, rest, due, h'⟩,
        [.invoked a k], rfl, fun x => untouched_invoked.mpr untouched_nil⟩
      simp only [List.head?_cons, advance, hit, Option.map_some]
  | callback now k a =>
    obtain ⟨htick, ch, rest, due, h⟩ := h
    obtain ⟨it, s', hit, hnext, e, h', still, hlog⟩ := h.leave
    refine ⟨s', .walk now k it.nextItem, ?_,
      ⟨⟨by rw [still.lastTimeval, htick.base], htick.due, htick.range⟩, ch, rest, due, hnext, h'⟩,
      [.freed a], hlog, fun x => untouched_freed.mpr untouched_nil⟩
    simp only [advance, hit, Option.bind_eq_bind, Option.bind_some, e]

/-- No item's tick is passed over. -/
theorem advance_current (h : Stands s pc) (e : advance s pc = some (s', pc')) :
    pc.current s.lastTimeval ≤ pc'.current s'.lastTimeval := by
  cases pc with
  | returned => cases e
  | loop now =>
    simp only [advance] at e
    split at e
    · obtain ⟨c, hc, e⟩ := Option.map_eq_some_iff.mp e
      cases e
      exact Nat.le_refl _
    · cases e
      exact Nat.le_refl _
  | walk now k head =>
    obtain ⟨htick, -⟩ := h
    cases head with
    | none =>
      cases e
      show k.toNat ≤ s.lastTimeval.toNat
      rw [htick.base]
      exact Nat.le_succ _
    | some a =>
      obtain ⟨it, hit, e⟩ := Option.map_eq_some_iff.mp e
      cases e
      exact Nat.le_refl _
  | callback now k a =>
    obtain ⟨it, hit, e⟩ := Option.bind_eq_some_iff.mp e
    obtain ⟨s₁, e₁, e⟩ := Option.bind_eq_some_iff.mp e
    cases e
    exact Nat.le_refl _

/-- A call goes by one reading to its end, and ends when the base is there. -/
theorem advance_reading (e : advance s pc = some (s', pc')) :
    pc'.reading = pc.reading ∨
      (pc' = .returned ∧ s' = s ∧ ∃ now, pc = .loop now ∧ now.toNat ≤ s.lastTimeval.toNat) := by
  cases pc with
  | returned => cases e
  | loop now =>
    simp only [advance] at e
    split at e
    · obtain ⟨c, hc, e⟩ := Option.map_eq_some_iff.mp e
      cases e
      exact .inl rfl
    · next hlt =>
      cases e
      exact .inr ⟨rfl, rfl, now, rfl, Nat.not_lt.mp fun h => hlt (UInt64.lt_iff_toNat_lt.mpr h)⟩
  | walk now k head =>
    cases head with
    | none =>
      cases e
      exact .inl rfl
    | some a =>
      obtain ⟨it, hit, e⟩ := Option.map_eq_some_iff.mp e
      cases e
      exact .inl rfl
  | callback now k a =>
    obtain ⟨it, hit, e⟩ := Option.bind_eq_some_iff.mp e
    obtain ⟨s₁, e₁, e⟩ := Option.bind_eq_some_iff.mp e
    cases e
    exact .inl rfl

theorem Stands.base_le (h : Stands s pc) (hnow : pc.reading = some now) : s.lastTimeval.toNat ≤ now.toNat := by
  cases pc with
  | returned => cases hnow
  | loop now =>
    cases hnow
    exact h.1.1
  | walk now k head | callback now k a =>
    cases hnow
    rw [h.1.base]
    exact h.1.due

/-- The events of a call on the timer. -/
def opEvents (interval : Int) (s : TimerBase F D) : Op F D → List Event
  | .setTimeout _ timeout _ tv => [.linked s.brk (expiry interval timeout tv) s.lastTimeval]
  | .update id timeout tv =>
    (s.timerDataMap id).elim [] fun a => [.linked a (expiry interval timeout tv) s.lastTimeval, .updated a]
  | .clear id => (s.timerDataMap id).elim [] fun a => [.freed a, .cleared a]

theorem Inv.op_log {ch : Chains} {cur : Option Addr} {rest : List Addr} {R : Nat → Nat → Prop} {due : Addr → Nat}
    (h : Inv s ch cur rest R due) (hc : cur.isSome ∨ rest = []) (e : applyOp interval s o = some s') :
    s'.log = opEvents interval s o ++ s.log := by
  cases o with
  | setTimeout callback timeout data tv =>
    obtain ⟨⟨s₁, id⟩, e₁, e⟩ := Option.map_eq_some_iff.mp e
    cases e
    exact setTimeout_log e₁
  | update id timeout tv =>
    cases hm : s.timerDataMap id with
    | none =>
      simp only [applyOp, update, hm, Option.some.injEq] at e
      rw [← e, opEvents, hm]
      rfl
    | some a =>
      obtain ⟨hk, t, hv⟩ := h.ids.known _ _ hm
      obtain ⟨s₁, e₁, -, hlog, -⟩ := update_spec h.linked (known_tail hc hk) interval hm timeout tv hv
      cases e.symm.trans e₁
      rw [hlog, opEvents, hm]
      rfl
  | clear id =>
    cases hm : s.timerDataMap id with
    | none =>
      simp only [applyOp, clear, hm, Option.some.injEq] at e
      rw [← e, opEvents, hm]
      rfl
    | some a =>
      obtain ⟨hk, -⟩ := h.ids.known _ _ hm
      obtain ⟨s₁, e₁, -, hlog, -⟩ := clear_spec h.linked (known_tail hc hk) hm
      cases e.symm.trans e₁
      rw [hlog, opEvents, hm]
      rfl

/-- A call on the timer. -/
theorem Stands.op (h : Stands s pc) (hpc : pc.Callable) (interval : Int) (o : Op F D) :
    ∃ s', applyOp interval s o = some s' ∧ Stands s' pc ∧ s'.lastTimeval = s.lastTimeval ∧
      s'.log = opEvents interval s o ++ s.log := by
  have kept : ∀ {ch ch' : Chains} {rest rest' : List Addr} {s' : TimerBase F D},
      OpCase s s' ch rest ch' rest' → s'.lastTimeval = s.lastTimeval := by
    intro ch ch' rest rest' s' hop
    cases hop with
    | idle e => rw [e]
    | add t id hid hlog hview hmap hlast hbase hbrk => exact hbase
    | move id a t hm hlog hview hmap hstill => exact hstill.lastTimeval
    | remove id a hm hlog hview hmap hstill => exact hstill.lastTimeval
  cases pc with
  | returned =>
    obtain ⟨ch, due, h⟩ := h
    obtain ⟨s', ch', rest', due', e, h', hop⟩ := h.op (.inr rfl) interval o
    have hrest : rest' = [] := by cases hop <;> rfl
    subst hrest
    exact ⟨s', e, ⟨ch', due', h'⟩, kept hop, h.op_log (.inr rfl) e⟩
  | callback now k a =>
    obtain ⟨htick, ch, rest, due, h⟩ := h
    obtain ⟨s', ch', rest', due', e, h', hop⟩ := h.op (.inl rfl) interval o
    exact ⟨s', e, ⟨⟨by rw [kept hop, htick.base], htick.due, htick.range⟩, ch', rest', due', h'⟩, kept hop,
      h.op_log (.inl rfl) e⟩
  | loop | walk => exact hpc.elim

theorem Inv.base_le {ch : Chains} {cur : Option Addr} {rest : List Addr} {R : Nat → Nat → Prop} {due : Addr → Nat}
    (h : Inv s ch cur rest R due) {b : Bucket} (ha : a ∈ ch b) : s.lastTimeval.toNat ≤ due a := by
  obtain ⟨_, _, -, hp⟩ := h.placed b a ha
  exact hp.le

/-- In tick `n`, with what is due in it cut. -/
theorem Inv.filed {ch : Chains} {cur : Option Addr} {rest : List Addr} {R : Nat → Nat → Prop} {due : Addr → Nat}
    (h : Inv s ch cur rest R due) {n : Nat} (hn : n ≤ s.lastTimeval.toNat) (hrest : ∀ t d, R t d → n ≤ d)
    (hlog : s.log = post ++ .linked a t L :: pre) (hu : Untouched a post) :
    (n ≤ max t.toNat L.toNat ∧ fires a post = []) ∨
      (max t.toNat L.toNat < s.lastTimeval.toNat ∧ fires a post = [max t.toNat L.toNat]) := by
  rcases h.hist.outcome post a t L pre hlog hu with ⟨hk, hd, hf⟩ | ⟨-, hlt, hf⟩
  · refine .inl ⟨hd ▸ ?_, hf⟩
    rcases hk with ⟨b, hb⟩ | hr
    · exact Nat.le_trans hn (h.base_le hb)
    · obtain ⟨_, t', -, hd⟩ := h.wait a hr
      exact hrest t'.toNat (due a) hd
  · exact .inr ⟨hlt, hf⟩

/-- What became of an item that was not updated or cleared since it was filed. -/
theorem Stands.filed (h : Stands s pc) (hlog : s.log = post ++ .linked a t L :: pre) (hu : Untouched a post) :
    (pc.current s.lastTimeval ≤ max t.toNat L.toNat ∧ fires a post = []) ∨
      (max t.toNat L.toNat < s.lastTimeval.toNat ∧ fires a post = [max t.toNat L.toNat]) := by
  cases pc with
  | returned =>
    obtain ⟨ch, due, h⟩ := h
    exact h.idle.filed (Nat.le_refl _) (fun _ d (hd : s.lastTimeval.toNat ≤ d) => hd) hlog hu
  | loop now =>
    obtain ⟨-, ch, due, h⟩ := h
    exact h.idle.filed (Nat.le_refl _) (fun _ d (hd : s.lastTimeval.toNat ≤ d) => hd) hlog hu
  | walk now k head =>
    obtain ⟨htick, ch, rest, due, -, h⟩ := h
    exact h.filed (by rw [htick.base]; exact Nat.le_succ _) (fun _ _ hd => Nat.le_of_eq hd.symm) hlog hu
  | callback now k c =>
    obtain ⟨htick, ch, rest, due, h⟩ := h
    exact h.filed (by rw [htick.base]; exact Nat.le_succ _) (fun _ _ hd => Nat.le_of_eq hd.symm) hlog hu

/-- A callback that runs has been invoked. -/
theorem Stands.invoked (h : Stands s (.callback now k a)) (hlog : s.log = post ++ .linked a t L :: pre)
    (hu : Untouched a post) : max t.toNat L.toNat < s.lastTimeval.toNat := by
  obtain ⟨-, ch, rest, due, h⟩ := h
  rcases h.hist.outcome post a t L pre hlog hu with ⟨hk, -⟩ | ⟨-, hlt, -⟩
  · exact absurd hk (h.linked.cur_unknown rfl)
  · exact hlt

/-! ## The calls as the machine's runs -/

/-- Steps of the machine, with the calls that callbacks make. -/
inductive Steps (interval : Int) : TimerBase F D × CheckPc → TimerBase F D × CheckPc → Prop
  | refl {c : TimerBase F D × CheckPc} : Steps interval c c
  | advance {c c' : TimerBase F D × CheckPc} {s : TimerBase F D} {pc : CheckPc}
      (e : advance s pc = some c) (h : Steps interval c c') : Steps interval (s, pc) c'
  | op {c' : TimerBase F D × CheckPc} {s s' : TimerBase F D} {pc : CheckPc} {o : Op F D} (hpc : pc.Callable)
      (e : applyOp interval s o = some s') (h : Steps interval (s', pc) c') : Steps interval (s, pc) c'

theorem Steps.trans {c c' c'' : TimerBase F D × CheckPc} (h : Steps interval c c') (h' : Steps interval c' c'') :
    Steps interval c c'' := by
  induction h with
  | refl => exact h'
  | advance e _ ih => exact .advance e (ih h')
  | op hpc e _ ih => exact .op hpc e (ih h')

theorem runCalls_steps (hpc : pc.Callable) :
    ∀ (ops : List (Op F D)) (s : TimerBase F D), runCalls interval s ops = some s' → Steps interval (s, pc) (s', pc)
  | [], s, e => by
    cases e
    exact .refl
  | op :: ops, s, e => by
    obtain ⟨s₁, e₁, e⟩ := Option.bind_eq_some_iff.mp e
    exact .op hpc e₁ (runCalls_steps hpc ops s₁ e)

theorem drain_steps : ∀ (n : Nat) (s : TimerBase F D) (head : Option Addr),
    drain interval env k n s head = some s' → Steps interval (s, .walk now k head) (s', .loop now)
  | 0, s, none, e | n + 1, s, none, e => by
    cases e
    exact .advance rfl .refl
  | n + 1, s, some a, e => by
    obtain ⟨it, hit, e⟩ := Option.bind_eq_some_iff.mp e
    obtain ⟨s₁, e₁, e⟩ := Option.bind_eq_some_iff.mp e
    obtain ⟨it₁, hit₁, e⟩ := Option.bind_eq_some_iff.mp e
    obtain ⟨s₂, e₂, e⟩ := Option.bind_eq_some_iff.mp e
    obtain ⟨it', -, e₁⟩ := Option.bind_eq_some_iff.mp e₁
    have henter : advance s (.walk now k (some a)) =
        some ((s.eraseId it.timerId).emit (.invoked a k), .callback now k a) := by
      simp only [advance, hit, Option.map_some]
    have hleave : advance s₁ (.callback now k a) = some (s₂, .walk now k it₁.nextItem) := by
      simp only [advance, hit₁, Option.bind_eq_bind, Option.bind_some, e₂]
    have hcallback : Steps interval _ (s₁, .callback now k a) :=
      runCalls_steps (show CheckPc.Callable (.callback now k a) from trivial) _ _ e₁
    exact .advance henter (hcallback.trans (.advance hleave (drain_steps n s₂ _ e)))

theorem checkLoop_steps : ∀ (n : Nat) (s : TimerBase F D),
    checkLoop interval env now n s = some s' → Steps interval (s, .loop now) (s', .returned)
  | n, s, e => by
    by_cases hlt : s.lastTimeval < now
    · cases n with
      | zero =>
        rw [checkLoop, if_pos hlt] at e
        cases e
      | succ n =>
        rw [checkLoop, if_pos hlt] at e
        obtain ⟨s₁, e₁, e⟩ := Option.bind_eq_some_iff.mp e
        obtain ⟨c, hc, e₁⟩ := Option.bind_eq_some_iff.mp e₁
        have hcut : advance s (.loop now) = some (c.1, .walk now s.lastTimeval c.2) := by
          simp only [advance, if_pos hlt, hc, Option.map_some]
        exact .advance hcut ((drain_steps _ _ _ e₁).trans (checkLoop_steps n s₁ e))
    · have hs : s = s' := by cases n <;> simpa [checkLoop, hlt] using e
      rw [hs] at hlt ⊢
      exact .advance (by simp only [advance, if_neg hlt]) .refl

/-- What `CheckTimer` computes, with whatever its callbacks call, is a run of the machine. -/
theorem checkTimer_steps {tv : Timeval} (e : checkTimer interval env s tv = some s') :
    Steps interval (s, .loop (getTimeval interval tv)) (s', .returned) :=
  checkLoop_steps _ s e

end SimpleSvr.L2.Timer
