import SimpleSvr.L2Machine.TimerRun

/-!
# What the timer guarantees

* `timer_exact`: an item filed with expiry `t` at base `L` fires in tick
  `max t L`, once, and in no other, whatever the alignment of the base and
  however far `t` lies ahead; `CheckTimer` never gets stuck.
* `timer_rep`: the map and the five vectors describe the same items, and
  `Clear` and `Update` move the one item they name.
-/
namespace SimpleSvr.L2.Timer
open SimpleSvr.DList

variable {F D : Type} {interval : Int} {env : Env F D} {s : TimerBase F D}

/-! ## Exact expiry -/

/-- Every filing in the trace that was not updated or cleared since: if its
tick is past, the item fired once, in that tick; else it is alive and has not
fired. -/
def Exact (s : TimerBase F D) : Prop :=
  ∀ post a t L pre, s.log = post ++ .linked a t L :: pre → Untouched a post →
    (max t.toNat L.toNat < s.lastTimeval.toNat ∧ fires a post = [max t.toNat L.toNat]) ∨
    (s.lastTimeval.toNat ≤ max t.toNat L.toNat ∧ fires a post = [] ∧ (s.mem a).isSome)

theorem Inv.exact {ch : Chains} {R : Nat → Nat → Prop} {due : Addr → Nat}
    (h : Inv s ch none [] R due) : Exact s := by
  intro post a t L pre e hu
  rcases h.hist.outcome post a t L pre e hu with ⟨hk, hd, hf⟩ | ⟨-, hlt, hf⟩
  · obtain ⟨b, hb⟩ := hk.resolve_right List.not_mem_nil
    obtain ⟨_, _, -, hp⟩ := h.placed b a hb
    exact .inr ⟨hd ▸ hp.le, hf, h.linked.known_live (.inl ⟨b, hb⟩)⟩
  · exact .inl ⟨hlt, hf⟩

/-- The wheel is an exact schedule in every reachable state, and `CheckTimer`
brings the base up to the clock. -/
theorem timer_exact (hr : (lts interval env).Reachable s) :
    Exact s ∧ ∀ tv, InRange interval tv → ∃ s', checkTimer interval env s tv = some s' ∧
      getTimeval interval tv ≤ s'.lastTimeval ∧ Exact s' := by
  obtain ⟨ch, due, h⟩ := reachable_inv hr fun _ _ => True
  refine ⟨h.exact, fun tv htv => ?_⟩
  obtain ⟨s', ch', due', e, hle, h'⟩ := checkTimer_spec env h htv
  exact ⟨s', e, hle, h'.exact⟩

/-- The runs of the tests: two items, one callback that meddles. -/
def runFrom (env : Env Bool Unit) (calls : List (Call Bool Unit)) : Option (TimerBase Bool Unit) :=
  calls.foldlM (call 1 env) (construct 1 ⟨0, 3000⟩)

theorem runFrom_reachable {env : Env Bool Unit} {calls : List (Call Bool Unit)} {s : TimerBase Bool Unit}
    (hc : ∀ c ∈ calls, c.InRange 1) (e : runFrom env calls = some s) : (lts 1 env).Reachable s :=
  have steps : ∀ s c s', c.InRange 1 → call 1 env s c = some s' → (lts 1 env).step s c s' :=
    fun _ _ _ hc e => ⟨hc, e⟩
  .run steps calls hc (.init ⟨⟨0, 3000⟩, by decide, rfl⟩) e

/-- What a run computes is read off its final state. -/
theorem value_of {A B : Type} (g : A → B) {o : Option A} {s : A} {v : B} (e : o = some s)
    (h : o.map g = some v) : g s = v := by
  subst e; exact Option.some.inj h

/-- Filed at base 3 with expiries 5 and 1, and the clock moved on to 7. -/
theorem timer_exact_run : ∃ s, runFrom (fun _ _ _ => [])
      [.op (.setTimeout true 2 () ⟨0, 3000⟩), .op (.setTimeout false (-2) () ⟨0, 3000⟩),
        .checkTimer ⟨0, 7000⟩] = some s ∧
    s.log = [.freed 0, .invoked 0 5, .freed 1, .invoked 1 3, .linked 1 1 3, .linked 0 5 3] ∧ Exact s := by
  obtain ⟨s, e⟩ := Option.isSome_iff_exists.mp (show (runFrom (fun _ _ _ => [])
    [.op (.setTimeout true 2 () ⟨0, 3000⟩), .op (.setTimeout false (-2) () ⟨0, 3000⟩),
      .checkTimer ⟨0, 7000⟩]).isSome by rfl)
  refine ⟨s, e, ?_, (timer_exact (runFrom_reachable ?_ e)).1⟩
  · exact value_of TimerBase.log e rfl
  · decide

/-! ## Inside `CheckTimer` -/

/-- States in which `CheckTimer`'s loop starts an iteration. -/
inductive LoopHead (interval : Int) (env : Env F D) : TimerBase F D → Prop
  | enter {s : TimerBase F D} (hr : (lts interval env).Reachable s) : LoopHead interval env s
  | next {s s' : TimerBase F D} (h : LoopHead interval env s) (hlt : s.lastTimeval.toNat < 2 ^ 63)
      (e : tick interval env s = some s') : LoopHead interval env s'

theorem LoopHead.inv (h : LoopHead interval env s) (R : Nat → Nat → Prop) :
    ∃ ch due, Inv s ch none [] R due := by
  induction h with
  | enter hr => exact reachable_inv hr R
  | next _ hlt e ih =>
    obtain ⟨ch, due, h⟩ := ih
    obtain ⟨_, _, _, s', ch', due', _, _, _, e', _, _, h', _⟩ := tick_spec interval env h hlt
    rw [e] at e'
    cases e'
    exact ⟨ch', due', h'.idle⟩

/-- The buckets are the lists `ch`: `heads` and `seg` make the links of each
list mutually inverse, from a head without predecessor to a last item without
successor; every live item is in exactly one list, once, and knows its bucket. -/
structure Lists (s : TimerBase F D) (ch : Chains) : Prop where
  heads : ∀ b, s.vector b = (ch b).head?
  seg : ∀ b, Seg (links s) none (ch b) none
  nodup : ∀ b, (ch b).Nodup
  one : ∀ {a b b'}, a ∈ ch b → a ∈ ch b' → b = b'
  base : ∀ b, ∀ a ∈ ch b, bases s a = some (some b)
  live : ∀ a, (s.mem a).isSome ↔ ∃ b, a ∈ ch b

theorem Linked.lists {ch : Chains} (h : Linked s ch [] none) : Lists s ch where
  heads := h.heads
  seg := h.seg
  nodup := h.nodup
  one := h.unique
  base := h.base
  live a := by simpa using h.live a

/-! ## The representation -/

/-- The id map holds exactly the items of the lists, each under its own id. -/
structure Rep (s : TimerBase F D) (ch : Chains) : Prop extends Lists s ch where
  map : ∀ id a, s.timerDataMap id = some a ↔ (∃ b, a ∈ ch b) ∧ ∃ t, view s a = some (id, t)
  total : ∀ b, ∀ a ∈ ch b, ∃ id, s.timerDataMap id = some a

theorem rep_of {ch : Chains} (hl : Linked s ch [] none) (hi : Ids s (Known ch [])) (hb : s.brk < 2 ^ 32) :
    Rep s ch where
  toLists := hl.lists
  map id a := by
    refine ⟨fun hm => ?_, fun ⟨hk, t, hv⟩ => ?_⟩
    · obtain ⟨hk, hv⟩ := hi.known id a hm
      exact ⟨hk.resolve_right List.not_mem_nil, hv⟩
    · rw [hi.born a id t hv]
      exact hi.all hb a (.inl hk)
  total b a ha := ⟨_, hi.all hb a (.inl ⟨b, ha⟩)⟩

/-- After fewer than 2^32 `SetTimeout` calls the map and the vectors agree, and
`Clear` and `Update` of a pending id take exactly its item out of its bucket
(`Update` puts it in front of another). -/
theorem timer_rep (hr : (lts interval env).Reachable s) (hb : s.brk < 2 ^ 32) :
    ∃ ch, Rep s ch ∧ ∀ id a, s.timerDataMap id = some a →
      (∃ s', clear s id = some s' ∧ Rep s' (ch.erase a) ∧ s'.mem a = none ∧
        ∀ x, x ≠ a → view s' x = view s x) ∧
      ∀ timeout tv, ∃ s' b, update interval s id timeout tv = some s' ∧ Rep s' ((ch.erase a).push b a) ∧
        view s' a = some (id, expiry interval timeout tv) ∧ ∀ x, x ≠ a → view s' x = view s x := by
  obtain ⟨ch, due, h⟩ := reachable_inv hr fun _ _ => True
  have hl : Linked s ch ((none : Option Addr).toList ++ []) none := h.linked
  refine ⟨ch, rep_of h.linked h.ids hb, fun id a hm => ?_⟩
  obtain ⟨hk, t, hv⟩ := h.ids.known id a hm
  have hk := hk.resolve_right List.not_mem_nil
  constructor
  · obtain ⟨s', e, hl', hlog, hview, hmap, hstill⟩ := clear_spec h.linked (.inl hk) hm
    refine ⟨s', e, rep_of hl' (h.ids.op hl (.remove id a hm hlog hview hmap hstill))
      (by rw [hstill.brk]; exact hb), ?_, fun x hx => by rw [hview, if_neg hx]⟩
    simpa [view] using hview a
  · intro timeout tv
    obtain ⟨s', e, hl', hlog, hview, hmap, hstill⟩ :=
      update_spec h.linked (.inl hk) interval hm timeout tv hv
    exact ⟨s', _, e, rep_of hl' (h.ids.op hl (.move id a _ hm hlog hview hmap hstill))
      (by rw [hstill.brk]; exact hb), by rw [hview, if_pos rfl], fun x hx => by rw [hview, if_neg hx]⟩

/-- Two items in one bucket. -/
theorem timer_rep_run : ∃ s ch, runFrom (fun _ _ _ => [])
      [.op (.setTimeout false 5 () ⟨0, 3000⟩), .op (.setTimeout true 5 () ⟨0, 3000⟩)] = some s ∧ Rep s ch ∧
    ∃ s', clear s 1 = some s' ∧ Rep s' (ch.erase 0) := by
  obtain ⟨s, e⟩ := Option.isSome_iff_exists.mp (show (runFrom (fun _ _ _ => [])
    [.op (.setTimeout false 5 () ⟨0, 3000⟩), .op (.setTimeout true 5 () ⟨0, 3000⟩)]).isSome by rfl)
  have hb : s.brk = 2 := value_of TimerBase.brk e rfl
  have hm : s.timerDataMap 1 = some 0 := value_of (fun s => s.timerDataMap 1) e rfl
  obtain ⟨ch, hrep, hops⟩ := timer_rep (runFrom_reachable (by decide) e) (by rw [hb]; decide)
  obtain ⟨⟨s', e', h', -⟩, -⟩ := hops 1 0 hm
  exact ⟨s, ch, e, hrep, s', e', h'⟩

end SimpleSvr.L2.Timer
