import SimpleSvr.L5App.ConnectionPoolRecords

/-!
# Idle timers belong to their connection

`Attach` clears the timer that the record names. No constructor sets that id, so
until a `Detach` set a timer it is arbitrary, and may be the id of a timer of
another record or pool. `Armed` excludes this of an `Attach`; then each waiting
record has the timer that its last `Detach` gave it (`timers_run`).
-/
namespace SimpleSvr.L5.ConnectionPool
open SimpleSvr.L2 (Pending)
open SimpleSvr.L4 (SockAddr)
open SimpleSvr.L4.LoadBalance (sockAddr)

/-- Between operations a waiting record has one pending timer, or none if it was detached to be kept. -/
structure Held (u : Run) : Prop where
  distinct : u.pool.timers.Distinct
  one : ∀ r info, u.pool.mem.find r = some info → info.active = false → u.timed r = true →
    ∃! id, (id, some r) ∈ u.pool.timers
  none : ∀ r info, u.pool.mem.find r = some info → info.active = false → u.timed r = false →
    ∀ id, (id, some r) ∉ u.pool.timers

/-- The only timer that is gone is one of the record that `Attach` returned. -/
def Spares (p : ConnectionPool) (a : ConnectionPool × Option Rec) : Prop :=
  ∀ e ∈ p.timers, e ∈ a.1.timers ∨ (e.2.isSome ∧ e.2 = a.2)

/-- The waiting record that `Attach` takes had a timer before, or its id is not that of a pending timer. -/
def Armed (u : Run) : Call → Prop
  | .attach addr _ => ∀ r ∈ (u.pool.waiting addr).head?, ∀ info ∈ u.pool.mem.find r,
    u.everTimed r = true ∨ ∀ e ∈ u.pool.timers, e.1 ≠ info.IdleConnTimerId
  | _ => True

instance (u : Run) : (c : Call) → Decidable (Armed u c)
  | .attach .. => inferInstanceAs (Decidable (∀ _ ∈ _, ∀ _ ∈ _, _ ∨ ∀ _ ∈ _, _))
  | .detach .. | .erase _ | .setMax _ | .setIdle _ | .fire .. | .otherSet _ | .otherDrop _ =>
    inferInstanceAs (Decidable True)

/-! ## The invariant -/

/-- What the timers say of a live record. -/
structure Own (u : Run) (r : Rec) (info : ConnectionInfo) : Prop where
  /-- an id that a `Detach` set is no other's -/
  alone : u.everTimed r = true →
    info.IdleConnTimerId ∈ u.used ∧ ∀ e ∈ u.pool.timers, e.1 = info.IdleConnTimerId → e.2 = some r
  pending : info.active = false → u.timed r = true → (info.IdleConnTimerId, some r) ∈ u.pool.timers
  none : info.active = false → u.timed r = false → ∀ id, (id, some r) ∉ u.pool.timers

structure Timed (u : Run) : Prop where
  inv : Inv u.pool u.used
  born : ∀ r, u.everTimed r = true → r < u.pool.brk
  ever : ∀ r, u.timed r = true → u.everTimed r = true
  own : ∀ r info, u.pool.mem.find r = some info → Own u r info

variable {u u' : Run} {p p' : ConnectionPool} {r : Rec} {info : ConnectionInfo} {addr : SockAddr}

/-- An operation that concerns one record keeps what the timers say of the others. -/
theorem Timed.change (h : Timed u) (hinv : Inv u'.pool u'.used) (r : Rec)
    (hmem : ∀ x, x ≠ r → u'.pool.mem.find x = u.pool.mem.find x)
    (hghost : ∀ x, x ≠ r → u'.everTimed x = u.everTimed x ∧ u'.timed x = u.timed x)
    (hused : ∀ id ∈ u.used, id ∈ u'.used) (hbrk : u.pool.brk ≤ u'.pool.brk)
    (htimers : ∀ id x, x ≠ r → ((id, some x) ∈ u'.pool.timers ↔ (id, some x) ∈ u.pool.timers))
    (hnew : ∀ e ∈ u'.pool.timers, e ∈ u.pool.timers ∨ e.1 ∉ u.used)
    (hborn : u'.everTimed r = true → r < u'.pool.brk)
    (hever : u'.timed r = true → u'.everTimed r = true)
    (hself : ∀ info, u'.pool.mem.find r = some info → Own u' r info) : Timed u' where
  inv := hinv
  born := by
    intro x hx
    by_cases hxr : x = r
    · subst hxr
      exact hborn hx
    · rw [(hghost x hxr).1] at hx
      exact Nat.lt_of_lt_of_le (h.born x hx) hbrk
  ever := by
    intro x hx
    by_cases hxr : x = r
    · subst hxr
      exact hever hx
    · obtain ⟨he, ht⟩ := hghost x hxr
      rw [ht] at hx
      rw [he]
      exact h.ever x hx
  own := by
    intro x i hx
    by_cases hxr : x = r
    · subst hxr
      exact hself i hx
    · rw [hmem x hxr] at hx
      have ho := h.own x i hx
      obtain ⟨hever, htimed⟩ := hghost x hxr
      refine ⟨fun he => ?_, fun ha ht => ?_, fun ha ht id hm => ?_⟩
      · rw [hever] at he
        obtain ⟨hid, halone⟩ := ho.alone he
        refine ⟨hused _ hid, fun e hm heq => ?_⟩
        rcases hnew e hm with hold | hfresh
        · exact halone e hold heq
        · exact absurd (heq ▸ hid) hfresh
      · rw [htimed] at ht
        exact (htimers _ x hxr).mpr (ho.pending ha ht)
      · rw [htimed] at ht
        exact ho.none ha ht id ((htimers id x hxr).mp hm)

/-- A live record's own timer is the only one of its id. -/
theorem Timed.clear_own (h : Timed u) (hr : u.pool.mem.find r = some info)
    (hf : u.everTimed r = true ∨ ∀ e ∈ u.pool.timers, e.1 ≠ info.IdleConnTimerId) :
    ∀ e ∈ u.pool.timers, e.2 ≠ some r → e ∈ u.pool.timers.clear info.IdleConnTimerId := by
  intro e he hne
  refine Pending.mem_clear.mpr ⟨he, fun heq => ?_⟩
  rcases hf with hever | hfree
  · exact hne (((h.own r info hr).alone hever).2 e he heq)
  · exact hfree e he heq

theorem timed_created (h : Timed u) (addr : SockAddr) (garbage : UInt32)
    (hroom : u.pool.m_ConnectionCount < u.pool.m_MaxConnection) :
    Timed { u with pool := u.pool.created addr garbage } := by
  apply h.change (inv_created h.inv addr garbage hroom) u.pool.brk
  · intro x hx
    exact created_find_ne u.pool addr garbage hx
  · intro x _
    exact ⟨rfl, rfl⟩
  · intro id hid
    exact hid
  · exact Nat.le_succ _
  · intro id x _
    exact Iff.rfl
  · intro e he
    exact .inl he
  · intro _
    exact Nat.lt_succ_self _
  · exact h.ever _
  · intro i hi
    have hself := created_find h.inv addr garbage
    obtain rfl := Option.some.inj (hself.symm.trans hi)
    have hact := ConnectionInfo.active_activate { stAddress := addr, IdleConnTimerId := garbage, dwFlags := 0 }
    refine ⟨fun he => absurd (h.born _ he) (Nat.lt_irrefl _), fun ha => ?_, fun ha => ?_⟩
    · rw [hact] at ha
      cases ha
    · rw [hact] at ha
      cases ha

theorem timed_reused {l : List Rec} (h : Timed u) (hl : u.pool.waiting addr = r :: l)
    (hr : u.pool.mem.find r = some info)
    (hf : u.everTimed r = true ∨ ∀ e ∈ u.pool.timers, e.1 ≠ info.IdleConnTimerId) :
    Timed { u with pool := u.pool.reused addr r info } := by
  have hclear := h.clear_own hr hf
  apply h.change (inv_reused h.inv hl hr) r
  · intro x hx
    exact OrdMap.find_modify_ne hx _
  · intro x _
    exact ⟨rfl, rfl⟩
  · intro id hid
    exact hid
  · exact Nat.le_refl _
  · intro id x hx
    constructor
    · intro hm
      exact (Pending.mem_clear.mp hm).1
    · intro hm
      exact hclear _ hm fun heq => hx (Option.some.inj heq)
  · intro e he
    exact .inl (Pending.mem_clear.mp he).1
  · exact h.born r
  · exact h.ever r
  · intro i hi
    obtain rfl := Option.some.inj ((reused_find hr addr).symm.trans hi)
    refine ⟨fun he => ?_, fun ha => ?_, fun ha => ?_⟩
    · obtain ⟨hid, halone⟩ := (h.own r info hr).alone he
      exact ⟨hid, fun e hm => halone e (Pending.mem_clear.mp hm).1⟩
    · rw [ConnectionInfo.active_activate] at ha
      cases ha
    · rw [ConnectionInfo.active_activate] at ha
      cases ha

theorem timed_withTimer {timerId : UInt32} (h : Timed u) (hinv : Inv p' (timerId :: u.used))
    (hr : u.pool.mem.find r = some info) (hid : timerId ∉ u.used) (hpark : Parked u.pool p' r info timerId)
    (hk : u.pool.m_IdleConnectionTimeout ≠ CONNECTIONPOOL_KEEPCONNECTION) : Timed (u.withTimer p' r timerId) := by
  have htimers := hpark.timers
  rw [if_pos hk] at htimers
  have hrest : (u.pool.rested info timerId).IdleConnTimerId = timerId := by rw [rested, if_pos hk]
  apply h.change hinv r
  · exact hpark.mem_ne
  · intro x hx
    simp only [Run.withTimer, beq_false_of_ne hx, Bool.false_or, and_self]
  · intro id hm
    exact List.mem_cons_of_mem _ hm
  · exact Nat.le_of_eq hpark.brk.symm
  · intro id x hx
    rw [Run.withTimer, htimers, List.mem_cons]
    apply or_iff_right
    intro heq
    exact hx (Option.some.inj (congrArg Prod.snd heq))
  · intro e hm
    rw [Run.withTimer, htimers] at hm
    rcases List.mem_cons.mp hm with rfl | hm
    · exact .inr hid
    · exact .inl hm
  · intro _
    exact hpark.brk.symm ▸ h.inv.born r info hr
  · intro _
    simp only [Run.withTimer, beq_self_eq_true, Bool.true_or]
  · intro i hi
    obtain rfl := Option.some.inj (hpark.mem.symm.trans hi)
    refine ⟨fun _ => ?_, fun _ _ => ?_, fun _ ht => ?_⟩
    · rw [hrest]
      refine ⟨List.mem_cons_self, fun e hm heq => ?_⟩
      rw [Run.withTimer, htimers] at hm
      rcases List.mem_cons.mp hm with rfl | hm
      · rfl
      · exact absurd (heq ▸ h.inv.known e hm) hid
    · rw [hrest, Run.withTimer, htimers]
      exact List.mem_cons_self
    · simp only [Run.withTimer, beq_self_eq_true, Bool.true_or, Bool.true_eq_false] at ht

theorem timed_withoutTimer {timerId : UInt32} (h : Timed u) (hinv : Inv p' u.used)
    (hr : u.pool.mem.find r = some info) (ha : info.active = true) (hpark : Parked u.pool p' r info timerId)
    (hk : ¬ u.pool.m_IdleConnectionTimeout ≠ CONNECTIONPOOL_KEEPCONNECTION) : Timed (u.withoutTimer p' r) := by
  have htimers := hpark.timers
  rw [if_neg hk] at htimers
  have hrest : u.pool.rested info timerId = info.deactivate := if_neg hk
  apply h.change hinv r
  · exact hpark.mem_ne
  · intro x hx
    simp only [Run.withoutTimer, bne_iff_ne.mpr hx, Bool.true_and, and_self]
  · intro id hm
    exact hm
  · exact Nat.le_of_eq hpark.brk.symm
  · intro id x _
    rw [Run.withoutTimer, htimers]
  · intro e hm
    rw [Run.withoutTimer, htimers] at hm
    exact .inl hm
  · intro _
    exact hpark.brk.symm ▸ h.inv.born r info hr
  · intro ht
    simp only [Run.withoutTimer, bne_self_eq_false, Bool.false_and, Bool.false_eq_true] at ht
  · intro i hi
    obtain rfl := Option.some.inj (hpark.mem.symm.trans hi)
    rw [hrest]
    refine ⟨fun he => ?_, fun _ ht => ?_, fun _ _ id hm => ?_⟩
    · obtain ⟨hmem, halone⟩ := (h.own r info hr).alone he
      exact ⟨hmem, fun e hm => halone e (htimers ▸ hm)⟩
    · simp only [Run.withoutTimer, bne_self_eq_false, Bool.false_and, Bool.false_eq_true] at ht
    · rw [Run.withoutTimer, htimers] at hm
      exact h.inv.not_owned hr ha hm

theorem timed_detach {timerId : UInt32} (h : Timed u) (hr : u.pool.mem.find r = some info)
    (hid : timerId ∉ u.used) (hp : u.pool.Detach r timerId = some p') : Timed (u.detached p' r timerId) := by
  have hinv := inv_detach h.inv hr hid hp
  cases ha : info.active with
  | false =>
    rw [Detach_idle hr ha] at hp
    cases hp
    rw [detached_idle hr ha]
    exact h
  | true =>
    obtain ⟨p₁, he, hpark⟩ := Detach_attached hr ha timerId
    obtain rfl := Option.some.inj (he.symm.trans hp)
    rw [detached_attached hr ha] at hinv ⊢
    split at hinv
    · next hk =>
      rw [if_pos hk]
      exact timed_withTimer h hinv hr hid hpark hk
    · next hk =>
      rw [if_neg hk]
      exact timed_withoutTimer h hinv hr ha hpark hk

/-- A record is deleted, with the timer `timerId` of its own if there is one. -/
theorem timed_removed (h : Timed u) (hinv : Inv p' u.used) (r : Rec) (hmem : p'.mem = u.pool.mem.erase r)
    (hbrk : p'.brk = u.pool.brk) (hsub : ∀ e ∈ p'.timers, e ∈ u.pool.timers)
    (hkeep : ∀ e ∈ u.pool.timers, e.2 ≠ some r → e ∈ p'.timers) : Timed { u with pool := p' } := by
  apply h.change hinv r
  · intro x hx
    exact (congrArg (OrdMap.find · x) hmem).trans (OrdMap.find_erase_ne hx)
  · intro x _
    exact ⟨rfl, rfl⟩
  · intro id hid
    exact hid
  · exact Nat.le_of_eq hbrk.symm
  · intro id x hx
    constructor
    · exact hsub _
    · intro hm
      exact hkeep _ hm fun heq => hx (Option.some.inj heq)
  · intro e he
    exact .inl (hsub e he)
  · intro he
    exact hbrk.symm ▸ h.born r he
  · exact h.ever r
  · intro i hi
    rw [hmem, OrdMap.find_erase] at hi
    cases hi

theorem timed_fire {timerId : UInt32} (h : Timed u) (hm : (timerId, some r) ∈ u.pool.timers)
    (hr : u.pool.mem.find r = some info) : Timed { u with pool := u.pool.expired timerId r info } := by
  apply timed_removed h (inv_expired h.inv hm hr) r rfl rfl
  · intro e he
    exact (Pending.mem_clear.mp he).1
  · intro e he hne
    refine Pending.mem_clear.mpr ⟨he, fun heq => hne ?_⟩
    have he' : (timerId, e.2) ∈ u.pool.timers := heq ▸ he
    exact h.inv.distinct.unique he' hm

/-- What others do to their own timers concerns no record. -/
theorem timed_other {timers : Pending (Option Rec)} {used : List UInt32} (h : Timed u)
    (hinv : Inv { u.pool with timers } used) (hused : ∀ id ∈ u.used, id ∈ used)
    (htimers : ∀ id x, (id, some x) ∈ timers ↔ (id, some x) ∈ u.pool.timers)
    (hnew : ∀ e ∈ timers, e ∈ u.pool.timers ∨ e.1 ∉ u.used) :
    Timed { u with used, pool := { u.pool with timers } } := by
  apply h.change hinv u.pool.brk
  · intro x _
    rfl
  · intro x _
    exact ⟨rfl, rfl⟩
  · exact hused
  · exact Nat.le_refl _
  · intro id x _
    exact htimers id x
  · exact hnew
  · exact h.born _
  · exact h.ever _
  · intro i hi
    rw [h.inv.brk_free] at hi
    cases hi

theorem timed_call {c : Call} (h : Timed u) (hf : Armed u c) (hc : enabled u c) (hs : call u c = some u') :
    Timed u' := by
  have hinv := inv_call h.inv hc hs
  cases c with
  | attach addr garbage =>
    obtain ⟨a, ha, rfl⟩ := Option.map_eq_some_iff.mp hs
    rcases Attach_cases h.inv addr garbage with ⟨he, -⟩ | ⟨he, -, hroom⟩ | ⟨r, l, info, hl, hr, he⟩
    · obtain rfl := Option.some.inj (he.symm.trans ha)
      exact h
    · obtain rfl := Option.some.inj (he.symm.trans ha)
      exact timed_created h addr garbage hroom
    · obtain rfl := Option.some.inj (he.symm.trans ha)
      exact timed_reused h hl hr (hf r (hl ▸ rfl) info hr)
  | detach r timerId =>
    obtain ⟨p', hp, rfl⟩ := Option.map_eq_some_iff.mp hs
    obtain ⟨info, hr⟩ := Option.isSome_iff_exists.mp hc.1
    exact timed_detach h hr hc.2 hp
  | erase r =>
    obtain ⟨p', hp, rfl⟩ := Option.map_eq_some_iff.mp hs
    obtain ⟨info, hr, ha⟩ := Option.map_eq_some_iff.mp hc
    obtain rfl := Option.some.inj ((Erase_eq hr).symm.trans hp)
    exact timed_removed h hinv r rfl rfl (fun _ he => he) (fun _ he _ => he)
  | fire timerId r =>
    obtain ⟨p', hp, rfl⟩ := Option.map_eq_some_iff.mp hs
    obtain ⟨info, l, hr, -⟩ := h.inv.pending hc
    obtain rfl := Option.some.inj ((fire_eq h.inv hc hr).symm.trans hp)
    exact timed_fire h hc hr
  | setMax max =>
    cases hs
    exact ⟨hinv, h.born, h.ever, fun r info hr => { h.own r info hr with }⟩
  | setIdle timeout =>
    cases hs
    exact ⟨hinv, h.born, h.ever, fun r info hr => { h.own r info hr with }⟩
  | otherSet timerId =>
    cases hs
    apply timed_other h hinv
    · intro id hid
      exact List.mem_cons_of_mem _ hid
    · intro id x
      rw [List.mem_cons]
      exact or_iff_right nofun
    · intro e he
      rcases List.mem_cons.mp he with rfl | he
      · exact .inr hc
      · exact .inl he
  | otherDrop timerId =>
    cases hs
    apply timed_other h hinv
    · intro id hid
      exact hid
    · intro id x
      rw [Pending.mem_clear, and_iff_left_iff_imp]
      intro hm heq
      have hm' : (timerId, some x) ∈ u.pool.timers := heq ▸ hm
      cases h.inv.distinct.unique hm' hc
    · intro e he
      exact .inl (Pending.mem_clear.mp he).1

theorem timed_inductive : (pooling.guard Armed).Inductive Timed where
  init := by
    intro u hu
    obtain ⟨max, timeout, rfl⟩ := hu
    exact ⟨inv_start max timeout, nofun, nofun, nofun⟩
  step := by
    intro u c u' h hs
    exact timed_call h hs.1 hs.2.1 hs.2.2

/-! ## Runs -/

theorem Timed.held (h : Timed u) : Held u where
  distinct := h.inv.distinct
  one := by
    intro r info hr ha ht
    refine ⟨info.IdleConnTimerId, (h.own r info hr).pending ha ht, fun id hm => ?_⟩
    obtain ⟨i, hi, -, hid⟩ := h.inv.owned id r hm
    rw [hr] at hi
    cases hi
    exact hid.symm
  none := fun r info hr => (h.own r info hr).none

/-- A pending timer was set by a `Detach`. -/
theorem Timed.ever_of_mem (h : Timed u) {id : UInt32} (hm : (id, some r) ∈ u.pool.timers) : u.everTimed r = true := by
  obtain ⟨info, hr, ha, -⟩ := h.inv.owned id r hm
  cases ht : u.timed r with
  | true => exact h.ever r ht
  | false => exact absurd hm ((h.own r info hr).none ha ht id)

theorem spares_iff (h : Timed u) {garbage : UInt32} {a : ConnectionPool × Option Rec}
    (ha : u.pool.Attach addr garbage = some a) : Spares u.pool a ↔ Armed u (.attach addr garbage) := by
  have hnone (hl : u.pool.waiting addr = []) : Armed u (.attach addr garbage) := by
    intro r hr
    rw [hl] at hr
    cases hr
  rcases Attach_cases h.inv addr garbage with ⟨he, hl⟩ | ⟨he, hl, -⟩ | ⟨r, l, info, hl, hr, he⟩
  · obtain rfl := Option.some.inj (he.symm.trans ha)
    exact iff_of_true (fun e he => .inl he) (hnone hl)
  · obtain rfl := Option.some.inj (he.symm.trans ha)
    exact iff_of_true (fun e he => .inl he) (hnone hl)
  · obtain rfl := Option.some.inj (he.symm.trans ha)
    constructor
    · intro hs x hx i hi
      rw [hl] at hx
      obtain rfl := Option.some.inj hx
      obtain rfl := Option.some.inj (hr.symm.trans hi)
      -- a timer that the id names is cleared, so it is the record's, and a `Detach` set it
      cases hever : u.everTimed r with
      | true => exact .inl rfl
      | false =>
        refine .inr fun e hm heq => ?_
        rcases hs e hm with hkept | ⟨-, hown⟩
        · exact (Pending.mem_clear.mp hkept).2 heq
        · have hown : e.2 = some r := hown
          have hm' : (e.1, some r) ∈ u.pool.timers := hown ▸ hm
          rw [h.ever_of_mem hm'] at hever
          cases hever
    · intro hf e hm
      by_cases hown : e.2 = some r
      · exact .inr ⟨hown ▸ rfl, hown⟩
      · exact .inl (h.clear_own hr (hf r (hl ▸ rfl) info hr) e hm hown)

/-- In a run whose `Attach`s are all armed the timers are as the `Detach`s set them; and an `Attach`
spares the timers of others when it is armed. -/
theorem timers_run {u : Run} (hr : (pooling.guard Armed).Reachable u) :
    Held u ∧ ∀ addr garbage a, u.pool.Attach addr garbage = some a →
      (Spares u.pool a ↔ Armed u (.attach addr garbage)) := by
  have h := timed_inductive.reachable u hr
  exact ⟨h.held, fun addr garbage a ha => spares_iff h ha⟩

/-- Detached with a timer, attached again, and detached to be kept. -/
def keptCalls : List Call :=
  [.attach (sockAddr 1 80) 9, .detach 0 8, .attach (sockAddr 1 80) 0, .setIdle 0, .detach 0 10]

theorem timers_run_kept : ∃ u, (pooling.guard Armed).Reachable u ∧ u.pool.waiting (sockAddr 1 80) = [0] ∧ Held u := by
  have hrun : (keptCalls.foldlM (LTS.checked (fun u c => Armed u c ∧ enabled u c) call) (start 2 5)).map
      (fun u => u.pool.waiting (sockAddr 1 80)) =
      some [0] := by decide
  obtain ⟨u, hu, hw⟩ := Option.map_eq_some_iff.mp hrun
  have hr : (pooling.guard Armed).Reachable u :=
    LTS.Reachable.checked_guard (fun _ _ _ => And.intro) keptCalls (.init ⟨2, 5, rfl⟩) hu
  exact ⟨u, hr, hw, (timers_run hr).1⟩

def strayCalls : List Call :=
  [.attach (sockAddr 1 80) 9, .attach (sockAddr 2 80) 0, .detach 0 8, .setIdle 5, .detach 1 9,
    .attach (sockAddr 1 80) 0]

/-- The first record is created where memory holds 9, and kept. The second is detached with the
timer 9. `Attach` of the first clears it. -/
theorem stray_cleared : ∃ u, pooling.Reachable u ∧ ¬Held u := by
  have hrun : (strayCalls.foldlM (LTS.checked enabled call) (start 2 0)).map
      (fun u => (u.pool.timers, u.timed 1, (u.pool.mem.find 1).map ConnectionInfo.active)) =
      some ([], true, some false) := by decide
  obtain ⟨u, hu, hv⟩ := Option.map_eq_some_iff.mp hrun
  obtain ⟨htimers, hv⟩ := Prod.mk.inj hv
  obtain ⟨htimed, hidle⟩ := Prod.mk.inj hv
  obtain ⟨info, hr, ha⟩ := Option.map_eq_some_iff.mp hidle
  refine ⟨u, LTS.Reachable.checked (fun _ _ _ => And.intro) _ (.init ⟨2, 0, rfl⟩) hu, fun hheld => ?_⟩
  obtain ⟨id, hm, -⟩ := hheld.one 1 info hr ha htimed
  rw [htimers] at hm
  cases hm

end SimpleSvr.L5.ConnectionPool
