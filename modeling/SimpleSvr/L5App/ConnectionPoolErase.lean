import SimpleSvr.L5App.ConnectionPoolRecords

/-!
# What `Erase` leaves behind

`Erase` frees the record and counts down. A record that is attached is in no
list and has no timer, so nothing is left of it (`erase_forgotten`). One that
waits stays in the list of its address and, as a rule, in the timer
(`erase_dangling`): the next `Attach` of that address reads it, and its timer
deletes it a second time.
-/
namespace SimpleSvr.L5.ConnectionPool
open SimpleSvr.L2 (Pending)
open SimpleSvr.L4 (SockAddr)

/-- The runs that go on from `u`. -/
def after (u : Run) : LTS Run Call := { pooling with init := (· = u) }

/-- No list has `r`, no pending timer names it, and `Attach` does not return it. -/
structure Unlinked (p : ConnectionPool) (r : Rec) : Prop where
  listed : ∀ a, r ∉ p.waiting a
  timed : ∀ id, (id, some r) ∉ p.timers
  returned : ∀ addr garbage, ∃ a, p.Attach addr garbage = some a ∧ a.2 ≠ some r

/-- Now and after any calls there is no reference to `r`, and what is called next
accesses no record that is gone. -/
def Forgotten (u : Run) (r : Rec) : Prop :=
  ∀ u', (after u).Reachable u' → u'.pool.Unlinked r ∧ ∀ c, enabled u' c → ∃ u'', call u' c = some u''

/-- `r` is freed. Its address is not handed out again. -/
def Gone (p : ConnectionPool) (r : Rec) : Prop := p.mem.find r = none ∧ r < p.brk

variable {p p' : ConnectionPool} {used : List UInt32} {r x : Rec} {info : ConnectionInfo} {u u' : Run}

theorem Gone.ne (h : Gone p r) (hx : p.mem.find x = some info) : r ≠ x := by
  rintro rfl
  rw [h.1] at hx
  cases hx

/-! ## A record that is gone stays gone -/

theorem gone_attach (h : Inv p used) (hg : Gone p r) (addr : SockAddr) (garbage : UInt32) :
    ∃ a, p.Attach addr garbage = some a ∧ Gone a.1 r ∧ a.2 ≠ some r := by
  rcases Attach_cases h addr garbage with ⟨he, -⟩ | ⟨he, -, -⟩ | ⟨x, l, info, -, hx, he⟩
  · exact ⟨_, he, hg, nofun⟩
  · have hne : r ≠ p.brk := Nat.ne_of_lt hg.2
    refine ⟨_, he, ⟨?_, Nat.lt_succ_of_lt hg.2⟩, fun heq => hne (Option.some.inj heq).symm⟩
    rw [created_find_ne p addr garbage hne]
    exact hg.1
  · have hne := hg.ne hx
    refine ⟨_, he, ⟨?_, hg.2⟩, fun heq => hne (Option.some.inj heq).symm⟩
    exact (OrdMap.find_modify_ne hne _).trans hg.1

theorem gone_detach (hg : Gone p r) (hx : p.mem.find x = some info) {timerId : UInt32}
    (he : p.Detach x timerId = some p') : Gone p' r := by
  cases ha : info.active with
  | false =>
    rw [Detach_idle hx ha] at he
    cases he
    exact hg
  | true =>
    obtain ⟨p₁, he₁, hpark⟩ := Detach_attached hx ha timerId
    cases he.symm.trans he₁
    rw [Gone, hpark.mem_ne r (hg.ne hx), hpark.brk]
    exact hg

theorem gone_erase (hg : Gone p r) (x : Rec) : (p.mem.erase x).find r = none ∧ r < p.brk := by
  refine ⟨?_, hg.2⟩
  by_cases hrx : r = x
  · rw [hrx, OrdMap.find_erase]
  · rw [OrdMap.find_erase_ne hrx]
    exact hg.1

theorem gone_call (h : Inv u.pool u.used) (hg : Gone u.pool r) {c : Call} (hc : enabled u c)
    (hs : call u c = some u') : Gone u'.pool r := by
  cases c with
  | attach addr garbage =>
    obtain ⟨a, ha, rfl⟩ := Option.map_eq_some_iff.mp hs
    obtain ⟨b, hb, hgone, -⟩ := gone_attach h hg addr garbage
    cases ha.symm.trans hb
    exact hgone
  | detach x timerId =>
    obtain ⟨p', hp, rfl⟩ := Option.map_eq_some_iff.mp hs
    obtain ⟨info, hx⟩ := Option.isSome_iff_exists.mp hc.1
    have hpool : (u.detached p' x timerId).pool = p' := by
      unfold Run.detached
      split
      · split <;> rfl
      · rfl
    rw [hpool]
    exact gone_detach hg hx hp
  | erase x =>
    obtain ⟨p', hp, rfl⟩ := Option.map_eq_some_iff.mp hs
    obtain ⟨info, hx, -⟩ := Option.map_eq_some_iff.mp hc
    cases (Erase_eq hx).symm.trans hp
    exact gone_erase hg x
  | fire timerId x =>
    obtain ⟨p', hp, rfl⟩ := Option.map_eq_some_iff.mp hs
    obtain ⟨info, -, hx, -⟩ := h.pending hc
    cases (fire_eq h hc hx).symm.trans hp
    exact gone_erase hg x
  | setMax max =>
    cases hs
    exact hg
  | setIdle timeout =>
    cases hs
    exact hg
  | otherSet timerId =>
    cases hs
    exact hg
  | otherDrop timerId =>
    cases hs
    exact hg

theorem Inv.unlinked (h : Inv p used) (hg : Gone p r) : p.Unlinked r where
  listed := by
    intro a hm
    obtain ⟨info, hf, -⟩ := (h.waits a r).mp hm
    exact hg.ne hf rfl
  timed := by
    intro id hm
    obtain ⟨info, hf, -⟩ := h.owned id r hm
    exact hg.ne hf rfl
  returned := by
    intro addr garbage
    obtain ⟨a, ha, -, hne⟩ := gone_attach h hg addr garbage
    exact ⟨a, ha, hne⟩

theorem gone_forgotten (h : Inv u.pool u.used) (hg : Gone u.pool r) : Forgotten u r := by
  have inv : (after u).Inductive fun u' => Inv u'.pool u'.used ∧ Gone u'.pool r := by
    constructor
    · rintro u' rfl
      exact ⟨h, hg⟩
    · intro u₁ c u₂ hi hs
      exact ⟨inv_call hi.1 hs.1 hs.2, gone_call hi.1 hi.2 hs.1 hs.2⟩
  intro u' hr
  obtain ⟨h', hg'⟩ := inv.reachable u' hr
  exact ⟨h'.unlinked hg', fun c hc => call_total h' hc⟩

/-! ## Erase -/

theorem gone_erased (h : Inv p used) (hr : p.mem.find r = some info) : Gone (p.erased r) r :=
  ⟨OrdMap.find_erase _ _, h.born r info hr⟩

/-- In every run, `Erase` of a live client leaves no reference to it behind exactly
when the client is attached. -/
theorem erase_forgotten (hu : pooling.Reachable u) (hr : u.pool.mem.find r = some info) :
    ∃ p', u.pool.Erase r = some p' ∧ (Forgotten { u with pool := p' } r ↔ info.active = true) := by
  have h := inv_inductive.reachable u hu
  refine ⟨_, Erase_eq hr, fun hf => ?_, fun ha => ?_⟩
  · cases ha : info.active with
    | true => rfl
    | false =>
      -- the list of its address has it still
      have hw : r ∈ u.pool.waiting info.stAddress := (h.waits _ r).mpr ⟨info, hr, rfl, ha⟩
      exact absurd hw ((hf _ (.init rfl)).1.listed info.stAddress)
  · exact gone_forgotten (inv_erased h hr ha) (gone_erased h hr)

/-- A client that was just attached. -/
theorem erase_forgotten_one : ∃ u p', pooling.Reachable u ∧ (u.pool.mem.find 0).map ConnectionInfo.active = some true ∧
    u.pool.Erase 0 = some p' ∧ Forgotten { u with pool := p' } 0 := by
  have hrun : ([.attach (L4.LoadBalance.sockAddr 1 80) 7].foldlM (LTS.checked enabled call) (start 1 5)).map
      (fun u => (u.pool.mem.find 0).map ConnectionInfo.active) = some (some true) := by decide
  obtain ⟨u, hu, ha⟩ := Option.map_eq_some_iff.mp hrun
  have hreach : pooling.Reachable u := LTS.Reachable.checked (fun _ _ _ => And.intro) _ (.init ⟨1, 5, rfl⟩) hu
  obtain ⟨info, hr, hact⟩ := Option.map_eq_some_iff.mp ha
  obtain ⟨p', he, hiff⟩ := erase_forgotten hreach hr
  exact ⟨u, p', hreach, ha, he, hiff.mpr hact⟩

/-- The client is detached, and its peer closes the idle connection: after `Erase`
the list and the timer still have the record, the next `Attach` of the address
reads it, and the timer deletes it again. -/
theorem erase_dangling : ∃ u p', pooling.Reachable u ∧ (u.pool.mem.find 0).map ConnectionInfo.active = some false ∧
    u.pool.Erase 0 = some p' ∧ 0 ∈ p'.waiting (L4.LoadBalance.sockAddr 1 80) ∧ (9, some 0) ∈ p'.timers ∧
    (p'.Attach (L4.LoadBalance.sockAddr 1 80) 7).isNone ∧ (p'.fire 9 0).isNone := by
  have hrun : ([.attach (L4.LoadBalance.sockAddr 1 80) 7, .detach 0 9].foldlM (LTS.checked enabled call)
      (start 1 5)).map (fun u => ((u.pool.mem.find 0).map ConnectionInfo.active,
        (u.pool.Erase 0).map fun p' => (p'.waiting (L4.LoadBalance.sockAddr 1 80), p'.timers,
          (p'.Attach (L4.LoadBalance.sockAddr 1 80) 7).isNone, (p'.fire 9 0).isNone))) =
      some (some false, some ([0], [(9, some 0)], true, true)) := by rfl
  obtain ⟨u, hu, hval⟩ := Option.map_eq_some_iff.mp hrun
  obtain ⟨ha, hp⟩ := Prod.mk.inj hval
  obtain ⟨p', he, hp⟩ := Option.map_eq_some_iff.mp hp
  simp only [Prod.mk.injEq] at hp
  obtain ⟨hw, ht, hattach, hfire⟩ := hp
  refine ⟨u, p', LTS.Reachable.checked (fun _ _ _ => And.intro) _ (.init ⟨1, 5, rfl⟩) hu, ha, he, ?_, ?_,
    hattach, hfire⟩
  · rw [hw]
    exact List.mem_singleton_self 0
  · rw [ht]
    exact List.mem_singleton_self _

end SimpleSvr.L5.ConnectionPool
