import SimpleSvr.L5App.ConnectionPool

/-!
# Every record is in one place

`Inv` holds in every run, whatever id a new record's timer field starts with: a
live record is attached, or waits once in the list of its own address; the
counter counts the records; and a pending idle timer names a record that waits
and knows the timer's id (`pool_run`).
-/
namespace SimpleSvr.L5.ConnectionPool
open SimpleSvr.L2 (Pending)
open SimpleSvr.L4 (SockAddr)

/-- A pool in use. The ghost fields: ids that `SetTimeout` returned so far, to this pool or another;
records of which a `Detach` set the timer; records of which the last `Detach` did. -/
structure Run where
  pool : ConnectionPool
  used : List UInt32 := []
  everTimed : Rec → Bool := fun _ => false
  timed : Rec → Bool := fun _ => false

inductive Call where
  | attach (addr : SockAddr) (garbage : UInt32)
  | detach (r : Rec) (timerId : UInt32)
  | erase (r : Rec)
  | setMax (max : UInt32)
  | setIdle (timeout : UInt32)
  | fire (timerId : UInt32) (r : Rec)
  | otherSet (timerId : UInt32)
  | otherDrop (timerId : UInt32)

/-- `Detach` of a client that is not freed, `Erase` of one that is attached, timers that are
pending, and ids that are new. -/
def enabled (u : Run) : Call → Prop
  | .detach r timerId => (u.pool.mem.find r).isSome ∧ timerId ∉ u.used
  | .erase r => (u.pool.mem.find r).map ConnectionInfo.active = some true
  | .fire timerId r => (timerId, some r) ∈ u.pool.timers
  | .otherSet timerId => timerId ∉ u.used
  | .otherDrop timerId => (timerId, none) ∈ u.pool.timers
  | _ => True

instance (u : Run) : (c : Call) → Decidable (enabled u c)
  | .detach .. => inferInstanceAs (Decidable (_ ∧ _))
  | .erase _ => inferInstanceAs (Decidable (_ = _))
  | .fire .. => inferInstanceAs (Decidable (_ ∈ _))
  | .otherSet _ => inferInstanceAs (Decidable (_ ∉ _))
  | .otherDrop _ => inferInstanceAs (Decidable (_ ∈ _))
  | .attach .. | .setMax _ | .setIdle _ => inferInstanceAs (Decidable True)

/-- An attached record is detached with a timer. -/
def Run.withTimer (u : Run) (p : ConnectionPool) (r : Rec) (timerId : UInt32) : Run where
  pool := p
  used := timerId :: u.used
  everTimed x := x == r || u.everTimed x
  timed x := x == r || u.timed x

/-- An attached record is detached to be kept. -/
def Run.withoutTimer (u : Run) (p : ConnectionPool) (r : Rec) : Run :=
  { u with pool := p, timed := fun x => x != r && u.timed x }

/-- A `Detach` that is repeated sets nothing. -/
def Run.detached (u : Run) (p : ConnectionPool) (r : Rec) (timerId : UInt32) : Run :=
  if ((u.pool.mem.find r).map ConnectionInfo.active).getD false then
    if u.pool.m_IdleConnectionTimeout ≠ CONNECTIONPOOL_KEEPCONNECTION then u.withTimer p r timerId
    else u.withoutTimer p r
  else { u with pool := p }

def call (u : Run) : Call → Option Run
  | .attach addr garbage => (u.pool.Attach addr garbage).map fun a => { u with pool := a.1 }
  | .detach r timerId => (u.pool.Detach r timerId).map fun p => u.detached p r timerId
  | .erase r => (u.pool.Erase r).map fun p => { u with pool := p }
  | .setMax max => some { u with pool := u.pool.SetMaxConnection max }
  | .setIdle timeout => some { u with pool := u.pool.SetIdleTimeout timeout }
  | .fire timerId r => (u.pool.fire timerId r).map fun p => { u with pool := p }
  | .otherSet timerId =>
    some { u with used := timerId :: u.used, pool := { u.pool with timers := (timerId, none) :: u.pool.timers } }
  | .otherDrop timerId => some { u with pool := { u.pool with timers := u.pool.timers.clear timerId } }

def start (max timeout : UInt32) : Run := { pool := { m_MaxConnection := max, m_IdleConnectionTimeout := timeout } }

/-- Any calls on one pool, with the timers of others beside its own. -/
def pooling : LTS Run Call where
  init u := ∃ max timeout, u = start max timeout
  step u c u' := enabled u c ∧ call u c = some u'

/-! ## The invariant -/

/-- The records in the list of an address. -/
def waiting (p : ConnectionPool) (a : SockAddr) : List Rec := (p.m_stConnectionMap.find a).getD []

/-- A record is live and waits for its address. -/
def Idle (p : ConnectionPool) (a : SockAddr) (r : Rec) : Prop :=
  ∃ info, p.mem.find r = some info ∧ info.stAddress = a ∧ info.active = false

/-- `used` are the ids that were ever given. -/
structure Inv (p : ConnectionPool) (used : List UInt32) : Prop where
  count : p.m_ConnectionCount.toNat = p.mem.entries.length
  born : ∀ r info, p.mem.find r = some info → r < p.brk
  nodup : ∀ a, (p.waiting a).Nodup
  waits : ∀ a r, r ∈ p.waiting a ↔ p.Idle a r
  distinct : p.timers.Distinct
  known : ∀ e ∈ p.timers, e.1 ∈ used
  /-- a pending timer is the one its record names -/
  owned : ∀ id r, (id, some r) ∈ p.timers →
    ∃ info, p.mem.find r = some info ∧ info.active = false ∧ info.IdleConnTimerId = id

variable {p p' : ConnectionPool} {used used' : List UInt32} {r : Rec} {info : ConnectionInfo} {addr : SockAddr}

/-- An attached record is in no list. -/
theorem Inv.not_listed (h : Inv p used) (hr : p.mem.find r = some info) (ha : info.active = true) (a : SockAddr) :
    r ∉ p.waiting a := by
  intro hm
  obtain ⟨info', hr', -, ha'⟩ := (h.waits a r).mp hm
  rw [hr] at hr'
  cases hr'
  rw [ha] at ha'
  cases ha'

/-- An attached record has no pending timer. -/
theorem Inv.not_owned (h : Inv p used) (hr : p.mem.find r = some info) (ha : info.active = true) {id : UInt32} :
    (id, some r) ∉ p.timers := by
  intro hm
  obtain ⟨info', hr', ha', -⟩ := h.owned id r hm
  rw [hr] at hr'
  cases hr'
  rw [ha] at ha'
  cases ha'

/-- A new id can be added. -/
theorem Inv.fresh (h : Inv p used) {timerId : UInt32} (hid : timerId ∉ used) (d : Option Rec) :
    Pending.Distinct ((timerId, d) :: p.timers) := by
  apply h.distinct.set
  intro e he heq
  exact hid (heq ▸ h.known e he)

/-- An operation that concerns one record keeps what the invariant says of the others. -/
theorem Inv.change (h : Inv p used) (r : Rec) (hcount : p'.m_ConnectionCount.toNat = p'.mem.entries.length)
    (hmem : ∀ x, x ≠ r → p'.mem.find x = p.mem.find x)
    (hbrk : p.brk ≤ p'.brk) (hborn : ∀ info, p'.mem.find r = some info → r < p'.brk)
    (hnodup : ∀ a, (p'.waiting a).Nodup)
    (hlist : ∀ a x, x ≠ r → (x ∈ p'.waiting a ↔ x ∈ p.waiting a))
    (hself : ∀ a, r ∈ p'.waiting a ↔ p'.Idle a r)
    (hdistinct : p'.timers.Distinct) (hknown : ∀ e ∈ p'.timers, e.1 ∈ used')
    (htimers : ∀ id x, x ≠ r → (id, some x) ∈ p'.timers → (id, some x) ∈ p.timers)
    (howned : ∀ id, (id, some r) ∈ p'.timers →
      ∃ info, p'.mem.find r = some info ∧ info.active = false ∧ info.IdleConnTimerId = id) :
    Inv p' used' where
  count := hcount
  born := by
    intro x info hx
    by_cases hxr : x = r
    · subst hxr
      exact hborn info hx
    · rw [hmem x hxr] at hx
      exact Nat.lt_of_lt_of_le (h.born x info hx) hbrk
  nodup := hnodup
  waits := by
    intro a x
    by_cases hxr : x = r
    · subst hxr
      exact hself a
    · rw [hlist a x hxr, h.waits, Idle, Idle, hmem x hxr]
  distinct := hdistinct
  known := hknown
  owned := by
    intro id x hx
    by_cases hxr : x = r
    · subst hxr
      exact howned id hx
    · rw [hmem x hxr]
      exact h.owned id x (htimers id x hxr hx)

/-! ## Attach -/

/-- The pool with a new attached record. -/
def created (p : ConnectionPool) (addr : SockAddr) (garbage : UInt32) : ConnectionPool :=
  { p with
    mem := (p.mem.insert p.brk { stAddress := addr, IdleConnTimerId := garbage, dwFlags := 0 }).modify p.brk
      ConnectionInfo.activate
    brk := p.brk + 1
    m_ConnectionCount := p.m_ConnectionCount + 1 }

theorem attachNew_eq (p : ConnectionPool) (addr : SockAddr) (garbage : UInt32) :
    p.attachNew addr garbage =
      if p.m_ConnectionCount ≥ p.m_MaxConnection then (p, none) else (p.created addr garbage, some p.brk) := by
  by_cases hfull : p.m_ConnectionCount ≥ p.m_MaxConnection
  · rw [attachNew, NewConnInfo, if_pos hfull, if_pos hfull]
  · rw [attachNew, NewConnInfo, if_neg hfull, if_neg hfull]
    rfl

theorem Inv.brk_free (h : Inv p used) : p.mem.find p.brk = none := by
  cases hf : p.mem.find p.brk with
  | none => rfl
  | some info => exact absurd (h.born _ _ hf) (Nat.lt_irrefl _)

theorem created_find (h : Inv p used) (addr : SockAddr) (garbage : UInt32) :
    (p.created addr garbage).mem.find p.brk =
      some (ConnectionInfo.activate { stAddress := addr, IdleConnTimerId := garbage, dwFlags := 0 }) := by
  rw [created, OrdMap.find_modify, OrdMap.find_insert, h.brk_free]
  rfl

theorem created_find_ne (p : ConnectionPool) (addr : SockAddr) (garbage : UInt32) (hr : r ≠ p.brk) :
    (p.created addr garbage).mem.find r = p.mem.find r := by
  rw [created, OrdMap.find_modify_ne hr, OrdMap.find_insert_ne hr]

theorem inv_created (h : Inv p used) (addr : SockAddr) (garbage : UInt32)
    (hlt : p.m_ConnectionCount < p.m_MaxConnection) : Inv (p.created addr garbage) used := by
  have hself := created_find h addr garbage
  have hnone (a : SockAddr) : p.brk ∉ p.waiting a := by
    intro hm
    obtain ⟨info, hf, -⟩ := (h.waits a _).mp hm
    rw [h.brk_free] at hf
    cases hf
  apply h.change p.brk
  · have hlen : (p.created addr garbage).mem.entries.length = p.mem.entries.length + 1 :=
      (OrdMap.length_mapVals _ _).trans (OrdMap.length_insert h.brk_free _)
    have hcount : (p.created addr garbage).m_ConnectionCount = p.m_ConnectionCount + 1 := rfl
    have hmax := p.m_MaxConnection.toNat_lt
    have h1 : (1 : UInt32).toNat = 1 := rfl
    have hc := h.count
    rw [UInt32.lt_iff_toNat_lt] at hlt
    rw [hlen, hcount, UInt32.toNat_add, h1]
    omega
  · intro x hx
    exact created_find_ne p addr garbage hx
  · exact Nat.le_succ _
  · intro _ _
    exact Nat.lt_succ_self _
  · exact h.nodup
  · intro a x _
    exact Iff.rfl
  · intro a
    apply iff_of_false (hnone a)
    intro hidle
    obtain ⟨info, hf, -, hact⟩ := hidle
    rw [hself] at hf
    cases hf
    rw [ConnectionInfo.active_activate] at hact
    cases hact
  · exact h.distinct
  · exact h.known
  · intro id x _ hm
    exact hm
  · intro id hm
    obtain ⟨info, hf, -⟩ := h.owned id _ hm
    rw [h.brk_free] at hf
    cases hf

/-- The pool that hands out the waiting record `r`. -/
def reused (p : ConnectionPool) (addr : SockAddr) (r : Rec) (info : ConnectionInfo) : ConnectionPool :=
  { p with
    m_stConnectionMap := p.m_stConnectionMap.modify addr List.tail
    timers := p.timers.clear info.IdleConnTimerId
    mem := p.mem.modify r ConnectionInfo.activate }

theorem reused_find (hr : p.mem.find r = some info) (addr : SockAddr) :
    (p.reused addr r info).mem.find r = some info.activate := by
  rw [reused, OrdMap.find_modify, hr]
  rfl

theorem reused_waiting (p : ConnectionPool) (addr : SockAddr) (r : Rec) (info : ConnectionInfo) :
    (p.reused addr r info).waiting addr = (p.waiting addr).tail := by
  rw [waiting, waiting, reused, OrdMap.find_modify]
  cases p.m_stConnectionMap.find addr <;> rfl

theorem reused_waiting_ne (r : Rec) (info : ConnectionInfo) {a : SockAddr} (ha : a ≠ addr) :
    (p.reused addr r info).waiting a = p.waiting a := by
  rw [waiting, waiting, reused, OrdMap.find_modify_ne ha]

theorem inv_reused {l : List Rec} (h : Inv p used) (hl : p.waiting addr = r :: l)
    (hr : p.mem.find r = some info) : Inv (p.reused addr r info) used := by
  have hself := reused_find hr addr
  have hwait := reused_waiting p addr r info
  rw [hl, List.tail_cons] at hwait
  have hnd : r ∉ l ∧ l.Nodup := List.nodup_cons.mp (hl ▸ h.nodup addr)
  have hrest (a : SockAddr) : r ∉ (p.reused addr r info).waiting a := by
    by_cases ha : a = addr
    · rw [ha, hwait]
      exact hnd.1
    · rw [reused_waiting_ne r info ha, h.waits]
      intro hidle
      obtain ⟨i, hi, hia, -⟩ := hidle
      obtain ⟨j, hj, hja, -⟩ := (h.waits addr r).mp (hl ▸ List.mem_cons_self)
      rw [hi] at hj
      cases hj
      exact ha (hia.symm.trans hja)
  apply h.change r
  · exact h.count.trans (OrdMap.length_mapVals _ _).symm
  · intro x hx
    exact OrdMap.find_modify_ne hx _
  · exact Nat.le_refl _
  · intro _ _
    exact h.born r info hr
  · intro a
    by_cases ha : a = addr
    · rw [ha, hwait]
      exact hnd.2
    · rw [reused_waiting_ne r info ha]
      exact h.nodup a
  · intro a x hx
    by_cases ha : a = addr
    · rw [ha, hwait, hl, List.mem_cons, or_iff_right hx]
    · rw [reused_waiting_ne r info ha]
  · intro a
    apply iff_of_false (hrest a)
    intro hidle
    obtain ⟨i, hi, -, hact⟩ := hidle
    rw [hself] at hi
    cases hi
    rw [ConnectionInfo.active_activate] at hact
    cases hact
  · exact h.distinct.clear _
  · intro e he
    exact h.known e (Pending.mem_clear.mp he).1
  · intro id x _ hm
    exact (Pending.mem_clear.mp hm).1
  · intro id hm
    obtain ⟨hm, hne⟩ := Pending.mem_clear.mp hm
    obtain ⟨i, hi, -, hid⟩ := h.owned id r hm
    rw [hr] at hi
    cases hi
    exact absurd hid.symm hne

/-- What `Attach` does: it fails, creates a record, or takes the first of the address's list. -/
theorem Attach_cases (h : Inv p used) (addr : SockAddr) (garbage : UInt32) :
    (p.Attach addr garbage = some (p, none) ∧ p.waiting addr = []) ∨
    (p.Attach addr garbage = some (p.created addr garbage, some p.brk) ∧ p.waiting addr = [] ∧
      p.m_ConnectionCount < p.m_MaxConnection) ∨
    ∃ r l info, p.waiting addr = r :: l ∧ p.mem.find r = some info ∧
      p.Attach addr garbage = some (p.reused addr r info, some r) := by
  have hnew (hl : p.waiting addr = []) (he : p.Attach addr garbage = some (p.attachNew addr garbage)) :
      (p.Attach addr garbage = some (p, none) ∧ p.waiting addr = []) ∨
      (p.Attach addr garbage = some (p.created addr garbage, some p.brk) ∧ p.waiting addr = [] ∧
        p.m_ConnectionCount < p.m_MaxConnection) := by
    rw [he, attachNew_eq]
    split
    · exact .inl ⟨rfl, hl⟩
    · next hroom => exact .inr ⟨rfl, hl, UInt32.not_le.mp hroom⟩
  cases hl : p.m_stConnectionMap.find addr with
  | none =>
    rw [← or_assoc]
    exact .inl (hnew (by rw [waiting, hl]; rfl) (by rw [Attach, hl]))
  | some l =>
    have hw : p.waiting addr = l := by rw [waiting, hl, Option.getD_some]
    cases l with
    | nil =>
      rw [← or_assoc]
      exact .inl (hnew hw (by rw [Attach, hl]))
    | cons r l =>
      obtain ⟨info, hr, -⟩ := (h.waits addr r).mp (hw ▸ List.mem_cons_self)
      refine .inr (.inr ⟨r, l, info, hw, hr, ?_⟩)
      rw [Attach, hl]
      simp only [hr]
      rfl

/-! ## Detach -/

/-- The record of a client that is detached. -/
def rested (p : ConnectionPool) (info : ConnectionInfo) (timerId : UInt32) : ConnectionInfo :=
  if p.m_IdleConnectionTimeout ≠ CONNECTIONPOOL_KEEPCONNECTION then
    { info.deactivate with IdleConnTimerId := timerId }
  else info.deactivate

/-- `p'` is `p` after the attached record `r` is put first in the list of its address. -/
structure Parked (p p' : ConnectionPool) (r : Rec) (info : ConnectionInfo) (timerId : UInt32) : Prop where
  count : p'.m_ConnectionCount = p.m_ConnectionCount
  brk : p'.brk = p.brk
  length : p'.mem.entries.length = p.mem.entries.length
  mem : p'.mem.find r = some (p.rested info timerId)
  mem_ne : ∀ x, x ≠ r → p'.mem.find x = p.mem.find x
  waiting : p'.waiting info.stAddress = r :: p.waiting info.stAddress
  waiting_ne : ∀ a, a ≠ info.stAddress → p'.waiting a = p.waiting a
  timers : p'.timers =
    if p.m_IdleConnectionTimeout ≠ CONNECTIONPOOL_KEEPCONNECTION then (timerId, some r) :: p.timers else p.timers

theorem rested_stAddress (p : ConnectionPool) (info : ConnectionInfo) (timerId : UInt32) :
    (p.rested info timerId).stAddress = info.stAddress := by
  rw [rested]
  split <;> rfl

theorem rested_active (p : ConnectionPool) (info : ConnectionInfo) (timerId : UInt32) :
    (p.rested info timerId).active = false := by
  rw [rested]
  split <;> exact info.active_deactivate

/-- What `pushIdle` leaves as it is. -/
theorem pushIdle_frame (p : ConnectionPool) (addr : SockAddr) (r : Rec) :
    (p.pushIdle addr r).m_ConnectionCount = p.m_ConnectionCount ∧ (p.pushIdle addr r).brk = p.brk ∧
      (p.pushIdle addr r).mem = p.mem ∧ (p.pushIdle addr r).timers = p.timers := by
  unfold pushIdle
  split <;> exact ⟨rfl, rfl, rfl, rfl⟩

theorem pushIdle_waiting (p : ConnectionPool) (addr : SockAddr) (r : Rec) :
    (p.pushIdle addr r).waiting addr = r :: p.waiting addr := by
  unfold pushIdle
  split
  · next hf => rw [waiting, waiting, OrdMap.find_insert, hf]; rfl
  · next l hf => rw [waiting, waiting, OrdMap.find_modify, hf]; rfl

theorem pushIdle_waiting_ne (p : ConnectionPool) (r : Rec) {a : SockAddr} (ha : a ≠ addr) :
    (p.pushIdle addr r).waiting a = p.waiting a := by
  unfold pushIdle
  split
  · rw [waiting, waiting, OrdMap.find_insert_ne ha]
  · rw [waiting, waiting, OrdMap.find_modify_ne ha]

/-- What `setIdleTimer` does. -/
theorem setIdleTimer_eq (p : ConnectionPool) (r : Rec) (timerId : UInt32) :
    p.setIdleTimer r timerId = { p with
      timers :=
        if p.m_IdleConnectionTimeout ≠ CONNECTIONPOOL_KEEPCONNECTION then (timerId, some r) :: p.timers else p.timers
      mem :=
        if p.m_IdleConnectionTimeout ≠ CONNECTIONPOOL_KEEPCONNECTION then
          p.mem.modify r fun info => { info with IdleConnTimerId := timerId }
        else p.mem } := by
  unfold setIdleTimer
  split <;> rfl

theorem Detach_attached (hr : p.mem.find r = some info) (ha : info.active = true) (timerId : UInt32) :
    ∃ p', p.Detach r timerId = some p' ∧ Parked p p' r info timerId := by
  have hne : ¬ info.active = false := by
    rw [ha]
    exact Bool.true_eq_false.mp
  refine ⟨_, by rw [Detach, hr]; exact if_neg hne, ?_⟩
  rw [setIdleTimer_eq]
  have hfind : (p.mem.modify r ConnectionInfo.deactivate).find r = some info.deactivate := by
    rw [OrdMap.find_modify, hr]
    rfl
  constructor
  · exact (pushIdle_frame _ _ _).1
  · exact (pushIdle_frame _ _ _).2.1
  · rw [(pushIdle_frame _ _ _).2.2.1]
    dsimp only
    split
    · exact (OrdMap.length_mapVals _ _).trans (OrdMap.length_mapVals _ _)
    · exact OrdMap.length_mapVals _ _
  · rw [(pushIdle_frame _ _ _).2.2.1, rested]
    dsimp only
    split
    · rw [OrdMap.find_modify, hfind]
      rfl
    · exact hfind
  · intro x hx
    rw [(pushIdle_frame _ _ _).2.2.1]
    dsimp only
    split
    · rw [OrdMap.find_modify_ne hx, OrdMap.find_modify_ne hx]
    · rw [OrdMap.find_modify_ne hx]
  · exact pushIdle_waiting _ _ _
  · intro a hne
    exact pushIdle_waiting_ne _ _ hne
  · exact (pushIdle_frame _ _ _).2.2.2

theorem Detach_idle (hr : p.mem.find r = some info) (ha : info.active = false) (timerId : UInt32) :
    p.Detach r timerId = some p := by
  rw [Detach, hr]
  exact if_pos ha

theorem inv_parked (h : Inv p used) (hr : p.mem.find r = some info) (ha : info.active = true) {timerId : UInt32}
    (hid : timerId ∉ used) (hp : Parked p p' r info timerId) (hknown : ∀ e ∈ p'.timers, e.1 ∈ used') :
    Inv p' used' := by
  have hmem : ∀ e ∈ p'.timers, e ∈ p.timers ∨
      e = (timerId, some r) ∧ (p.rested info timerId).IdleConnTimerId = timerId := by
    intro e he
    rw [hp.timers] at he
    split at he
    · next hk =>
      rcases List.mem_cons.mp he with rfl | he
      · exact .inr ⟨rfl, by rw [rested, if_pos hk]⟩
      · exact .inl he
    · exact .inl he
  apply h.change r
  · rw [hp.count, hp.length]
    exact h.count
  · exact hp.mem_ne
  · exact Nat.le_of_eq hp.brk.symm
  · intro _ _
    rw [hp.brk]
    exact h.born r info hr
  · intro a
    by_cases hai : a = info.stAddress
    · rw [hai, hp.waiting]
      exact List.nodup_cons.mpr ⟨h.not_listed hr ha _, h.nodup _⟩
    · rw [hp.waiting_ne a hai]
      exact h.nodup a
  · intro a x hx
    by_cases hai : a = info.stAddress
    · rw [hai, hp.waiting, List.mem_cons, or_iff_right hx]
    · rw [hp.waiting_ne a hai]
  · intro a
    by_cases hai : a = info.stAddress
    · rw [hai, hp.waiting]
      exact iff_of_true List.mem_cons_self ⟨_, hp.mem, p.rested_stAddress info timerId, p.rested_active info timerId⟩
    · rw [hp.waiting_ne a hai]
      apply iff_of_false (h.not_listed hr ha a)
      intro hidle
      obtain ⟨i, hi, hia, -⟩ := hidle
      rw [hp.mem] at hi
      cases hi
      exact hai (hia.symm.trans (p.rested_stAddress info timerId))
  · rw [hp.timers]
    split
    · exact h.fresh hid (some r)
    · exact h.distinct
  · exact hknown
  · intro id x hx hm
    refine (hmem _ hm).resolve_right fun heq => hx ?_
    exact Option.some.inj (congrArg Prod.snd heq.1)
  · intro id hm
    rcases hmem _ hm with hm | hm
    · exact absurd hm (h.not_owned hr ha)
    · refine ⟨_, hp.mem, p.rested_active info timerId, ?_⟩
      exact hm.2.trans (congrArg Prod.fst hm.1).symm

/-! ## Erase and the idle timer -/

/-- The pool without an attached record. -/
def erased (p : ConnectionPool) (r : Rec) : ConnectionPool :=
  { p with mem := p.mem.erase r, m_ConnectionCount := p.m_ConnectionCount - 1 }

theorem Erase_eq (hr : p.mem.find r = some info) : p.Erase r = some (p.erased r) := by
  rw [Erase, hr]
  rfl

theorem count_sub_one (h : Inv p used) (hr : p.mem.find r = some info) :
    (p.m_ConnectionCount - 1).toNat = (p.mem.erase r).entries.length := by
  have hlen := OrdMap.length_erase hr
  have hc := h.count
  have h1 : (1 : UInt32).toNat = 1 := rfl
  rw [UInt32.toNat_sub_of_le _ _ (by rw [UInt32.le_iff_toNat_le, h1]; omega), h1]
  omega

theorem not_idle_erase (p : ConnectionPool) (r : Rec) (a : SockAddr) : ¬ (p.erased r).Idle a r := by
  intro hidle
  obtain ⟨i, hi, -⟩ := hidle
  rw [erased, OrdMap.find_erase] at hi
  cases hi

theorem inv_erased (h : Inv p used) (hr : p.mem.find r = some info) (ha : info.active = true) :
    Inv (p.erased r) used := by
  apply h.change r
  · exact count_sub_one h hr
  · intro x hx
    exact OrdMap.find_erase_ne hx
  · exact Nat.le_refl _
  · intro _ _
    exact h.born r info hr
  · exact h.nodup
  · intro a x _
    exact Iff.rfl
  · intro a
    exact iff_of_false (h.not_listed hr ha a) (not_idle_erase p r a)
  · exact h.distinct
  · exact h.known
  · intro id x _ hm
    exact hm
  · intro id hm
    exact absurd hm (h.not_owned hr ha)

/-- The pool after the timer `timerId` deleted the record `r`. -/
def expired (p : ConnectionPool) (timerId : UInt32) (r : Rec) (info : ConnectionInfo) : ConnectionPool :=
  { p with
    timers := p.timers.clear timerId
    m_stConnectionMap := p.m_stConnectionMap.modify info.stAddress (List.erase · r)
    mem := p.mem.erase r
    m_ConnectionCount := if p.m_ConnectionCount > 0 then p.m_ConnectionCount - 1 else p.m_ConnectionCount }

/-- The record of a pending timer waits in a list. -/
theorem Inv.pending (h : Inv p used) {timerId : UInt32} (hm : (timerId, some r) ∈ p.timers) :
    ∃ info l, p.mem.find r = some info ∧ info.active = false ∧ info.IdleConnTimerId = timerId ∧
      p.m_stConnectionMap.find info.stAddress = some l ∧ r ∈ l := by
  obtain ⟨info, hr, ha, hid⟩ := h.owned timerId r hm
  have hw : r ∈ p.waiting info.stAddress := (h.waits _ _).mpr ⟨info, hr, rfl, ha⟩
  rw [waiting] at hw
  cases hl : p.m_stConnectionMap.find info.stAddress with
  | none =>
    rw [hl] at hw
    cases hw
  | some l =>
    rw [hl] at hw
    exact ⟨info, l, hr, ha, hid, hl, hw⟩

theorem fire_eq (h : Inv p used) {timerId : UInt32} (hm : (timerId, some r) ∈ p.timers)
    (hr : p.mem.find r = some info) : p.fire timerId r = some (p.expired timerId r info) := by
  obtain ⟨info', l, hr', -, -, hl, -⟩ := h.pending hm
  rw [hr] at hr'
  cases hr'
  rw [fire, OnTimeout, hr]
  simp only [bind, Option.bind, hl]
  rfl

theorem expired_waiting (p : ConnectionPool) (timerId : UInt32) (r : Rec) (info : ConnectionInfo) :
    (p.expired timerId r info).waiting info.stAddress = (p.waiting info.stAddress).erase r := by
  rw [waiting, waiting, expired, OrdMap.find_modify]
  cases p.m_stConnectionMap.find info.stAddress <;> rfl

theorem expired_waiting_ne (timerId : UInt32) (r : Rec) {a : SockAddr} (ha : a ≠ info.stAddress) :
    (p.expired timerId r info).waiting a = p.waiting a := by
  rw [waiting, waiting, expired, OrdMap.find_modify_ne ha]

theorem inv_expired (h : Inv p used) {timerId : UInt32} (hm : (timerId, some r) ∈ p.timers)
    (hr : p.mem.find r = some info) : Inv (p.expired timerId r info) used := by
  obtain ⟨info', l, hr', -, hid, -⟩ := h.pending hm
  obtain rfl : info = info' := Option.some.inj (hr.symm.trans hr')
  have hgone (a : SockAddr) : r ∉ (p.expired timerId r info).waiting a := by
    by_cases ha : a = info.stAddress
    · rw [ha, expired_waiting]
      exact (h.nodup _).not_mem_erase
    · rw [expired_waiting_ne timerId r ha, h.waits]
      intro hidle
      obtain ⟨i, hi, hia, -⟩ := hidle
      rw [hr] at hi
      cases hi
      exact ha hia.symm
  apply h.change r
  · have hpos : p.m_ConnectionCount > 0 := by
      have hlen := OrdMap.length_erase hr
      have hc := h.count
      have h0 : (0 : UInt32).toNat = 0 := rfl
      rw [gt_iff_lt, UInt32.lt_iff_toNat_lt, h0]
      omega
    exact (congrArg UInt32.toNat (if_pos hpos)).trans (count_sub_one h hr)
  · intro x hx
    exact OrdMap.find_erase_ne hx
  · exact Nat.le_refl _
  · intro _ _
    exact h.born r info hr
  · intro a
    by_cases ha : a = info.stAddress
    · rw [ha, expired_waiting]
      exact (h.nodup _).erase r
    · rw [expired_waiting_ne timerId r ha]
      exact h.nodup a
  · intro a x hx
    by_cases ha : a = info.stAddress
    · rw [ha, expired_waiting, List.mem_erase_of_ne hx]
    · rw [expired_waiting_ne timerId r ha]
  · intro a
    exact iff_of_false (hgone a) (not_idle_erase p r a)
  · exact h.distinct.clear _
  · intro e he
    exact h.known e (Pending.mem_clear.mp he).1
  · intro id x _ hx
    exact (Pending.mem_clear.mp hx).1
  · intro id hx
    obtain ⟨hx, hne⟩ := Pending.mem_clear.mp hx
    obtain ⟨i, hi, -, hi'⟩ := h.owned id r hx
    rw [hr] at hi
    cases hi
    exact absurd (hi'.symm.trans hid) hne

/-! ## Runs -/

theorem inv_attach (h : Inv p used) (addr : SockAddr) (garbage : UInt32) {a : ConnectionPool × Option Rec}
    (ha : p.Attach addr garbage = some a) : Inv a.1 used := by
  rcases Attach_cases h addr garbage with ⟨he, -⟩ | ⟨he, -, hroom⟩ | ⟨r, l, info, hl, hr, he⟩
  · rw [ha] at he
    cases he
    exact h
  · rw [ha] at he
    cases he
    exact inv_created h addr garbage hroom
  · rw [ha] at he
    cases he
    exact inv_reused h hl hr

theorem detached_idle {u : Run} (hr : u.pool.mem.find r = some info) (ha : info.active = false) (timerId : UInt32) :
    u.detached p r timerId = { u with pool := p } := by
  rw [Run.detached, hr, Option.map_some, Option.getD_some, ha]
  rfl

theorem detached_attached {u : Run} (hr : u.pool.mem.find r = some info) (ha : info.active = true)
    (timerId : UInt32) :
    u.detached p r timerId =
      if u.pool.m_IdleConnectionTimeout ≠ CONNECTIONPOOL_KEEPCONNECTION then u.withTimer p r timerId
      else u.withoutTimer p r := by
  rw [Run.detached, hr, Option.map_some, Option.getD_some, ha, if_pos rfl]

theorem inv_detach {u : Run} {timerId : UInt32} (h : Inv u.pool u.used) (hr : u.pool.mem.find r = some info)
    (hid : timerId ∉ u.used) (hp : u.pool.Detach r timerId = some p') :
    Inv (u.detached p' r timerId).pool (u.detached p' r timerId).used := by
  cases ha : info.active with
  | false =>
    rw [Detach_idle hr ha] at hp
    cases hp
    rw [detached_idle hr ha]
    exact h
  | true =>
    obtain ⟨p₁, he, hpark⟩ := Detach_attached hr ha timerId
    rw [hp] at he
    obtain rfl := Option.some.inj he
    by_cases hk : u.pool.m_IdleConnectionTimeout ≠ CONNECTIONPOOL_KEEPCONNECTION
    · rw [detached_attached hr ha, if_pos hk]
      apply inv_parked h hr ha hid hpark
      intro e he
      rw [hpark.timers, if_pos hk] at he
      rcases List.mem_cons.mp he with rfl | he
      · exact List.mem_cons_self
      · exact List.mem_cons_of_mem _ (h.known e he)
    · rw [detached_attached hr ha, if_neg hk]
      apply inv_parked h hr ha hid hpark
      rw [hpark.timers, if_neg hk]
      exact h.known

theorem inv_otherSet {timerId : UInt32} (h : Inv p used) (hid : timerId ∉ used) :
    Inv { p with timers := (timerId, none) :: p.timers } (timerId :: used) where
  count := h.count
  born := h.born
  nodup := h.nodup
  waits := h.waits
  distinct := h.fresh hid none
  known := by
    intro e he
    rcases List.mem_cons.mp he with rfl | he
    · exact List.mem_cons_self
    · exact List.mem_cons_of_mem _ (h.known e he)
  owned := by
    intro id r hm
    rcases List.mem_cons.mp hm with he | hm
    · cases he
    · exact h.owned id r hm

theorem inv_otherDrop (h : Inv p used) (timerId : UInt32) : Inv { p with timers := p.timers.clear timerId } used where
  count := h.count
  born := h.born
  nodup := h.nodup
  waits := h.waits
  distinct := h.distinct.clear _
  known := by
    intro e he
    exact h.known e (Pending.mem_clear.mp he).1
  owned := by
    intro id r hm
    exact h.owned id r (Pending.mem_clear.mp hm).1

/-- The calls that a user may make do not fault. -/
theorem call_total {u : Run} (h : Inv u.pool u.used) {c : Call} (hc : enabled u c) : ∃ u', call u c = some u' := by
  have hmap {α : Type} {o : Option α} {a : α} (ho : o = some a) (f : α → Run) : ∃ u', o.map f = some u' :=
    ⟨f a, by rw [ho, Option.map_some]⟩
  cases c with
  | attach addr garbage =>
    rcases Attach_cases h addr garbage with ⟨he, -⟩ | ⟨he, -⟩ | ⟨r, l, info, -, -, he⟩ <;> exact hmap he _
  | detach r timerId =>
    obtain ⟨info, hr⟩ := Option.isSome_iff_exists.mp hc.1
    cases ha : info.active with
    | false => exact hmap (Detach_idle hr ha timerId) _
    | true =>
      obtain ⟨p', he, -⟩ := Detach_attached hr ha timerId
      exact hmap he _
  | erase r =>
    obtain ⟨info, hr, -⟩ := Option.map_eq_some_iff.mp hc
    exact hmap (Erase_eq hr) _
  | fire timerId r =>
    obtain ⟨info, l, hr, -⟩ := h.pending hc
    exact hmap (fire_eq h hc hr) _
  | setMax max => exact ⟨_, rfl⟩
  | setIdle timeout => exact ⟨_, rfl⟩
  | otherSet timerId => exact ⟨_, rfl⟩
  | otherDrop timerId => exact ⟨_, rfl⟩

theorem inv_call {u u' : Run} {c : Call} (h : Inv u.pool u.used) (hc : enabled u c) (hs : call u c = some u') :
    Inv u'.pool u'.used := by
  cases c with
  | attach addr garbage =>
    obtain ⟨a, ha, rfl⟩ := Option.map_eq_some_iff.mp hs
    exact inv_attach h addr garbage ha
  | detach r timerId =>
    obtain ⟨p', hp, rfl⟩ := Option.map_eq_some_iff.mp hs
    obtain ⟨info, hr⟩ := Option.isSome_iff_exists.mp hc.1
    exact inv_detach h hr hc.2 hp
  | erase r =>
    obtain ⟨p', hp, rfl⟩ := Option.map_eq_some_iff.mp hs
    obtain ⟨info, hr, ha⟩ := Option.map_eq_some_iff.mp hc
    rw [Erase_eq hr] at hp
    cases hp
    exact inv_erased h hr ha
  | fire timerId r =>
    obtain ⟨p', hp, rfl⟩ := Option.map_eq_some_iff.mp hs
    obtain ⟨info, l, hr, -⟩ := h.pending hc
    rw [fire_eq h hc hr] at hp
    cases hp
    exact inv_expired h hc hr
  | setMax max =>
    cases hs
    exact { h with }
  | setIdle timeout =>
    cases hs
    exact { h with }
  | otherSet timerId =>
    cases hs
    exact inv_otherSet h hc
  | otherDrop timerId =>
    cases hs
    exact inv_otherDrop h timerId

theorem inv_start (max timeout : UInt32) : Inv (start max timeout).pool [] where
  count := rfl
  born := nofun
  nodup := fun _ => .nil
  waits := fun _ _ => iff_of_false List.not_mem_nil nofun
  distinct := .nil
  known := nofun
  owned := nofun

theorem inv_inductive : pooling.Inductive fun u => Inv u.pool u.used where
  init := by
    intro u hu
    obtain ⟨max, timeout, rfl⟩ := hu
    exact inv_start max timeout
  step := by
    intro u c u' h hs
    exact inv_call h hs.1 hs.2

/-- What the counter, the lists and the timers say of the records. -/
structure Accounted (p : ConnectionPool) : Prop where
  count : p.m_ConnectionCount.toNat = p.mem.entries.length
  attached : ∀ r info, p.mem.find r = some info → info.active = true → ∀ a, r ∉ p.waiting a
  idle : ∀ r info, p.mem.find r = some info → info.active = false →
    (p.waiting info.stAddress).count r = 1 ∧ ∀ a, a ≠ info.stAddress → r ∉ p.waiting a
  live : ∀ a, ∀ r ∈ p.waiting a, (p.mem.find r).isSome
  /-- where `OnTimeout` looks for the record of a timer, it is -/
  timers : ∀ id r, (id, some r) ∈ p.timers → ∃ info l, p.mem.find r = some info ∧ info.active = false ∧
    p.m_stConnectionMap.find info.stAddress = some l ∧ r ∈ l

/-- What `Attach` did: nothing, or it attached one record of the address that was idle or did not exist. -/
def Exclusive (p : ConnectionPool) (addr : SockAddr) : ConnectionPool × Option Rec → Prop
  | (p', none) => p' = p
  | (p', some r) =>
    (∃ info, p'.mem.find r = some info ∧ info.stAddress = addr ∧ info.active = true) ∧
    (∀ info, p.mem.find r = some info → info.stAddress = addr ∧ info.active = false) ∧
    (p.mem.find r = none → p.m_ConnectionCount < p.m_MaxConnection) ∧
    ∀ x, x ≠ r → p'.mem.find x = p.mem.find x

theorem Inv.accounted (h : Inv p used) : Accounted p where
  count := h.count
  attached := fun _ _ hr ha => h.not_listed hr ha
  idle := by
    intro r info hr ha
    refine ⟨List.count_eq_one_of_mem (h.nodup _) ((h.waits _ r).mpr ⟨info, hr, rfl, ha⟩), fun a hne hm => ?_⟩
    obtain ⟨i, hi, hia, -⟩ := (h.waits a r).mp hm
    rw [hr] at hi
    cases hi
    exact hne hia.symm
  live := by
    intro a r hm
    obtain ⟨info, hr, -⟩ := (h.waits a r).mp hm
    exact Option.isSome_iff_exists.mpr ⟨info, hr⟩
  timers := by
    intro id r hm
    obtain ⟨info, l, hr, ha, -, hl, hmem⟩ := h.pending hm
    exact ⟨info, l, hr, ha, hl, hmem⟩

theorem Inv.exclusive (h : Inv p used) (addr : SockAddr) (garbage : UInt32) :
    ∃ a, p.Attach addr garbage = some a ∧ Exclusive p addr a := by
  rcases Attach_cases h addr garbage with ⟨he, -⟩ | ⟨he, -, hroom⟩ | ⟨r, l, info, hl, hr, he⟩
  · exact ⟨_, he, rfl⟩
  · refine ⟨_, he, ⟨_, created_find h addr garbage, rfl, ConnectionInfo.active_activate _⟩, fun info hb => ?_,
      fun _ => hroom, fun x hx => created_find_ne p addr garbage hx⟩
    rw [h.brk_free] at hb
    cases hb
  · obtain ⟨i, hi, haddr, hidle⟩ := (h.waits addr r).mp (hl ▸ List.mem_cons_self)
    rw [hr] at hi
    cases hi
    refine ⟨_, he, ⟨_, reused_find hr addr, haddr, ConnectionInfo.active_activate _⟩, fun i hi => ?_, fun hn => ?_,
      fun x hx => OrdMap.find_modify_ne hx _⟩
    · rw [hr] at hi
      cases hi
      exact ⟨haddr, hidle⟩
    · rw [hr] at hn
      cases hn

/-- In every run each record is in one place, no call faults, and `Attach` hands out a record once. -/
theorem pool_run {u : Run} (hr : pooling.Reachable u) :
    Accounted u.pool ∧ (∀ c, enabled u c → ∃ u', call u c = some u') ∧
      ∀ addr garbage, ∃ a, u.pool.Attach addr garbage = some a ∧ Exclusive u.pool addr a := by
  have h := inv_inductive.reachable u hr
  exact ⟨h.accounted, fun c hc => call_total h hc, h.exclusive⟩

/-- A connection that was attached and detached waits with its timer. -/
theorem pool_run_one : ∃ u, pooling.Reachable u ∧ u.pool.timers = [(9, some 0)] ∧ Accounted u.pool := by
  have hrun : ([.attach (L4.LoadBalance.sockAddr 1 80) 7, .detach 0 9].foldlM (LTS.checked enabled call)
      (start 1 5)).map (fun u => u.pool.timers) = some [(9, some 0)] := by decide
  obtain ⟨u, hu, ht⟩ := Option.map_eq_some_iff.mp hrun
  have hr : pooling.Reachable u := LTS.Reachable.checked (fun _ _ _ => And.intro) _ (.init ⟨1, 5, rfl⟩) hu
  exact ⟨u, hr, ht, (pool_run hr).1⟩

end SimpleSvr.L5.ConnectionPool
