import SimpleSvr.L5App.Session
import Mathlib.Logic.Function.Basic

/-!
# Sessions and their timers

In every run, between operations, the live tokens and the pending timers of the
sessions correspond (`Paired`), and the history of a token is one of four
(`Life`): none, allocated, allocated and deleted, or allocated, each callback run
once on its data, and expired.
-/
namespace SimpleSvr.L5.Session
open SimpleSvr.L2 (Pending)

variable {DataT : Type}

inductive Event where
  | allocated (pData : Option Addr)
  | ran (callback : Callback) (pData : Addr)
  | deleted
  | expired (callbacks : List Callback)
deriving DecidableEq

/-- A session in use. `expiring` is the frame of `OnSessionTimeout` when one is on the stack; `used`
are the ids that `SetTimeout` returned so far. -/
structure Run (DataT : Type) where
  session : Session DataT := {}
  expiring : Option Expiry := none
  used : List UInt32 := []
  allocs : Nat := 0
  log : List (Token × Event) := []

inductive Call (DataT : Type) where
  | allocate (pData : Option DataT) (garbage : SessionInfo DataT) (timerId : UInt32)
  | delete (dwToken : Token)
  | put (dwToken : Token) (data : DataT)
  | setSessionTimeout (dwTimeout : UInt32)
  | registerCallback (callback : Callback)
  | expire (timerId : UInt32) (pInfo : Addr)
  | callback
  | finish
  | otherSet (timerId : UInt32)
  | otherDrop (timerId : UInt32)

/-- New ids, less than 2^32 calls of `Allocate`, no `Delete` of the session that expires. A timer
comes due when no other callback runs; then its callbacks run, and it ends after the last. -/
def enabled (u : Run DataT) : Call DataT → Prop
  | .allocate _ _ timerId => timerId ∉ u.used ∧ u.allocs + 1 < 2 ^ 32
  | .delete dwToken => ∀ e ∈ u.expiring, ∀ info ∈ u.session.mem.find e.pInfo, info.dwSequence ≠ dwToken
  | .expire timerId pInfo => u.expiring = none ∧ (timerId, some pInfo) ∈ u.session.timers
  | .callback => ∃ e ∈ u.expiring, (u.session.nextCallback e).isSome
  | .finish => ∃ e ∈ u.expiring, u.session.nextCallback e = none
  | .otherSet timerId => timerId ∉ u.used
  | .otherDrop timerId => (timerId, none) ∈ u.session.timers
  | _ => True

def Run.allocate (u : Run DataT) (pData : Option DataT) (garbage : SessionInfo DataT) (timerId : UInt32) : Run DataT :=
  let (s, token) := u.session.Allocate pData garbage timerId
  { u with
    session := s
    used := timerId :: u.used
    allocs := u.allocs + 1
    log := u.log ++ [(token, .allocated (s.GetSessionData token))] }

/-- A `Delete` of a token that is not live is no end of it. -/
def Run.delete (u : Run DataT) (dwToken : Token) : Option (Run DataT) := do
  let s ← u.session.Delete dwToken
  if (u.session.GetSessionData dwToken).isSome then
    some { u with session := s, log := u.log ++ [(dwToken, .deleted)] }
  else some { u with session := s }

def Run.callback (u : Run DataT) : Option (Run DataT) := do
  let e ← u.expiring
  let c ← u.session.nextCallback e
  let info ← u.session.mem.find e.pInfo
  some { u with
    expiring := some { e with iter := e.iter + 1 }
    log := u.log ++ [(info.dwSequence, .ran c e.pInfo)] }

def Run.finish (u : Run DataT) : Option (Run DataT) := do
  let e ← u.expiring
  let info ← u.session.mem.find e.pInfo
  let s ← u.session.endTimeout e
  some { u with
    session := s
    expiring := none
    log := u.log ++ [(info.dwSequence, .expired u.session.m_stTimeoutCallback)] }

def call (u : Run DataT) : Call DataT → Option (Run DataT)
  | .allocate pData garbage timerId => some (u.allocate pData garbage timerId)
  | .delete dwToken => u.delete dwToken
  | .put dwToken data => some { u with session := u.session.put dwToken data }
  | .setSessionTimeout dwTimeout => some { u with session := u.session.SetSessionTimeout dwTimeout }
  | .registerCallback callback => some { u with session := u.session.RegisterCallback callback }
  | .expire timerId pInfo =>
    some { u with
      session := { u.session with timers := u.session.timers.clear timerId }
      expiring := some { pInfo, iter := 0 } }
  | .callback => u.callback
  | .finish => u.finish
  | .otherSet timerId =>
    some { u with
      used := timerId :: u.used
      session := { u.session with timers := (timerId, none) :: u.session.timers } }
  | .otherDrop timerId =>
    some { u with session := { u.session with timers := u.session.timers.clear timerId } }

instance (u : Run DataT) : (c : Call DataT) → Decidable (enabled u c)
  | .allocate .. => inferInstanceAs (Decidable (_ ∧ _))
  | .delete _ => inferInstanceAs (Decidable (∀ _ ∈ _, ∀ _ ∈ _, _))
  | .expire .. => decidable_of_iff (u.expiring.isNone ∧ _) (and_congr_left' Option.isNone_iff_eq_none)
  | .callback => inferInstanceAs (Decidable (∃ _ ∈ _, _))
  | .finish => decidable_of_iff (∃ e ∈ u.expiring, (u.session.nextCallback e).isNone)
    (exists_congr fun _ => and_congr_right' Option.isNone_iff_eq_none)
  | .otherSet _ => inferInstanceAs (Decidable (_ ∉ _))
  | .otherDrop _ => inferInstanceAs (Decidable (_ ∈ _))
  | .put .. | .setSessionTimeout _ | .registerCallback _ => inferInstanceAs (Decidable True)

/-- Any calls on one `Session`, the callbacks of its timers between and around them. -/
def sessions (DataT : Type) : LTS (Run DataT) (Call DataT) where
  init u := u = {}
  step u c u' := enabled u c ∧ call u c = some u'

/-! ## What holds -/

def Live (s : Session DataT) : Type := { t : Token // (s.GetSessionData t).isSome }

/-- The pending timers of sessions. -/
def Waiting (s : Session DataT) : Type := { e : UInt32 × Addr // (e.1, some e.2) ∈ s.timers }

/-- The live tokens and the pending timers correspond, each timer to the token of its node. -/
structure Paired (s : Session DataT) : Prop where
  distinct : s.timers.Distinct
  bijective : ∃ f : Live s → Waiting s, Function.Bijective f ∧ ∀ t, s.GetSessionData t.val = some (f t).val.2

/-- What happened to a token so far, by the pointer that `GetSessionData` returns and the callbacks that
ran on it. -/
inductive Life : Option Addr → List Callback → List Event → Prop
  | unborn : Life none [] []
  | live (p : Addr) (ran : List Callback) : Life (some p) ran (.allocated (some p) :: ran.map (.ran · p))
  | deleted (p : Addr) : Life none [] [.allocated (some p), .deleted]
  | expired (p : Addr) (callbacks : List Callback) :
    Life none [] (.allocated (some p) :: (callbacks.map (.ran · p) ++ [.expired callbacks]))

def Run.history (u : Run DataT) (t : Token) : List Event := (u.log.filter (·.1 = t)).map Prod.snd

/-- The callbacks that ran on the session of `t` while it expires. -/
def ran (s : Session DataT) (expiring : Option Expiry) (t : Token) : List Callback :=
  match expiring with
  | none => []
  | some e => if s.GetSessionData t = some e.pInfo then s.m_stTimeoutCallback.take e.iter else []

/-! ## Nodes and timers -/

/-- `expiring` is on the stack, `used` are the ids that were ever given. -/
structure Nodes (s : Session DataT) (expiring : Option Expiry) (used : List UInt32) : Prop where
  node : ∀ t p, s.m_stSessionMap.find t = some p → ∃ info, s.mem.find p = some info ∧ info.dwSequence = t
  key : ∀ p info, s.mem.find p = some info → s.m_stSessionMap.find info.dwSequence = some p
  born : ∀ p info, s.mem.find p = some info → p < s.brk
  /-- a node has its timer until it expires -/
  timer : ∀ p info, s.mem.find p = some info → (∀ e ∈ expiring, e.pInfo ≠ p) → (info.dwTimerId, some p) ∈ s.timers
  owned : ∀ id p, (id, some p) ∈ s.timers →
    (∃ info, s.mem.find p = some info ∧ info.dwTimerId = id) ∧ ∀ e ∈ expiring, e.pInfo ≠ p
  current : ∀ e ∈ expiring, ∃ info, s.mem.find e.pInfo = some info
  distinct : s.timers.Distinct
  known : ∀ e ∈ s.timers, e.1 ∈ used

variable {s : Session DataT} {expiring expiring' : Option Expiry} {used : List UInt32} {t t' : Token} {p : Addr}
  {info : SessionInfo DataT} {timerId : UInt32}

/-- A node is removed, with the timers of its own. -/
theorem Nodes.remove (h : Nodes s expiring used) (ht : s.m_stSessionMap.find t = some p)
    {timers : Pending (Option Addr)} (hx : ∀ e ∈ expiring', e ∈ expiring ∧ e.pInfo ≠ p)
    (hx' : ∀ e ∈ expiring, e.pInfo = p ∨ e ∈ expiring') (hsub : ∀ e ∈ timers, e ∈ s.timers)
    (hkeep : ∀ e ∈ s.timers, e.2 ≠ some p → e ∈ timers) (hgone : ∀ id, (id, some p) ∉ timers)
    (hd : timers.Distinct) :
    Nodes { s with m_stSessionMap := s.m_stSessionMap.erase t, mem := s.mem.erase p, timers } expiring' used := by
  obtain ⟨info, hp, hseq⟩ := h.node t p ht
  have hmem {q : Addr} {i : SessionInfo DataT} (hq : (s.mem.erase p).find q = some i) :
      q ≠ p ∧ s.mem.find q = some i := OrdMap.find_erase_iff.mp hq
  have hmem' {q : Addr} (hqp : q ≠ p) : (s.mem.erase p).find q = s.mem.find q := OrdMap.find_erase_ne hqp
  constructor
  · intro t' q hq
    obtain ⟨hne, hq⟩ := OrdMap.find_erase_iff.mp hq
    obtain ⟨i, hi, his⟩ := h.node t' q hq
    have hqp : q ≠ p := by
      intro heq
      rw [heq, hp] at hi
      cases hi
      exact hne (his.symm.trans hseq)
    exact ⟨i, (hmem' hqp).trans hi, his⟩
  · intro q i hq
    obtain ⟨hqp, hq⟩ := hmem hq
    have hk := h.key q i hq
    have hne : i.dwSequence ≠ t := by
      intro heq
      rw [heq, ht] at hk
      exact hqp (Option.some.inj hk).symm
    exact (OrdMap.find_erase_ne hne).trans hk
  · intro q i hq
    exact h.born q i (hmem hq).2
  · intro q i hq he
    obtain ⟨hqp, hq⟩ := hmem hq
    refine hkeep _ (h.timer q i hq fun e hm => ?_) fun heq => hqp (Option.some.inj heq)
    rcases hx' e hm with hep | hm
    · rw [hep]
      exact hqp.symm
    · exact he e hm
  · intro id q hm
    have hqp : q ≠ p := fun heq => hgone id (heq ▸ hm)
    obtain ⟨⟨i, hi, hid⟩, hex⟩ := h.owned id q (hsub _ hm)
    exact ⟨⟨i, (hmem' hqp).trans hi, hid⟩, fun e hm => hex e (hx e hm).1⟩
  · intro e hm
    obtain ⟨hm, hep⟩ := hx e hm
    obtain ⟨i, hi⟩ := h.current e hm
    exact ⟨i, (hmem' hep).trans hi⟩
  · exact hd
  · intro e hm
    exact h.known e (hsub e hm)

theorem erase_eq (ht : s.m_stSessionMap.find t = some p) :
    s.erase t = { s with m_stSessionMap := s.m_stSessionMap.erase t, mem := s.mem.erase p } := by
  rw [erase, ht]

/-- The timer that a node names is the only one of its id, and the only one of the node. -/
theorem Nodes.clear_own (h : Nodes s expiring used) (hp : s.mem.find p = some info)
    (hx : ∀ e ∈ expiring, e.pInfo ≠ p) (id : UInt32) (o : Option Addr) :
    (id, o) ∈ s.timers.clear info.dwTimerId ↔ (id, o) ∈ s.timers ∧ o ≠ some p := by
  rw [Pending.mem_clear]
  refine and_congr_right fun hm => not_congr ⟨fun hid => ?_, fun ho => ?_⟩
  · have hid : id = info.dwTimerId := hid
    exact h.distinct.unique hm (hid ▸ h.timer p info hp hx)
  · subst ho
    obtain ⟨⟨i, hi, hid⟩, -⟩ := h.owned id p hm
    rw [hp] at hi
    cases hi
    exact hid.symm

theorem nodes_delete (h : Nodes s expiring used) (ht : s.m_stSessionMap.find t = some p)
    (hp : s.mem.find p = some info) (hx : ∀ e ∈ expiring, e.pInfo ≠ p) :
    Nodes ({ s with timers := s.timers.clear info.dwTimerId }.erase t) expiring used := by
  have hown := h.clear_own hp hx
  have ht' : { s with timers := s.timers.clear info.dwTimerId }.m_stSessionMap.find t = some p := ht
  rw [erase_eq ht']
  apply h.remove ht
  · intro e he
    exact ⟨he, hx e he⟩
  · intro e he
    exact .inr he
  · intro e he
    exact ((hown _ _).mp he).1
  · intro e he hne
    exact (hown _ _).mpr ⟨he, hne⟩
  · intro id hm
    exact ((hown _ _).mp hm).2 rfl
  · exact h.distinct.clear _

theorem nodes_finish {e : Expiry} (h : Nodes s (some e) used) (hp : s.mem.find e.pInfo = some info) :
    Nodes (s.erase info.dwSequence) none used := by
  have ht := h.key e.pInfo info hp
  rw [erase_eq ht]
  apply h.remove ht
  · exact nofun
  · intro x hx
    cases hx
    exact .inl rfl
  · intro x hx
    exact hx
  · intro x hx _
    exact hx
  · intro id hm
    exact (h.owned id e.pInfo hm).2 e rfl rfl
  · exact h.distinct

theorem nodes_expire (h : Nodes s none used) (hm : (timerId, some p) ∈ s.timers) :
    Nodes { s with timers := s.timers.clear timerId } (some ⟨p, 0⟩) used := by
  obtain ⟨⟨info, hp, hid⟩, -⟩ := h.owned timerId p hm
  subst hid
  have hown := h.clear_own hp nofun
  constructor
  · exact h.node
  · exact h.key
  · exact h.born
  · intro q i hq hne
    refine (hown _ _).mpr ⟨h.timer q i hq nofun, fun heq => ?_⟩
    exact hne _ rfl (Option.some.inj heq).symm
  · intro id q hq
    obtain ⟨hq, hne⟩ := (hown _ _).mp hq
    refine ⟨(h.owned id q hq).1, fun e he heq => ?_⟩
    cases he
    exact hne (congrArg some heq.symm)
  · intro e he
    cases he
    exact ⟨info, hp⟩
  · exact h.distinct.clear _
  · intro e he
    exact h.known e (Pending.mem_clear.mp he).1

/-- Which callback is next does not matter to the nodes. -/
theorem Nodes.advance {e : Expiry} (h : Nodes s (some e) used) : Nodes s (some { e with iter := e.iter + 1 }) used where
  node := h.node
  key := h.key
  born := h.born
  timer := by
    intro q i hq hne
    apply h.timer q i hq
    intro x hx
    cases hx
    exact hne { e with iter := e.iter + 1 } rfl
  owned := by
    intro id q hq
    obtain ⟨hi, hne⟩ := h.owned id q hq
    refine ⟨hi, fun x hx => ?_⟩
    cases hx
    exact hne e rfl
  current := by
    intro x hx
    cases hx
    exact h.current e rfl
  distinct := h.distinct
  known := h.known

/-- The session after `Allocate` of a token that is not there. -/
def allocated (s : Session DataT) (pData : Option DataT) (garbage : SessionInfo DataT) (timerId : UInt32) :
    Session DataT :=
  { s with
    m_dwSequence := s.m_dwSequence + 1
    m_stSessionMap := s.m_stSessionMap.insert (s.m_dwSequence + 1) s.brk
    mem := (s.mem.insert s.brk
      { garbage with dwSequence := s.m_dwSequence + 1, stSessionData := pData.getD garbage.stSessionData }).modify s.brk
        fun info => { info with dwTimerId := timerId }
    brk := s.brk + 1
    timers := (timerId, some s.brk) :: s.timers }

theorem Allocate_eq (hfree : s.m_stSessionMap.find (s.m_dwSequence + 1) = none) (pData : Option DataT)
    (garbage : SessionInfo DataT) (timerId : UInt32) :
    s.Allocate pData garbage timerId = (s.allocated pData garbage timerId, s.m_dwSequence + 1) := by
  rw [Allocate, insertInfo]
  simp only [hfree]
  rfl

theorem Nodes.brk_free (h : Nodes s expiring used) : s.mem.find s.brk = none := by
  cases hf : s.mem.find s.brk with
  | none => rfl
  | some info => exact absurd (h.born _ _ hf) (Nat.lt_irrefl _)

theorem Nodes.fresh (h : Nodes s expiring used) (hid : timerId ∉ used) (o : Option Addr) :
    Pending.Distinct ((timerId, o) :: s.timers) := by
  apply h.distinct.set
  intro e he heq
  exact hid (heq ▸ h.known e he)

theorem nodes_allocated (h : Nodes s expiring used) (hfree : s.m_stSessionMap.find (s.m_dwSequence + 1) = none)
    (hid : timerId ∉ used) (pData : Option DataT) (garbage : SessionInfo DataT) :
    Nodes (s.allocated pData garbage timerId) expiring (timerId :: used) := by
  have hself : ∃ info, (s.allocated pData garbage timerId).mem.find s.brk = some info ∧
      info.dwSequence = s.m_dwSequence + 1 ∧ info.dwTimerId = timerId := by
    refine ⟨⟨pData.getD garbage.stSessionData, s.m_dwSequence + 1, timerId⟩, ?_, rfl, rfl⟩
    rw [allocated, OrdMap.find_modify, OrdMap.find_insert, h.brk_free]
    rfl
  have hother {q : Addr} (hq : q ≠ s.brk) : (s.allocated pData garbage timerId).mem.find q = s.mem.find q := by
    rw [allocated, OrdMap.find_modify_ne hq, OrdMap.find_insert_ne hq]
  have hmap : (s.allocated pData garbage timerId).m_stSessionMap.find (s.m_dwSequence + 1) = some s.brk := by
    rw [allocated, OrdMap.find_insert, hfree]
    rfl
  have hmap_ne {t : Token} (ht : t ≠ s.m_dwSequence + 1) :
      (s.allocated pData garbage timerId).m_stSessionMap.find t = s.m_stSessionMap.find t := OrdMap.find_insert_ne ht _
  have hlive {q : Addr} {i : SessionInfo DataT} (hq : s.mem.find q = some i) : q ≠ s.brk :=
    Nat.ne_of_lt (h.born q i hq)
  obtain ⟨info, hinfo, hseq, hidinfo⟩ := hself
  constructor
  · intro t q hq
    by_cases ht : t = s.m_dwSequence + 1
    · rw [ht, hmap] at hq
      cases hq
      exact ⟨info, hinfo, hseq.trans ht.symm⟩
    · rw [hmap_ne ht] at hq
      obtain ⟨i, hi, his⟩ := h.node t q hq
      exact ⟨i, (hother (hlive hi)).trans hi, his⟩
  · intro q i hq
    by_cases hb : q = s.brk
    · rw [hb, hinfo] at hq
      cases hq
      rw [hseq, hb]
      exact hmap
    · rw [hother hb] at hq
      have hk := h.key q i hq
      have hne : i.dwSequence ≠ s.m_dwSequence + 1 := by
        intro heq
        rw [heq, hfree] at hk
        cases hk
      exact (hmap_ne hne).trans hk
  · intro q i hq
    by_cases hb : q = s.brk
    · rw [hb]
      exact Nat.lt_succ_self _
    · rw [hother hb] at hq
      exact Nat.lt_succ_of_lt (h.born q i hq)
  · intro q i hq hx
    by_cases hb : q = s.brk
    · rw [hb, hinfo] at hq
      cases hq
      rw [hidinfo, hb]
      exact List.mem_cons_self
    · rw [hother hb] at hq
      exact List.mem_cons_of_mem _ (h.timer q i hq hx)
  · intro id q hm
    rcases List.mem_cons.mp hm with he | hm
    · cases he
      refine ⟨⟨info, hinfo, hidinfo⟩, fun e he => ?_⟩
      obtain ⟨i, hi⟩ := h.current e he
      exact hlive hi
    · obtain ⟨⟨i, hi, hid⟩, hx⟩ := h.owned id q hm
      exact ⟨⟨i, (hother (hlive hi)).trans hi, hid⟩, hx⟩
  · intro e he
    obtain ⟨i, hi⟩ := h.current e he
    exact ⟨i, (hother (hlive hi)).trans hi⟩
  · exact h.fresh hid _
  · intro e he
    rcases List.mem_cons.mp he with rfl | he
    · exact List.mem_cons_self
    · exact List.mem_cons_of_mem _ (h.known e he)

/-- Writing data moves nothing. -/
theorem nodes_put (h : Nodes s expiring used) (t : Token) (data : DataT) : Nodes (s.put t data) expiring used := by
  rw [put]
  cases ht : s.GetSessionData t with
  | none => exact h
  | some p =>
    have hview (q : Addr) : ((s.mem.modify p fun info => { info with stSessionData := data }).find q).map
          (fun i => (i.dwSequence, i.dwTimerId)) = (s.mem.find q).map fun i => (i.dwSequence, i.dwTimerId) := by
      apply OrdMap.map_find_modify
      intro i
      rfl
    have hfind {q : Addr} {i : SessionInfo DataT}
        (hq : (s.mem.modify p fun info => { info with stSessionData := data }).find q = some i) :
        ∃ i', s.mem.find q = some i' ∧ i'.dwSequence = i.dwSequence ∧ i'.dwTimerId = i.dwTimerId := by
      have hold := hview q
      rw [hq, Option.map_some] at hold
      obtain ⟨i', hi', he⟩ := Option.map_eq_some_iff.mp hold.symm
      exact ⟨i', hi', congrArg Prod.fst he, congrArg Prod.snd he⟩
    have hfind' {q : Addr} {i : SessionInfo DataT} (hq : s.mem.find q = some i) :
        ∃ i', (s.mem.modify p fun info => { info with stSessionData := data }).find q = some i' ∧
          i'.dwSequence = i.dwSequence ∧ i'.dwTimerId = i.dwTimerId := by
      have hnew := hview q
      rw [hq, Option.map_some] at hnew
      obtain ⟨i', hi', he⟩ := Option.map_eq_some_iff.mp hnew
      exact ⟨i', hi', congrArg Prod.fst he, congrArg Prod.snd he⟩
    constructor
    · intro t q hq
      obtain ⟨i, hi, his⟩ := h.node t q hq
      obtain ⟨i', hi', hs', -⟩ := hfind' hi
      exact ⟨i', hi', hs'.trans his⟩
    · intro q i hq
      obtain ⟨i', hi', hs', -⟩ := hfind hq
      exact hs' ▸ h.key q i' hi'
    · intro q i hq
      obtain ⟨i', hi', -⟩ := hfind hq
      exact h.born q i' hi'
    · intro q i hq hx
      obtain ⟨i', hi', -, hid⟩ := hfind hq
      exact hid ▸ h.timer q i' hi' hx
    · intro id q hm
      obtain ⟨⟨i, hi, hid⟩, hx⟩ := h.owned id q hm
      obtain ⟨i', hi', -, hid'⟩ := hfind' hi
      exact ⟨⟨i', hi', hid'.trans hid⟩, hx⟩
    · intro e he
      obtain ⟨i, hi⟩ := h.current e he
      obtain ⟨i', hi', -⟩ := hfind' hi
      exact ⟨i', hi'⟩
    · exact h.distinct
    · exact h.known

theorem nodes_otherSet (h : Nodes s expiring used) (hid : timerId ∉ used) :
    Nodes { s with timers := (timerId, none) :: s.timers } expiring (timerId :: used) where
  node := h.node
  key := h.key
  born := h.born
  timer := fun p info hp hx => List.mem_cons_of_mem _ (h.timer p info hp hx)
  owned := by
    intro id p hm
    rcases List.mem_cons.mp hm with he | hm
    · cases he
    · exact h.owned id p hm
  current := h.current
  distinct := h.fresh hid _
  known := by
    intro e he
    rcases List.mem_cons.mp he with rfl | he
    · exact List.mem_cons_self
    · exact List.mem_cons_of_mem _ (h.known e he)

theorem nodes_otherDrop (h : Nodes s expiring used) (hm : (timerId, none) ∈ s.timers) :
    Nodes { s with timers := s.timers.clear timerId } expiring used where
  node := h.node
  key := h.key
  born := h.born
  timer := by
    intro p info hp hx
    have hmem := h.timer p info hp hx
    refine Pending.mem_clear.mpr ⟨hmem, fun heq => ?_⟩
    have hid : info.dwTimerId = timerId := heq
    rw [hid] at hmem
    cases h.distinct.unique hmem hm
  owned := by
    intro id p hp
    exact h.owned id p (Pending.mem_clear.mp hp).1
  current := h.current
  distinct := h.distinct.clear _
  known := by
    intro e he
    exact h.known e (Pending.mem_clear.mp he).1

/-! ## The invariant -/

structure Inv (u : Run DataT) : Prop where
  nodes : Nodes u.session u.expiring u.used
  count : u.session.m_dwSequence.toNat = u.allocs
  bound : u.allocs < 2 ^ 32
  position : ∀ e ∈ u.expiring, e.iter ≤ u.session.m_stTimeoutCallback.length
  low : ∀ ev ∈ u.log, ev.1.toNat ≤ u.session.m_dwSequence.toNat
  life : ∀ t, Life (u.session.GetSessionData t) (u.session.ran u.expiring t) (u.history t)

variable {u u' : Run DataT}

theorem filter_low {log : List (Token × Event)} (h : ∀ ev ∈ log, ev.1 ≠ t) : log.filter (·.1 = t) = [] := by
  apply List.filter_eq_nil_iff.mpr
  intro ev hev heq
  exact h ev hev (of_decide_eq_true heq)

theorem history_add (log : List (Token × Event)) (t t' : Token) (ev : Event) :
    ((log ++ [(t', ev)]).filter (·.1 = t)).map Prod.snd =
      (log.filter (·.1 = t)).map Prod.snd ++ if t' = t then [ev] else [] := by
  rw [List.filter_append, List.map_append]
  congr 1
  by_cases h : t' = t <;> simp [h]

/-- The token of the next `Allocate` is new. -/
theorem Inv.next_new (h : Inv u) (hlt : u.allocs + 1 < 2 ^ 32) :
    (u.session.m_dwSequence + 1).toNat = u.session.m_dwSequence.toNat + 1 ∧
      u.history (u.session.m_dwSequence + 1) = [] ∧ u.session.GetSessionData (u.session.m_dwSequence + 1) = none := by
  have hnext : (u.session.m_dwSequence + 1).toNat = u.session.m_dwSequence.toNat + 1 := by
    have h1 : (1 : UInt32).toNat = 1 := rfl
    have hc := h.count
    rw [UInt32.toNat_add, h1]
    omega
  have hhist : u.history (u.session.m_dwSequence + 1) = [] := by
    rw [Run.history, filter_low]
    · rfl
    · intro ev hev heq
      have hle := h.low ev hev
      rw [heq, hnext] at hle
      omega
  refine ⟨hnext, hhist, ?_⟩
  have hlife := h.life (u.session.m_dwSequence + 1)
  rw [hhist] at hlife
  cases hd : u.session.GetSessionData (u.session.m_dwSequence + 1) with
  | none => rfl
  | some p =>
    rw [hd] at hlife
    cases hlife

theorem ran_of (s : Session DataT) (e : Expiry) (t : Token) :
    s.ran (some e) t = if s.GetSessionData t = some e.pInfo then s.m_stTimeoutCallback.take e.iter else [] := rfl

/-- Nothing ran on a session that does not expire. -/
theorem ran_of_ne (h : ∀ e ∈ expiring, s.GetSessionData t ≠ some e.pInfo) : s.ran expiring t = [] := by
  cases expiring with
  | none => rfl
  | some e => exact if_neg (h e rfl)

theorem ran_of_dead (expiring : Option Expiry) (h : s.GetSessionData t = none) : s.ran expiring t = [] := by
  apply ran_of_ne
  intro e _
  rw [h]
  exact nofun

theorem ran_congr {s' : Session DataT} (hdata : s'.GetSessionData t = s.GetSessionData t)
    (hcb : s'.m_stTimeoutCallback = s.m_stTimeoutCallback) : s'.ran expiring t = s.ran expiring t := by
  cases expiring with
  | none => rfl
  | some e => rw [ran_of, ran_of, hdata, hcb]

/-- An event of one token is not one of the others. -/
theorem life_add {t₀ : Token} {ev : Event}
    (h : ∀ t, Life (u.session.GetSessionData t) (u.session.ran u.expiring t) (u.history t))
    (hlog : u'.log = u.log ++ [(t₀, ev)])
    (hother : ∀ t, t ≠ t₀ → u'.session.GetSessionData t = u.session.GetSessionData t ∧
      u'.session.ran u'.expiring t = u.session.ran u.expiring t)
    (hself : Life (u'.session.GetSessionData t₀) (u'.session.ran u'.expiring t₀) (u.history t₀ ++ [ev])) (t : Token) :
    Life (u'.session.GetSessionData t) (u'.session.ran u'.expiring t) (u'.history t) := by
  rw [Run.history, hlog, history_add]
  by_cases ht : t = t₀
  · subst ht
    rw [if_pos rfl]
    exact hself
  · obtain ⟨hdata, hran⟩ := hother t ht
    rw [if_neg (Ne.symm ht), List.append_nil, hdata, hran]
    exact h t

/-- The run after an `Allocate`. -/
def Run.allocated (u : Run DataT) (pData : Option DataT) (garbage : SessionInfo DataT) (timerId : UInt32) :
    Run DataT where
  session := u.session.allocated pData garbage timerId
  expiring := u.expiring
  used := timerId :: u.used
  allocs := u.allocs + 1
  log := u.log ++ [(u.session.m_dwSequence + 1, .allocated (some u.session.brk))]

theorem allocated_self (hfree : s.GetSessionData (s.m_dwSequence + 1) = none) (pData : Option DataT)
    (garbage : SessionInfo DataT) (timerId : UInt32) :
    (s.allocated pData garbage timerId).GetSessionData (s.m_dwSequence + 1) = some s.brk := by
  rw [GetSessionData, allocated, OrdMap.find_insert]
  exact congrArg (fun o => some (Option.getD o _)) hfree

theorem allocated_ne (pData : Option DataT) (garbage : SessionInfo DataT) (timerId : UInt32)
    (ht : t ≠ s.m_dwSequence + 1) : (s.allocated pData garbage timerId).GetSessionData t = s.GetSessionData t :=
  OrdMap.find_insert_ne ht _

theorem allocate_eq (hfree : u.session.GetSessionData (u.session.m_dwSequence + 1) = none) (pData : Option DataT)
    (garbage : SessionInfo DataT) (timerId : UInt32) :
    u.allocate pData garbage timerId = u.allocated pData garbage timerId := by
  rw [Run.allocate, Allocate_eq hfree]
  simp only [allocated_self hfree]
  rfl

theorem inv_allocated (h : Inv u) (hid : timerId ∉ u.used) (hlt : u.allocs + 1 < 2 ^ 32) (pData : Option DataT)
    (garbage : SessionInfo DataT) : Inv (u.allocated pData garbage timerId) := by
  obtain ⟨hnext, hhist, hfree⟩ := h.next_new hlt
  have hself := allocated_self hfree pData garbage timerId
  -- what expires is not at the new address
  have hbrk : ∀ e ∈ u.expiring, some u.session.brk ≠ some e.pInfo := by
    intro e he heq
    obtain ⟨i, hi⟩ := h.nodes.current e he
    exact Nat.ne_of_lt (h.nodes.born _ i hi) (Option.some.inj heq).symm
  constructor
  · exact nodes_allocated h.nodes hfree hid pData garbage
  · exact hnext.trans (congrArg (· + 1) h.count)
  · exact hlt
  · exact h.position
  · intro ev hev
    refine Nat.le_trans ?_ (Nat.le_of_eq hnext.symm)
    rcases List.mem_append.mp hev with hev | hev
    · exact Nat.le_succ_of_le (h.low ev hev)
    · rw [List.mem_singleton.mp hev, hnext]
  · apply life_add h.life rfl
    · intro t ht
      have hdata := allocated_ne pData garbage timerId ht
      exact ⟨hdata, ran_congr hdata rfl⟩
    · have hran : (u.session.allocated pData garbage timerId).ran u.expiring (u.session.m_dwSequence + 1) = [] :=
        ran_of_ne fun e he => hself ▸ hbrk e he
      rw [hhist]
      simp only [Run.allocated, hself, hran]
      exact .live _ []

/-- The run after the live token `t` was deleted. -/
def Run.deleted (u : Run DataT) (t : Token) (info : SessionInfo DataT) : Run DataT :=
  { u with
    session := { u.session with timers := u.session.timers.clear info.dwTimerId }.erase t
    log := u.log ++ [(t, .deleted)] }

theorem delete_dead (ht : u.session.GetSessionData t = none) : u.delete t = some u := by
  have hD : u.session.Delete t = some u.session := by
    rw [Delete]
    rw [GetSessionData] at ht
    rw [ht]
  rw [Run.delete, hD, ht]
  rfl

theorem delete_live (ht : u.session.GetSessionData t = some p) (hp : u.session.mem.find p = some info) :
    u.delete t = some (u.deleted t info) := by
  have hD : u.session.Delete t = some ({ u.session with timers := u.session.timers.clear info.dwTimerId }.erase t) := by
    rw [Delete]
    rw [GetSessionData] at ht
    simp only [ht, hp]
    rfl
  rw [Run.delete, hD, ht]
  rfl

/-- Removing a token concerns no other. -/
theorem erase_data (ht : s.m_stSessionMap.find t = some p) :
    (s.erase t).GetSessionData t = none ∧ (∀ t', t' ≠ t → (s.erase t).GetSessionData t' = s.GetSessionData t') ∧
      (s.erase t).m_dwSequence = s.m_dwSequence ∧ (s.erase t).m_stTimeoutCallback = s.m_stTimeoutCallback := by
  rw [erase_eq ht]
  exact ⟨OrdMap.find_erase _ _, fun t' hne => OrdMap.find_erase_ne hne, rfl, rfl⟩

/-- Two tokens have two nodes. -/
theorem Nodes.token_unique (h : Nodes s expiring used) (ht : s.GetSessionData t = some p)
    (ht' : s.GetSessionData t' = some p) : t = t' := by
  obtain ⟨i, hi, his⟩ := h.node t p ht
  obtain ⟨j, hj, hjs⟩ := h.node t' p ht'
  rw [hi] at hj
  cases hj
  exact his.symm.trans hjs

/-- A live token is one that `Allocate` returned. -/
theorem Inv.live_low (h : Inv u) (ht : u.session.GetSessionData t = some p) :
    t.toNat ≤ u.session.m_dwSequence.toNat := by
  by_contra hlt
  have hlife := h.life t
  have hhist : u.history t = [] := by
    rw [Run.history, filter_low]
    · rfl
    · intro ev hev heq
      exact hlt (heq ▸ h.low ev hev)
  rw [hhist, ht] at hlife
  cases hlife

theorem low_add {log : List (Token × Event)} {n : Nat} {ev : Event} (h : ∀ ev ∈ log, ev.1.toNat ≤ n)
    (ht : t.toNat ≤ n) : ∀ e ∈ log ++ [(t, ev)], e.1.toNat ≤ n := by
  intro e he
  rcases List.mem_append.mp he with he | he
  · exact h e he
  · rw [List.mem_singleton.mp he]
    exact ht

theorem inv_deleted (h : Inv u) (ht : u.session.GetSessionData t = some p) (hp : u.session.mem.find p = some info)
    (hx : ∀ e ∈ u.expiring, e.pInfo ≠ p) : Inv (u.deleted t info) := by
  obtain ⟨hgone, hother, hseq, hcb⟩ :=
    @erase_data _ { u.session with timers := u.session.timers.clear info.dwTimerId } t p ht
  constructor
  · exact nodes_delete h.nodes ht hp hx
  · exact (congrArg UInt32.toNat hseq).trans h.count
  · exact h.bound
  · intro e he
    exact Nat.le_trans (h.position e he) (Nat.le_of_eq (congrArg List.length hcb).symm)
  · simp only [Run.deleted, hseq]
    exact low_add h.low (h.live_low ht)
  · apply life_add h.life rfl
    · intro t' hne
      exact ⟨hother t' hne, ran_congr (hother t' hne) hcb⟩
    · have hlife := h.life t
      have hran : u.session.ran u.expiring t = [] := by
        apply ran_of_ne
        intro e he heq
        exact hx e he (Option.some.inj (heq.symm.trans ht))
      simp only [Run.deleted, hgone, ran_of_dead u.expiring hgone]
      rw [ht, hran] at hlife
      generalize u.history t = hist at hlife
      cases hlife
      exact .deleted p

/-- The run after the callback `c` was called. -/
def Run.called (u : Run DataT) (e : Expiry) (c : Callback) (info : SessionInfo DataT) : Run DataT :=
  { u with
    expiring := some { e with iter := e.iter + 1 }
    log := u.log ++ [(info.dwSequence, .ran c e.pInfo)] }

theorem callback_eq {e : Expiry} {c : Callback} (he : u.expiring = some e) (hc : u.session.nextCallback e = some c)
    (hp : u.session.mem.find e.pInfo = some info) : u.callback = some (u.called e c info) := by
  rw [Run.callback, he]
  simp only [bind, Option.bind, hc, hp]
  rfl

/-- Other tokens have other nodes. -/
theorem Nodes.other (h : Nodes s expiring used) (hp : s.mem.find p = some info) (ht : t ≠ info.dwSequence) :
    s.GetSessionData t ≠ some p := by
  intro heq
  exact ht (h.token_unique heq (h.key p info hp))

theorem inv_called {e : Expiry} {c : Callback} (h : Inv u) (he : u.expiring = some e)
    (hc : u.session.nextCallback e = some c) (hp : u.session.mem.find e.pInfo = some info) :
    Inv (u.called e c info) := by
  have hnodes := h.nodes
  rw [he] at hnodes
  have ht : u.session.GetSessionData info.dwSequence = some e.pInfo := hnodes.key e.pInfo info hp
  obtain ⟨hlt, hget⟩ := List.getElem?_eq_some_iff.mp hc
  constructor
  · exact hnodes.advance
  · exact h.count
  · exact h.bound
  · intro x hx
    cases hx
    exact hlt
  · exact low_add h.low (h.live_low ht)
  · apply life_add h.life rfl
    · intro t' hne
      have hno := hnodes.other hp hne
      refine ⟨rfl, ?_⟩
      simp only [Run.called, he]
      rw [ran_of, ran_of, if_neg hno, if_neg hno]
    · have hlife := h.life info.dwSequence
      rw [ht, he, ran_of, if_pos ht] at hlife
      simp only [Run.called, ran_of]
      rw [nextCallback] at hc
      rw [ht, if_pos rfl, List.take_add_one, hc]
      generalize u.history info.dwSequence = hist at hlife
      cases hlife
      have hlive := Life.live e.pInfo (u.session.m_stTimeoutCallback.take e.iter ++ [c])
      rwa [List.map_append] at hlive

/-- The run after the last callback. -/
def Run.ended (u : Run DataT) (info : SessionInfo DataT) : Run DataT :=
  { u with
    session := u.session.erase info.dwSequence
    expiring := none
    log := u.log ++ [(info.dwSequence, .expired u.session.m_stTimeoutCallback)] }

theorem finish_eq {e : Expiry} (he : u.expiring = some e) (hp : u.session.mem.find e.pInfo = some info) :
    u.finish = some (u.ended info) := by
  rw [Run.finish, he]
  simp only [bind, Option.bind, endTimeout, hp]
  rfl

theorem inv_ended {e : Expiry} (h : Inv u) (he : u.expiring = some e) (hc : u.session.nextCallback e = none)
    (hp : u.session.mem.find e.pInfo = some info) : Inv (u.ended info) := by
  have hnodes := h.nodes
  rw [he] at hnodes
  have ht : u.session.GetSessionData info.dwSequence = some e.pInfo := hnodes.key e.pInfo info hp
  obtain ⟨hgone, hother, hseq, hcb⟩ := erase_data ht
  have hall : u.session.m_stTimeoutCallback.take e.iter = u.session.m_stTimeoutCallback :=
    List.take_of_length_le (List.getElem?_eq_none_iff.mp hc)
  constructor
  · exact nodes_finish hnodes hp
  · exact (congrArg UInt32.toNat hseq).trans h.count
  · exact h.bound
  · exact nofun
  · simp only [Run.ended, hseq]
    exact low_add h.low (h.live_low ht)
  · apply life_add h.life rfl
    · intro t' hne
      refine ⟨hother t' hne, ?_⟩
      rw [he, ran_of, if_neg (hnodes.other hp hne)]
      rfl
    · have hlife := h.life info.dwSequence
      rw [ht, he, ran_of, if_pos ht, hall] at hlife
      simp only [Run.ended, hgone, ran_of_dead none hgone]
      generalize u.history info.dwSequence = hist at hlife
      cases hlife
      exact .expired e.pInfo u.session.m_stTimeoutCallback

/-- A step that concerns no token. -/
theorem Inv.frame (h : Inv u) (hnodes : Nodes u'.session u'.expiring u'.used)
    (hseq : u'.session.m_dwSequence = u.session.m_dwSequence) (hallocs : u'.allocs = u.allocs)
    (hpos : ∀ e ∈ u'.expiring, e.iter ≤ u'.session.m_stTimeoutCallback.length) (hlog : u'.log = u.log)
    (hdata : ∀ t, u'.session.GetSessionData t = u.session.GetSessionData t)
    (hran : ∀ t, u'.session.ran u'.expiring t = u.session.ran u.expiring t) : Inv u' where
  nodes := hnodes
  count := by
    rw [hseq, hallocs]
    exact h.count
  bound := hallocs ▸ h.bound
  position := hpos
  low := by
    rw [hlog, hseq]
    exact h.low
  life := by
    intro t
    rw [Run.history, hlog, hdata, hran]
    exact h.life t

theorem put_frame (s : Session DataT) (t : Token) (data : DataT) :
    (s.put t data).m_dwSequence = s.m_dwSequence ∧ (s.put t data).m_stTimeoutCallback = s.m_stTimeoutCallback ∧
      ∀ t', (s.put t data).GetSessionData t' = s.GetSessionData t' := by
  rw [put]
  split <;> exact ⟨rfl, rfl, fun _ => rfl⟩

theorem inv_put (h : Inv u) (t : Token) (data : DataT) : Inv { u with session := u.session.put t data } := by
  obtain ⟨hseq, hcb, hdata⟩ := put_frame u.session t data
  apply h.frame (nodes_put h.nodes t data)
  · exact hseq
  · rfl
  · intro e he
    exact Nat.le_trans (h.position e he) (Nat.le_of_eq (congrArg List.length hcb).symm)
  · rfl
  · exact hdata
  · intro t'
    exact ran_congr (hdata t') hcb

/-- What ran is a part of the list that does not change. -/
theorem inv_registered (h : Inv u) (callback : Callback) :
    Inv { u with session := u.session.RegisterCallback callback } := by
  apply h.frame
  · exact { h.nodes with }
  · rfl
  · rfl
  · intro e he
    have hlen : (u.session.m_stTimeoutCallback ++ [callback]).length = u.session.m_stTimeoutCallback.length + 1 :=
      List.length_append
    exact Nat.le_trans (h.position e he) (hlen ▸ Nat.le_succ _)
  · rfl
  · intro t
    rfl
  · intro t
    cases he : u.expiring with
    | none => rfl
    | some e =>
      simp only [ran_of, RegisterCallback, List.take_append_of_le_length (h.position e he)]
      rfl

/-- The timer of a session fires; no callback was called yet. -/
theorem inv_expiring (h : Inv u) (hnone : u.expiring = none) (hm : (timerId, some p) ∈ u.session.timers) :
    Inv { u with session := { u.session with timers := u.session.timers.clear timerId }, expiring := some ⟨p, 0⟩ } := by
  have hnodes := h.nodes
  rw [hnone] at hnodes
  apply h.frame (nodes_expire hnodes hm)
  · rfl
  · rfl
  · intro e he
    cases he
    exact Nat.zero_le _
  · rfl
  · intro t
    rfl
  · intro t
    rw [hnone, ran_of]
    split
    · exact List.take_zero
    · rfl

/-- A `Delete` that is allowed is of a session that does not expire. -/
theorem not_expiring (h : Inv u) (hc : enabled u (.delete t)) (ht : u.session.GetSessionData t = some p) :
    ∀ e ∈ u.expiring, e.pInfo ≠ p := by
  intro e he heq
  obtain ⟨info, hp, hseq⟩ := h.nodes.node t p ht
  exact hc e he info (heq ▸ hp) hseq

/-- The session that expires is there. -/
theorem Inv.expiring_node (h : Inv u) {e : Expiry} (he : u.expiring = some e) :
    ∃ info, u.session.mem.find e.pInfo = some info := h.nodes.current e he

theorem call_total {c : Call DataT} (h : Inv u) (hc : enabled u c) : ∃ u', call u c = some u' := by
  cases c with
  | delete t =>
    cases ht : u.session.GetSessionData t with
    | none => exact ⟨_, delete_dead ht⟩
    | some p =>
      obtain ⟨info, hp, -⟩ := h.nodes.node t p ht
      exact ⟨_, delete_live ht hp⟩
  | callback =>
    obtain ⟨e, he, hsome⟩ := hc
    obtain ⟨info, hp⟩ := h.expiring_node he
    obtain ⟨c, hnext⟩ := Option.isSome_iff_exists.mp hsome
    exact ⟨_, callback_eq he hnext hp⟩
  | finish =>
    obtain ⟨e, he, -⟩ := hc
    obtain ⟨info, hp⟩ := h.expiring_node he
    exact ⟨_, finish_eq he hp⟩
  | allocate pData garbage timerId => exact ⟨_, rfl⟩
  | put t data => exact ⟨_, rfl⟩
  | setSessionTimeout timeout => exact ⟨_, rfl⟩
  | registerCallback callback => exact ⟨_, rfl⟩
  | expire timerId p => exact ⟨_, rfl⟩
  | otherSet timerId => exact ⟨_, rfl⟩
  | otherDrop timerId => exact ⟨_, rfl⟩

theorem inv_call {c : Call DataT} (h : Inv u) (hc : enabled u c) (hs : call u c = some u') : Inv u' := by
  cases c with
  | allocate pData garbage timerId =>
    cases hs
    rw [allocate_eq (h.next_new hc.2).2.2]
    exact inv_allocated h hc.1 hc.2 pData garbage
  | delete t =>
    cases ht : u.session.GetSessionData t with
    | none =>
      obtain rfl := Option.some.inj ((delete_dead ht).symm.trans hs)
      exact h
    | some p =>
      obtain ⟨info, hp, -⟩ := h.nodes.node t p ht
      obtain rfl := Option.some.inj ((delete_live ht hp).symm.trans hs)
      exact inv_deleted h ht hp (not_expiring h hc ht)
  | put t data =>
    cases hs
    exact inv_put h t data
  | setSessionTimeout timeout =>
    cases hs
    exact { h with nodes := { h.nodes with } }
  | registerCallback callback =>
    cases hs
    exact inv_registered h callback
  | expire timerId p =>
    cases hs
    exact inv_expiring h hc.1 hc.2
  | callback =>
    obtain ⟨e, he, hsome⟩ := hc
    obtain ⟨info, hp⟩ := h.expiring_node he
    obtain ⟨c, hnext⟩ := Option.isSome_iff_exists.mp hsome
    obtain rfl := Option.some.inj ((callback_eq he hnext hp).symm.trans hs)
    exact inv_called h he hnext hp
  | finish =>
    obtain ⟨e, he, hnext⟩ := hc
    obtain ⟨info, hp⟩ := h.expiring_node he
    obtain rfl := Option.some.inj ((finish_eq he hp).symm.trans hs)
    exact inv_ended h he hnext hp
  | otherSet timerId =>
    cases hs
    exact { h with nodes := nodes_otherSet h.nodes hc }
  | otherDrop timerId =>
    cases hs
    exact { h with nodes := nodes_otherDrop h.nodes hc }

theorem nodes_new : Nodes ({} : Session DataT) none [] where
  node := nofun
  key := nofun
  born := nofun
  timer := nofun
  owned := nofun
  current := nofun
  distinct := .nil
  known := nofun

theorem inv_inductive : (sessions DataT).Inductive Inv where
  init := by
    intro u hu
    cases hu
    exact ⟨nodes_new, rfl, Nat.two_pow_pos 32, nofun, nofun, fun _ => .unborn⟩
  step := by
    intro u c u' h hs
    exact inv_call h hs.1 hs.2

/-! ## Runs -/

/-- The pending timers of a session in no callback are those of its nodes. -/
theorem Nodes.paired (h : Nodes s none used) : Paired s := by
  have htimer (t : Live s) : ∃ e : Waiting s, s.GetSessionData t.val = some e.val.2 := by
    obtain ⟨p, hp⟩ := Option.isSome_iff_exists.mp t.property
    obtain ⟨info, hi, -⟩ := h.node t.val p hp
    exact ⟨⟨(info.dwTimerId, p), h.timer p info hi nofun⟩, hp⟩
  choose f hf using htimer
  refine ⟨h.distinct, f, ⟨fun t t' heq => ?_, fun e => ?_⟩, hf⟩
  · apply Subtype.ext
    exact h.token_unique (hf t) (heq ▸ hf t')
  · obtain ⟨⟨id, p⟩, hm⟩ := e
    obtain ⟨⟨info, hp, hid⟩, -⟩ := h.owned id p hm
    have ht : s.GetSessionData info.dwSequence = some p := h.key p info hp
    have hlive : (s.GetSessionData info.dwSequence).isSome := by
      rw [ht]
      rfl
    refine ⟨⟨info.dwSequence, hlive⟩, Subtype.ext ?_⟩
    have hfp : (f ⟨info.dwSequence, hlive⟩).val.2 = p := Option.some.inj ((hf ⟨_, hlive⟩).symm.trans ht)
    obtain ⟨⟨i, hi, hid'⟩, -⟩ := h.owned _ _ (f ⟨info.dwSequence, hlive⟩).property
    rw [hfp, hp] at hi
    cases hi
    exact Prod.ext (hid'.symm.trans hid) hfp

/-- In every run, between operations each live token has one pending timer and each pending timer a live
token; every token lives one `Life`; and no call faults. -/
theorem session_run {u : Run DataT} (hr : (sessions DataT).Reachable u) :
    (u.expiring = none → Paired u.session) ∧
      (∀ t, Life (u.session.GetSessionData t) (u.session.ran u.expiring t) (u.history t)) ∧
      ∀ c, enabled u c → ∃ u', call u c = some u' := by
  have h := inv_inductive.reachable u hr
  refine ⟨fun he => ?_, h.life, fun c hc => call_total h hc⟩
  have hnodes := h.nodes
  rw [he] at hnodes
  exact hnodes.paired

/-- Two sessions expire; the first's callback deletes the second and allocates a third. -/
def nestedCalls : List (Call Nat) :=
  [.registerCallback 7, .allocate (some 5) ⟨0, 0, 0⟩ 1, .allocate none ⟨6, 0, 0⟩ 2, .expire 1 0, .callback, .delete 2,
    .allocate none ⟨0, 0, 0⟩ 3, .finish]

theorem session_run_nested : ∃ u : Run Nat, (sessions Nat).Reachable u ∧
    u.history 1 = [.allocated (some 0), .ran 7 0, .expired [7]] ∧ u.history 2 = [.allocated (some 1), .deleted] ∧
    Paired u.session := by
  have hrun : (nestedCalls.foldlM (LTS.checked enabled call) ({} : Run Nat)).map
      (fun u => (u.history 1, u.history 2, u.expiring.isNone)) =
      some ([.allocated (some 0), .ran 7 0, .expired [7]], [.allocated (some 1), .deleted], true) := by decide
  obtain ⟨u, hu, hv⟩ := Option.map_eq_some_iff.mp hrun
  obtain ⟨h1, hv⟩ := Prod.mk.inj hv
  obtain ⟨h2, hnone⟩ := Prod.mk.inj hv
  have hr : (sessions Nat).Reachable u :=
    LTS.Reachable.checked (fun _ _ _ => And.intro) nestedCalls (.init rfl) hu
  exact ⟨u, hr, h1, h2, (session_run hr).1 (Option.isNone_iff_eq_none.mp hnone)⟩

end SimpleSvr.L5.Session
