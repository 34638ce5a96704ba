import SimpleSvr.L5App.SessionRun

/-!
# What callbacks do to the session that expires

`OnSessionTimeout` holds a pointer to its record while the callbacks run, and
nothing holds the record: a callback may delete any token, or throw, and a token
or a timer's id may come back. Where a run has none of this (`Harmless`), the
record is in the map as long as the pointer is used, and the records that are
gone are those that expired or were deleted.
-/
namespace SimpleSvr.L5.Session
open SimpleSvr.L2 (Pending)

variable {DataT : Type}

/-- `throws` is the callback that runs; it leaves `OnSessionTimeout` as well. -/
inductive Act (DataT : Type) where
  | call (c : Call DataT)
  | throws

/-- A session in use; `due` are the records whose `OnSessionTimeout` was entered, `dropped` those that a
`Delete` found. -/
structure Watch (DataT : Type) extends Run DataT where
  due : List Addr := []
  dropped : List Addr := []

def Call.entered : Call DataT → List Addr
  | .expire _ pInfo => [pInfo]
  | _ => []

def Call.drops (s : Session DataT) : Call DataT → List Addr
  | .delete dwToken => (s.GetSessionData dwToken).toList
  | _ => []

/-- Any token may be deleted at any time and any id may come from `SetTimeout`. -/
def may (w : Watch DataT) : Act DataT → Prop
  | .call (.allocate ..) | .call (.delete _) | .call (.otherSet _) => True
  | .call c => enabled w.toRun c
  | .throws => ∃ e ∈ w.expiring, 0 < e.iter

def act (w : Watch DataT) : Act DataT → Option (Watch DataT)
  | .call c => do
    let u ← call w.toRun c
    some { toRun := u, due := c.entered ++ w.due, dropped := c.drops w.session ++ w.dropped }
  | .throws => some { w with expiring := none }

def expiries (DataT : Type) : LTS (Watch DataT) (Act DataT) where
  init w := w = {}
  step w a w' := may w a ∧ act w a = some w'

/-- The session that expires is not deleted, no callback throws, and a new token and a new id are not in
use. -/
def Harmless (w : Watch DataT) : Act DataT → Prop
  | .call (.allocate _ _ timerId) =>
    w.session.GetSessionData (w.session.m_dwSequence + 1) = none ∧ timerId ∉ w.session.timers.map Prod.fst
  | .call (.delete dwToken) => ∀ e ∈ w.expiring, w.session.GetSessionData dwToken ≠ some e.pInfo
  | .call (.otherSet timerId) => timerId ∉ w.session.timers.map Prod.fst
  | .call _ => True
  | .throws => False

instance (w : Watch DataT) : (a : Act DataT) → Decidable (may w a)
  | .call (.expire timerId pInfo) => inferInstanceAs (Decidable (enabled w.toRun (.expire timerId pInfo)))
  | .call .callback => inferInstanceAs (Decidable (enabled w.toRun .callback))
  | .call .finish => inferInstanceAs (Decidable (enabled w.toRun .finish))
  | .call (.otherDrop timerId) => inferInstanceAs (Decidable (enabled w.toRun (.otherDrop timerId)))
  | .call (.allocate ..) | .call (.delete _) | .call (.otherSet _) | .call (.put ..)
  | .call (.setSessionTimeout _) | .call (.registerCallback _) => inferInstanceAs (Decidable True)
  | .throws => inferInstanceAs (Decidable (∃ _ ∈ _, _))

instance (w : Watch DataT) : (a : Act DataT) → Decidable (Harmless w a)
  | .call (.allocate ..) =>
    decidable_of_iff ((w.session.GetSessionData (w.session.m_dwSequence + 1)).isNone ∧ _)
      (and_congr_left' Option.isNone_iff_eq_none)
  | .call (.delete _) => inferInstanceAs (Decidable (∀ _ ∈ _, _))
  | .call (.otherSet _) => inferInstanceAs (Decidable (_ ∉ _))
  | .call (.put ..) | .call (.setSessionTimeout _) | .call (.registerCallback _) | .call (.expire ..)
  | .call .callback | .call .finish | .call (.otherDrop _) => inferInstanceAs (Decidable True)
  | .throws => inferInstanceAs (Decidable False)

/-- The record of `OnSessionTimeout` is in the map while the pointer is used, the records that left the map
are those that a `Delete` found or whose `OnSessionTimeout` is over, and every record that is read is there. -/
structure Safe (w : Watch DataT) : Prop where
  present : ∀ e ∈ w.expiring, ∃ info, w.session.mem.find e.pInfo = some info ∧
    w.session.GetSessionData info.dwSequence = some e.pInfo
  kept : ∀ p < w.session.brk, (∃ t, w.session.GetSessionData t = some p) ↔
    p ∉ w.dropped ∧ (p ∈ w.due → ∃ e ∈ w.expiring, e.pInfo = p)
  reads : ∀ a, may w a → ∃ w', act w a = some w'

/-! ## The invariant -/

variable {s s' : Session DataT} {expiring expiring' : Option Expiry} {used : List UInt32} {t : Token} {p : Addr}
  {info : SessionInfo DataT} {timerId : UInt32} {due dropped : List Addr} {w w' : Watch DataT}

/-- An id that is not pending may be used again. -/
theorem Nodes.forget (h : Nodes s expiring used) : Nodes s expiring (s.timers.map Prod.fst) :=
  { h with known := fun _ he => List.mem_map_of_mem he }

/-- The records that are there: not dropped, and their `OnSessionTimeout` is not over. -/
structure Kept (s : Session DataT) (expiring : Option Expiry) (due dropped : List Addr) : Prop where
  nodes : Nodes s expiring (s.timers.map Prod.fst)
  kept : ∀ p, (s.mem.find p).isSome ↔ p < s.brk ∧ p ∉ dropped ∧ (p ∈ due → ∃ e ∈ expiring, e.pInfo = p)
  entered : ∀ e ∈ expiring, e.pInfo ∈ due
  old : ∀ p, p ∈ due ∨ p ∈ dropped → p < s.brk

/-- A step that frees and allocates nothing. -/
theorem Kept.frame (h : Kept s expiring due dropped) (hn : Nodes s' expiring' used)
    (hmem : ∀ p, (s'.mem.find p).isSome = (s.mem.find p).isSome) (hbrk : s'.brk = s.brk)
    (hx : ∀ p, (∃ e ∈ expiring', e.pInfo = p) ↔ ∃ e ∈ expiring, e.pInfo = p) : Kept s' expiring' due dropped where
  nodes := hn.forget
  kept := by
    intro p
    rw [hmem, hbrk, hx]
    exact h.kept p
  entered := by
    intro e he
    obtain ⟨e₀, he₀, heq⟩ := (hx e.pInfo).mp ⟨e, he, rfl⟩
    exact heq ▸ h.entered e₀ he₀
  old := by
    intro p hp
    rw [hbrk]
    exact h.old p hp

theorem kept_allocated (h : Kept s expiring due dropped) (hfree : s.GetSessionData (s.m_dwSequence + 1) = none)
    (hid : timerId ∉ s.timers.map Prod.fst) (pData : Option DataT) (garbage : SessionInfo DataT) :
    Kept (s.allocated pData garbage timerId) expiring due dropped where
  nodes := (nodes_allocated h.nodes hfree hid pData garbage).forget
  kept := by
    intro p
    have hbrk : (s.allocated pData garbage timerId).brk = s.brk + 1 := rfl
    by_cases hp : p = s.brk
    · have hnew : ¬ (p ∈ due ∨ p ∈ dropped) := fun hm => Nat.ne_of_lt (h.old p hm) hp
      obtain ⟨hdue, hdropped⟩ := not_or.mp hnew
      have hsome : ((s.allocated pData garbage timerId).mem.find p).isSome := by
        rw [hp, allocated, OrdMap.find_modify, OrdMap.find_insert]
        rfl
      rw [hbrk]
      exact iff_of_true hsome ⟨Nat.lt_succ_of_le (Nat.le_of_eq hp), hdropped, fun hm => absurd hm hdue⟩
    · have hmem : (s.allocated pData garbage timerId).mem.find p = s.mem.find p := by
        rw [allocated, OrdMap.find_modify_ne hp, OrdMap.find_insert_ne hp]
      rw [hmem, h.kept p, hbrk]
      exact and_congr_left fun _ => (Nat.lt_succ_iff_lt_or_eq.trans (or_iff_left hp)).symm
  entered := h.entered
  old := fun p hp => Nat.lt_succ_of_lt (h.old p hp)

/-- A record that is erased leaves the others alone. -/
theorem find_erase_isSome (ht : s.m_stSessionMap.find t = some p) (q : Addr) :
    ((s.erase t).mem.find q).isSome ↔ q ≠ p ∧ (s.mem.find q).isSome := by
  rw [erase_eq ht]
  by_cases hq : q = p
  · subst hq
    simp [OrdMap.find_erase]
  · simp [OrdMap.find_erase_ne hq, hq]

theorem erase_brk (s : Session DataT) (t : Token) : (s.erase t).brk = s.brk := by
  rw [erase]
  split <;> rfl

theorem kept_deleted (h : Kept s expiring due dropped) (ht : s.GetSessionData t = some p)
    (hp : s.mem.find p = some info) (hx : ∀ e ∈ expiring, e.pInfo ≠ p) :
    Kept ({ s with timers := s.timers.clear info.dwTimerId }.erase t) expiring due (p :: dropped) where
  nodes := (nodes_delete h.nodes ht hp hx).forget
  kept := by
    intro q
    have hfind := @find_erase_isSome _ { s with timers := s.timers.clear info.dwTimerId } t p ht q
    rw [hfind, erase_brk, h.kept q, List.mem_cons, not_or]
    tauto
  entered := h.entered
  old := by
    intro q hq
    rw [erase_brk]
    rcases hq with hq | hq
    · exact h.old q (.inl hq)
    · rcases List.mem_cons.mp hq with rfl | hq
      · exact h.nodes.born _ _ hp
      · exact h.old q (.inr hq)

theorem kept_expiring (h : Kept s none due dropped) (hm : (timerId, some p) ∈ s.timers) :
    Kept { s with timers := s.timers.clear timerId } (some ⟨p, 0⟩) (p :: due) dropped where
  nodes := (nodes_expire h.nodes hm).forget
  kept := by
    intro q
    obtain ⟨⟨info, hp, -⟩, -⟩ := h.nodes.owned timerId p hm
    have hq := h.kept q
    by_cases heq : q = p
    · subst heq
      rw [hp] at hq
      obtain ⟨hlt, hdropped, -⟩ := hq.mp rfl
      exact iff_of_true (by rw [hp]; rfl) ⟨hlt, hdropped, fun _ => ⟨_, rfl, rfl⟩⟩
    · refine hq.trans (and_congr_right fun _ => and_congr_right fun _ => ?_)
      have hne : ¬ ∃ e ∈ (some ⟨p, 0⟩ : Option Expiry), e.pInfo = q := by
        intro hex
        obtain ⟨e, he, hq⟩ := hex
        cases he
        exact heq hq.symm
      have hnone : ¬ ∃ e ∈ (none : Option Expiry), e.pInfo = q := by simp
      simp only [List.mem_cons, heq, false_or, hne, hnone]
  entered := by
    intro e he
    cases he
    exact List.mem_cons_self
  old := by
    intro q hq
    obtain ⟨⟨info, hp, -⟩, -⟩ := h.nodes.owned timerId p hm
    rcases hq with hq | hq
    · rcases List.mem_cons.mp hq with rfl | hq
      · exact h.nodes.born _ _ hp
      · exact h.old q (.inl hq)
    · exact h.old q (.inr hq)

theorem kept_ended {e : Expiry} (h : Kept s (some e) due dropped) (hp : s.mem.find e.pInfo = some info) :
    Kept (s.erase info.dwSequence) none due dropped where
  nodes := (nodes_finish h.nodes hp).forget
  kept := by
    intro q
    rw [find_erase_isSome (h.nodes.key e.pInfo info hp), erase_brk, h.kept q]
    have hdue := h.entered e rfl
    constructor
    · intro hq
      obtain ⟨hne, hlt, hdropped, hover⟩ := hq
      refine ⟨hlt, hdropped, fun hm => ?_⟩
      obtain ⟨e', he', heq⟩ := hover hm
      cases he'
      exact absurd heq.symm hne
    · intro hq
      obtain ⟨hlt, hdropped, hover⟩ := hq
      have hno : q ∉ due := by
        intro hm
        obtain ⟨_, he', -⟩ := hover hm
        cases he'
      exact ⟨fun heq => hno (heq ▸ hdue), hlt, hdropped, fun hm => absurd hm hno⟩
  entered := nofun
  old := by
    intro q hq
    rw [erase_brk]
    exact h.old q hq

theorem put_isSome (s : Session DataT) (t : Token) (data : DataT) (q : Addr) :
    ((s.put t data).mem.find q).isSome = (s.mem.find q).isSome := by
  rw [put]
  split
  · rfl
  · next p _ =>
    by_cases hq : q = p
    · subst hq
      simp [OrdMap.find_modify]
    · simp only [OrdMap.find_modify_ne hq]

theorem put_brk (s : Session DataT) (t : Token) (data : DataT) : (s.put t data).brk = s.brk := by
  rw [put]
  split <;> rfl

/-! ## Steps -/

/-- A deletion that is harmless is of another record than the one that expires. -/
theorem not_the_expiring (hc : Harmless w (.call (.delete t))) (ht : w.session.GetSessionData t = some p) :
    ∀ e ∈ w.expiring, e.pInfo ≠ p := by
  intro e he heq
  exact hc e he (heq ▸ ht)

def Watch.Ok (w : Watch DataT) : Prop := Kept w.session w.expiring w.due w.dropped

theorem act_call {c : Call DataT} {u : Run DataT} (h : call w.toRun c = some u) :
    act w (.call c) = some { toRun := u, due := c.entered ++ w.due, dropped := c.drops w.session ++ w.dropped } := by
  rw [act, h]
  rfl

theorem act_eq {c : Call DataT} {u : Run DataT} (hs : act w (.call c) = some w') (h : call w.toRun c = some u) :
    w' = { toRun := u, due := c.entered ++ w.due, dropped := c.drops w.session ++ w.dropped } :=
  Option.some.inj (hs.symm.trans (act_call h))

theorem act_total (h : w.Ok) {a : Act DataT} (ha : may w a) : ∃ w', act w a = some w' := by
  cases a with
  | throws => exact ⟨_, rfl⟩
  | call c =>
    suffices hu : ∃ u, call w.toRun c = some u by
      obtain ⟨u, hu⟩ := hu
      exact ⟨_, act_call hu⟩
    cases c with
    | delete t =>
      cases ht : w.session.GetSessionData t with
      | none => exact ⟨_, delete_dead ht⟩
      | some p =>
        obtain ⟨info, hp, -⟩ := h.nodes.node t p ht
        exact ⟨_, delete_live ht hp⟩
    | callback =>
      obtain ⟨e, he, hsome⟩ := ha
      obtain ⟨info, hp⟩ := h.nodes.current e he
      obtain ⟨c, hnext⟩ := Option.isSome_iff_exists.mp hsome
      exact ⟨_, callback_eq he hnext hp⟩
    | finish =>
      obtain ⟨e, he, -⟩ := ha
      obtain ⟨info, hp⟩ := h.nodes.current e he
      exact ⟨_, finish_eq he hp⟩
    | _ => exact ⟨_, rfl⟩

theorem ok_delete (h : w.Ok) (hc : Harmless w (.call (.delete t))) (hs : act w (.call (.delete t)) = some w') :
    w'.Ok := by
  cases ht : w.session.GetSessionData t with
  | none =>
    obtain rfl := act_eq hs (delete_dead ht)
    simp only [Watch.Ok, Call.drops, ht]
    exact h
  | some p =>
    obtain ⟨info, hp, -⟩ := h.nodes.node t p ht
    obtain rfl := act_eq hs (delete_live ht hp)
    simp only [Watch.Ok, Call.drops, ht]
    exact kept_deleted h ht hp (not_the_expiring hc ht)

theorem ok_callback (h : w.Ok) (hc : may w (.call .callback)) (hs : act w (.call .callback) = some w') : w'.Ok := by
  obtain ⟨e, he, hsome⟩ := hc
  obtain ⟨info, hp⟩ := h.nodes.current e he
  obtain ⟨c, hnext⟩ := Option.isSome_iff_exists.mp hsome
  obtain rfl := act_eq hs (callback_eq he hnext hp)
  rw [Watch.Ok, he] at h
  apply h.frame h.nodes.advance
  · intro q
    rfl
  · rfl
  · intro q
    simp

theorem ok_finish (h : w.Ok) (hc : may w (.call .finish)) (hs : act w (.call .finish) = some w') : w'.Ok := by
  obtain ⟨e, he, -⟩ := hc
  obtain ⟨info, hp⟩ := h.nodes.current e he
  obtain rfl := act_eq hs (finish_eq he hp)
  rw [Watch.Ok, he] at h
  exact kept_ended h hp

/-- What one step keeps. -/
theorem ok_act {a : Act DataT} (h : w.Ok) (hc : Harmless w a) (ha : may w a) (hs : act w a = some w') : w'.Ok := by
  cases a with
  | throws => exact hc.elim
  | call c =>
    cases c with
    | allocate pData garbage timerId =>
      cases hs
      have heq := allocate_eq hc.1 pData garbage timerId
      simp only [Watch.Ok, heq]
      exact kept_allocated h hc.1 hc.2 pData garbage
    | delete t => exact ok_delete h hc hs
    | put t data =>
      cases hs
      exact h.frame (nodes_put h.nodes t data) (put_isSome _ t data) (put_brk _ t data) fun _ => .rfl
    | setSessionTimeout timeout =>
      cases hs
      exact h.frame { h.nodes with } (fun _ => rfl) rfl fun _ => .rfl
    | registerCallback callback =>
      cases hs
      exact h.frame { h.nodes with } (fun _ => rfl) rfl fun _ => .rfl
    | expire timerId p =>
      cases hs
      obtain ⟨hnone, hm⟩ := ha
      rw [Watch.Ok, hnone] at h
      exact kept_expiring h hm
    | callback => exact ok_callback h ha hs
    | finish => exact ok_finish h ha hs
    | otherSet timerId =>
      cases hs
      exact h.frame (nodes_otherSet h.nodes hc) (fun _ => rfl) rfl fun _ => .rfl
    | otherDrop timerId =>
      cases hs
      exact h.frame (nodes_otherDrop h.nodes ha) (fun _ => rfl) rfl fun _ => .rfl

theorem ok_inductive : ((expiries DataT).guard Harmless).Inductive Watch.Ok where
  init := by
    intro w hw
    cases hw
    refine ⟨nodes_new, fun p => ?_, nofun, nofun⟩
    exact iff_of_false Bool.false_ne_true fun h => Nat.not_lt_zero p h.1
  step := by
    intro w a w' h hs
    exact ok_act h hs.1 hs.2.1 hs.2.2

/-- A record is in the map where its token is. -/
theorem Nodes.in_map (h : Nodes s expiring used) (p : Addr) :
    (∃ t, s.GetSessionData t = some p) ↔ (s.mem.find p).isSome := by
  constructor
  · intro hex
    obtain ⟨t, ht⟩ := hex
    obtain ⟨info, hp, -⟩ := h.node t p ht
    rw [hp]
    rfl
  · intro hsome
    obtain ⟨info, hp⟩ := Option.isSome_iff_exists.mp hsome
    exact ⟨_, h.key p info hp⟩

/-! ## Runs -/

/-- In every run of harmless steps the record that expires is there as long as it is read, and it and what
was deleted are all that goes. -/
theorem expiry_safe {w : Watch DataT} (hr : ((expiries DataT).guard Harmless).Reachable w) : Safe w := by
  have h : w.Ok := ok_inductive.reachable w hr
  constructor
  · intro e he
    obtain ⟨info, hp⟩ := h.nodes.current e he
    exact ⟨info, hp, h.nodes.key e.pInfo info hp⟩
  · intro p hlt
    rw [h.nodes.in_map, h.kept]
    exact and_iff_right hlt
  · intro a ha
    exact act_total h ha

theorem expiry_safe_nested : ∃ w : Watch Nat, ((expiries Nat).guard Harmless).Reachable w ∧ w.due = [0] ∧
    w.dropped = [1] ∧ Safe w := by
  have hrun : ((nestedCalls.map Act.call).foldlM (LTS.checked (fun w a => Harmless w a ∧ may w a) act)
      ({} : Watch Nat)).map (fun w => (w.due, w.dropped)) = some ([0], [1]) := by decide
  obtain ⟨w, hw, hv⟩ := Option.map_eq_some_iff.mp hrun
  obtain ⟨hdue, hdropped⟩ := Prod.mk.inj hv
  have hr : ((expiries Nat).guard Harmless).Reachable w :=
    LTS.Reachable.checked_guard (fun _ _ _ => And.intro) (nestedCalls.map Act.call) (.init rfl) hw
  exact ⟨w, hr, hdue, hdropped, expiry_safe hr⟩

/-- The first of two callbacks deletes the session that expires. -/
def ownCalls : List (Call Nat) :=
  [.registerCallback 7, .registerCallback 8, .allocate (some 5) ⟨0, 0, 0⟩ 1, .expire 1 0, .callback, .delete 1]

theorem own_deletion : ∃ w : Watch Nat, (expiries Nat).Reachable w ∧ may w (.call .callback) ∧
    act w (.call .callback) = none ∧ ¬ Safe w := by
  have hrun : ((ownCalls.map Act.call).foldlM (LTS.checked may act) ({} : Watch Nat)).map
      (fun w => (decide (may w (.call .callback)), (act w (.call .callback)).isNone)) = some (true, true) := by decide
  obtain ⟨w, hw, hv⟩ := Option.map_eq_some_iff.mp hrun
  obtain ⟨hmay, hnone⟩ := Prod.mk.inj hv
  have hmay := of_decide_eq_true hmay
  have hnone := Option.isNone_iff_eq_none.mp hnone
  have hr : (expiries Nat).Reachable w :=
    LTS.Reachable.checked (fun _ _ _ => And.intro) (ownCalls.map Act.call) (.init rfl) hw
  refine ⟨w, hr, hmay, hnone, fun hsafe => ?_⟩
  obtain ⟨w', hw'⟩ := hsafe.reads _ hmay
  rw [hnone] at hw'
  cases hw'

end SimpleSvr.L5.Session
