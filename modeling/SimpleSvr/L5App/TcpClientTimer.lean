import SimpleSvr.L5App.TcpClient

/-!
# Connect timers

`Disconnect` and a completed `Connect` cancel the timer that is pending. `Close`
does not, and neither does a `Connect` that finds a timer of an earlier attempt.
`Clean` excludes that; then there is at most one timer, the one that the field
names, and none when the client is connected (`timer_run`).
-/
namespace SimpleSvr.L5.TcpClient
open SimpleSvr.L2 (Pending)

variable {CacheSize : UInt32}

/-- One timer of the client is pending, the one that the field names, or none and the field is 0. -/
structure Kept (u : Run CacheSize) : Prop where
  distinct : u.timers.Distinct
  field : ∀ id, (id, true) ∈ u.timers ↔ id = u.client.m_AsyncConnectTimerId ∧ id ≠ 0
  none : u.connected = true → u.client.m_AsyncConnectTimerId = 0

/-- A `connect` that succeeds finds no timer pending; and one that sets a timer is not on the socket
of a client that is connected. -/
def Clean (u : Run CacheSize) : Label → Prop
  | .connect fd ok => ok = true → (u.openSocket fd).isSome → u.client.m_AsyncConnectTimerId = 0
  | .connectTimeout fd ok _ =>
    ok = true → (u.openSocket fd).isSome → u.client.m_AsyncConnectTimerId = 0 ∧ u.connected = false
  | .ret _ fd ok =>
    u.stack.head? = some (.close true) → ok = true → fd.isSome → u.client.m_AsyncConnectTimerId = 0
  | _ => True

/-! ## The invariant -/

structure Inv (u : Run CacheSize) : Prop where
  kept : Kept u
  known : ∀ e ∈ u.timers, e.1 ∈ u.used ∧ e.1 ≠ 0

variable {u u' u₁ : Run CacheSize} {fd : Option Nat} {ok : Bool} {timerId : UInt32}

/-- What the timers are about is the same. -/
theorem Inv.same (h : Inv u) (htimers : u'.timers = u.timers)
    (hfield : u'.client.m_AsyncConnectTimerId = u.client.m_AsyncConnectTimerId) (hused : u'.used = u.used)
    (hconn : u'.connected = true → u.client.m_AsyncConnectTimerId = 0) : Inv u' where
  kept := by
    refine ⟨htimers ▸ h.kept.distinct, fun id => ?_, fun hc => ?_⟩
    · rw [htimers, hfield]
      exact h.kept.field id
    · rw [hfield]
      exact hconn hc
  known := by
    rw [htimers, hused]
    exact h.known

/-- No timer of the client is left. -/
theorem Inv.cleared (h : Inv u) (htimers : u'.timers = u.timers.clear u.client.m_AsyncConnectTimerId)
    (hfield : u'.client.m_AsyncConnectTimerId = 0) (hused : u'.used = u.used) : Inv u' where
  kept := by
    refine ⟨htimers ▸ h.kept.distinct.clear _, fun id => ?_, fun _ => hfield⟩
    rw [htimers, hfield, Pending.mem_clear, h.kept.field]
    refine iff_of_false (fun hm => hm.2 hm.1.1) (fun hm => hm.2 hm.1)
  known := by
    rw [htimers, hused]
    intro e he
    exact h.known e (Pending.mem_clear.mp he).1

theorem openSocket_frame (h : u.openSocket fd = some u₁) :
    u₁.timers = u.timers ∧ u₁.client.m_AsyncConnectTimerId = u.client.m_AsyncConnectTimerId ∧ u₁.used = u.used ∧
      u₁.connected = u.connected := by
  rw [Run.openSocket] at h
  split at h
  · cases h
    exact ⟨rfl, rfl, rfl, rfl⟩
  · obtain ⟨fd, -, rfl⟩ := Option.map_eq_some_iff.mp h
    exact ⟨rfl, rfl, rfl, rfl⟩

theorem inv_openSocket (h : Inv u) (hs : u.openSocket fd = some u₁) : Inv u₁ := by
  obtain ⟨htimers, hfield, hused, hconn⟩ := openSocket_frame hs
  exact h.same htimers hfield hused fun hc => h.kept.none (hconn ▸ hc)

/-- `Connect`: it may tell `OnConnected` when no timer is pending. -/
theorem kept_connect (h : Inv u) :
    (Kept (u.connect fd ok) ↔ Clean u (.connect fd ok)) ∧ (Clean u (.connect fd ok) → Inv (u.connect fd ok)) := by
  rw [Run.connect]
  cases hs : u.openSocket fd with
  | none =>
    have hclean : Clean u (.connect fd ok) := by
      intro _ hsome
      rw [hs] at hsome
      cases hsome
    exact ⟨iff_of_true h.kept hclean, fun _ => h⟩
  | some u₁ =>
    have h₁ := inv_openSocket h hs
    obtain ⟨htimers, hfield, hused, -⟩ := openSocket_frame hs
    cases ok with
    | false =>
      have hclean : Clean u (.connect fd false) := nofun
      exact ⟨iff_of_true h₁.kept hclean, fun _ => h₁⟩
    | true =>
      have hinv : Clean u (.connect fd true) →
          Inv { u₁.establish with connected := true, stack := .register :: u₁.stack } := by
        intro hclean
        have hzero := hclean rfl (hs ▸ rfl)
        exact h₁.same rfl rfl rfl fun _ => hfield.trans hzero
      refine ⟨⟨fun hk _ _ => ?_, fun hclean => (hinv hclean).kept⟩, hinv⟩
      exact hfield.symm.trans (hk.none rfl)

theorem Inv.fresh (h : Inv u) (hid : timerId ∉ u.used) (b : Bool) : Pending.Distinct ((timerId, b) :: u.timers) := by
  apply h.kept.distinct.set
  intro e he heq
  exact hid (heq ▸ (h.known e he).1)

theorem known_cons {timers : Pending Bool} {used : List UInt32} (h : ∀ e ∈ timers, e.1 ∈ used ∧ e.1 ≠ 0)
    (h0 : timerId ≠ 0) (b : Bool) : ∀ e ∈ (timerId, b) :: timers, e.1 ∈ timerId :: used ∧ e.1 ≠ 0 := by
  intro e he
  rcases List.mem_cons.mp he with rfl | he
  · exact ⟨List.mem_cons_self, h0⟩
  · exact ⟨List.mem_cons_of_mem _ (h e he).1, (h e he).2⟩

/-- The client after a `Connect` with a timer. -/
def Run.timed (u : Run CacheSize) (timerId : UInt32) : Run CacheSize :=
  { u.establish with
    client := { u.establish.client with m_AsyncConnectTimerId := timerId }
    timers := (timerId, true) :: u.timers
    used := timerId :: u.used }

theorem inv_timed (h : Inv u) (hid : timerId ∉ u.used) (h0 : timerId ≠ 0)
    (hfield : u.client.m_AsyncConnectTimerId = 0) (hconn : u.connected = false) : Inv (u.timed timerId) where
  kept := by
    refine ⟨h.fresh hid true, fun id => ?_, fun hc => ?_⟩
    · have hno : (id, true) ∉ u.timers := by
        rw [h.kept.field, hfield]
        exact fun hm => hm.2 hm.1
      simp only [Run.timed, List.mem_cons, hno, or_false, Prod.mk.injEq, and_true]
      refine ⟨fun heq => ⟨heq, heq ▸ h0⟩, And.left⟩
    · have hc' : u.connected = true := hc
      rw [hconn] at hc'
      cases hc'
  known := known_cons h.known h0 true

/-- A timer that is set beside another, or by a client that is connected, is one too many. -/
theorem kept_timed (h : Inv u) (hid : timerId ∉ u.used) (h0 : timerId ≠ 0) :
    Kept (u.timed timerId) ↔ u.client.m_AsyncConnectTimerId = 0 ∧ u.connected = false := by
  constructor
  · intro hk
    constructor
    · by_contra hne
      have hold : (u.client.m_AsyncConnectTimerId, true) ∈ u.timers := (h.kept.field _).mpr ⟨rfl, hne⟩
      have heq : u.client.m_AsyncConnectTimerId = timerId := ((hk.field _).mp (List.mem_cons_of_mem _ hold)).1
      exact hid (heq ▸ (h.known _ hold).1)
    · cases hc : u.connected with
      | false => rfl
      | true => exact absurd (hk.none hc) h0
  · intro hc
    exact (inv_timed h hid h0 hc.1 hc.2).kept

theorem kept_connectTimeout (h : Inv u) (hid : timerId ∉ u.used) (h0 : timerId ≠ 0) :
    (Kept (u.connectTimeout fd ok timerId) ↔ Clean u (.connectTimeout fd ok timerId)) ∧
      (Clean u (.connectTimeout fd ok timerId) → Inv (u.connectTimeout fd ok timerId)) := by
  rw [Run.connectTimeout]
  cases hs : u.openSocket fd with
  | none =>
    have hclean : Clean u (.connectTimeout fd ok timerId) := by
      intro _ hsome
      rw [hs] at hsome
      cases hsome
    exact ⟨iff_of_true h.kept hclean, fun _ => h⟩
  | some u₁ =>
    have h₁ := inv_openSocket h hs
    obtain ⟨-, hfield, hused, hconn⟩ := openSocket_frame hs
    have hid₁ : timerId ∉ u₁.used := hused ▸ hid
    cases ok with
    | false =>
      have hclean : Clean u (.connectTimeout fd false timerId) := nofun
      exact ⟨iff_of_true h₁.kept hclean, fun _ => h₁⟩
    | true =>
      have hclean : Clean u (.connectTimeout fd true timerId) ↔
          u₁.client.m_AsyncConnectTimerId = 0 ∧ u₁.connected = false := by
        rw [hfield, hconn]
        exact ⟨fun hc => hc rfl (hs ▸ rfl), fun hc _ _ => hc⟩
      rw [hclean]
      exact ⟨kept_timed h₁ hid₁ h0, fun hc => inv_timed h₁ hid₁ h0 hc.1 hc.2⟩

theorem inv_close (h : Inv u) : Inv u.close := h.same rfl rfl rfl nofun

theorem inv_disconnect (h : Inv u) (reconnect : Bool) : Inv (u.disconnect reconnect) := by
  rw [Run.disconnect, Run.clearTimer]
  split
  · exact h.cleared rfl rfl rfl
  · exact h.same rfl rfl rfl h.kept.none

theorem inv_onWriteable (h : Inv u) (ok : Bool) : Inv (u.onWriteable ok) := by
  cases ok with
  | false => exact h.same rfl rfl rfl h.kept.none
  | true => exact h.cleared rfl rfl rfl

theorem inv_onReadable (h : Inv u) {recv : Recv} (hs : u.onReadable recv = some u') : Inv u' := by
  unfold Run.onReadable at hs
  split at hs
  · cases hs
    exact inv_disconnect h false
  · split at hs
    · cases hs
      exact h
    · cases hs
      exact inv_disconnect h false
    · obtain ⟨c, -, hs⟩ := Option.bind_eq_some_iff.mp hs
      cases hs
      exact h.same rfl rfl rfl h.kept.none

/-- The timer that comes due is the one that the field names. -/
theorem inv_timeout (h : Inv u) (hm : (timerId, true) ∈ u.timers) : Inv (u.onAsyncConnectTimout timerId) := by
  obtain ⟨heq, -⟩ := (h.kept.field timerId).mp hm
  subst heq
  exact h.cleared rfl rfl rfl

theorem inv_otherSet (h : Inv u) (hid : timerId ∉ u.used) (h0 : timerId ≠ 0) :
    Inv { u with timers := (timerId, false) :: u.timers, used := timerId :: u.used } where
  kept := by
    refine ⟨h.fresh hid false, fun id => ?_, h.kept.none⟩
    rw [List.mem_cons, or_iff_right nofun]
    exact h.kept.field id
  known := known_cons h.known h0 false

theorem inv_otherDrop (h : Inv u) (hm : (timerId, false) ∈ u.timers) :
    Inv { u with timers := u.timers.clear timerId } where
  kept := by
    refine ⟨h.kept.distinct.clear _, fun id => ?_, h.kept.none⟩
    rw [Pending.mem_clear, ← h.kept.field, and_iff_left_iff_imp]
    intro hid heq
    have hid' : (timerId, true) ∈ u.timers := heq ▸ hid
    cases h.kept.distinct.unique hid' hm
  known := by
    intro e he
    exact h.known e (Pending.mem_clear.mp he).1

/-- A function that goes on after its callback. -/
theorem kept_resume {f : Frame} {rest : List Frame} {readPosition : UInt64} (h : Inv u) (hst : u.stack = f :: rest)
    (hs : { u with stack := rest }.resume readPosition fd ok f = some u') :
    (Kept u' ↔ Clean u (.ret readPosition fd ok)) ∧ (Clean u (.ret readPosition fd ok) → Inv u') := by
  have hfree (hf : f ≠ .close true) : Clean u (.ret readPosition fd ok) := by
    intro hhead
    rw [hst] at hhead
    exact absurd (Option.some.inj hhead) hf
  have hdone (hf : f ≠ .close true) (hi : Inv u') :
      (Kept u' ↔ Clean u (.ret readPosition fd ok)) ∧ (Clean u (.ret readPosition fd ok) → Inv u') :=
    ⟨iff_of_true hi.kept (hfree hf), fun _ => hi⟩
  have hpop : Inv { u with stack := rest } := h.same rfl rfl rfl h.kept.none
  cases f with
  | register =>
    cases hs
    exact hdone nofun hpop
  | update =>
    cases hs
    exact hdone nofun hpop
  | disconnect =>
    cases hs
    exact hdone nofun (inv_disconnect hpop false)
  | message readSize conn =>
    obtain ⟨c, -, hs⟩ := Option.bind_eq_some_iff.mp hs
    cases hs
    exact hdone nofun (h.same rfl rfl rfl h.kept.none)
  | close reconnect =>
    cases reconnect with
    | false =>
      cases hs
      exact hdone nofun (inv_close hpop)
    | true =>
      cases hs
      have hclean : Clean { u with stack := rest }.close (.connect fd ok) ↔ Clean u (.ret readPosition fd ok) := by
        have hopen : ({ u with stack := rest }.close.openSocket fd).isSome = fd.isSome := Option.isSome_map
        simp only [Clean, hopen, hst, List.head?_cons, forall_const]
        rfl
      rw [← hclean]
      exact kept_connect (inv_close hpop)

theorem step_clean {l : Label} (h : Inv u) (hl : enabled u l) (hs : u.step l = some u') :
    (Kept u' ↔ Clean u l) ∧ (Clean u l → Inv u') := by
  have hdone (hc : Clean u l) (hi : Inv u') : (Kept u' ↔ Clean u l) ∧ (Clean u l → Inv u') :=
    ⟨iff_of_true hi.kept hc, fun _ => hi⟩
  cases l with
  | connect fd ok =>
    cases hs
    exact kept_connect h
  | connectTimeout fd ok timerId =>
    cases hs
    exact kept_connectTimeout h hl.1 hl.2
  | close =>
    cases hs
    exact hdone trivial (inv_close h)
  | disconnect =>
    cases hs
    exact hdone trivial (inv_disconnect h false)
  | reconnect =>
    cases hs
    exact hdone trivial (inv_disconnect h true)
  | writeable ok =>
    cases hs
    exact hdone trivial (inv_onWriteable h ok)
  | readable recv => exact hdone trivial (inv_onReadable h hs)
  | errorable =>
    cases hs
    exact hdone trivial (h.same rfl rfl rfl h.kept.none)
  | timeout timerId =>
    cases hs
    exact hdone trivial (inv_timeout h hl.2)
  | ret readPosition fd ok =>
    cases hst : u.stack with
    | nil => exact absurd hst hl.1
    | cons f rest =>
      rw [Run.step, hst] at hs
      exact kept_resume h hst hs
  | throw =>
    cases hs
    exact hdone trivial (h.same rfl rfl rfl h.kept.none)
  | otherSet timerId =>
    cases hs
    exact hdone trivial (inv_otherSet h hl.1 hl.2)
  | otherDrop timerId =>
    cases hs
    exact hdone trivial (inv_otherDrop h hl)

theorem inv_new (cache : TcpChannelCache CacheSize) : Inv { client := new cache } where
  kept := ⟨.nil, fun _ => iff_of_false List.not_mem_nil fun hm => hm.2 hm.1, fun _ => rfl⟩
  known := nofun

theorem inv_inductive : ((client CacheSize).guard Clean).Inductive Inv where
  init := by
    intro u hu
    obtain ⟨cache, rfl⟩ := hu
    exact inv_new cache
  step := by
    intro u l u' h hs
    exact (step_clean h hs.2.1 hs.2.2).2 hs.1

/-- In a run of clean steps the timers are kept; and a step keeps them when it is clean. -/
theorem timer_run {u : Run CacheSize} (hr : ((client CacheSize).guard Clean).Reachable u) :
    Kept u ∧ ∀ l u', (client CacheSize).step u l u' → (Kept u' ↔ Clean u l) := by
  have h := inv_inductive.reachable u hr
  exact ⟨h.kept, fun l u' hs => (step_clean h hs.1 hs.2).1⟩

/-- Connected with a timer, and completed. -/
theorem timer_run_done : ∃ u, ((client 4).guard Clean).Reachable u ∧ u.connected = true ∧ Kept u := by
  have h0 : ((client 4).guard Clean).Reachable start := .init ⟨_, rfl⟩
  have hc : (client 4).step start (.connectTimeout (some 5) true 1) _ := ⟨by decide, rfl⟩
  have h1 := h0.allowed hc fun _ _ => ⟨rfl, rfl⟩
  have hw : (client 4).step (start.connectTimeout (some 5) true 1) (.writeable true)
      ((start.connectTimeout (some 5) true 1).onWriteable true) := ⟨by decide, rfl⟩
  have h2 := h1.allowed hw trivial
  exact ⟨_, h2, rfl, (timer_run h2).1⟩

/-- `Close` leaves the timer of the first attempt; then `Connect` connects. -/
def closedCalls : List Label := [.connectTimeout (some 5) true 1, .close, .connect (some 6) true]

theorem close_keeps_timer : ∃ u, (client 4).Reachable u ∧ u.connected = true ∧ (1, true) ∈ u.timers ∧ ¬Kept u := by
  have hrun : (closedCalls.foldlM (LTS.checked enabled Run.step) start).map (fun u => (u.connected, u.timers)) =
      some (true, [(1, true)]) := by
    decide
  obtain ⟨u, hu, hv⟩ := Option.map_eq_some_iff.mp hrun
  obtain ⟨hconn, htimers⟩ := Prod.mk.inj hv
  have hm : (1, true) ∈ u.timers := htimers ▸ List.mem_singleton_self _
  have hr : (client 4).Reachable u := LTS.Reachable.checked (fun _ _ _ => And.intro) _ (.init ⟨_, rfl⟩) hu
  refine ⟨u, hr, hconn, hm, fun hk => ?_⟩
  obtain ⟨heq, hne⟩ := (hk.field 1).mp hm
  exact hne (heq.trans (hk.none hconn))

end SimpleSvr.L5.TcpClient
