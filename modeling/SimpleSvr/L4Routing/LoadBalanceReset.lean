import SimpleSvr.L4Routing.LoadBalanceQuota

/-!
# What a reset does to a quota

`RoutePolicy::Reset` takes the loss rate from `dwSendCount - dwRecvCount`, in
`uint32_t`. Where more answers than requests were counted, one late answer is
enough, the difference wraps and the point is cut to a quota of 1
(`reset_answered`). `unpunished_run`: a run in which no reset finds such a point
lowers no answered point.

A point that is answered gets a fifth of `dwMaxQuotas` more at each reset, rounded
down. `recovers_iff`: that brings it back to the maximum unless the maximum is
below 5, where it gets nothing.
-/
namespace SimpleSvr.L4.LoadBalance

variable {point : ServicePoint}

/-! ## One reset -/

/-- A point that a reset finds with all its requests answered. -/
def Answered (point : ServicePoint) : Prop :=
  point.dwSendCount.toNat ≤ point.dwRecvCount.toNat ∧ point.dwCurrentQuotas.toNat ≤ point.dwMaxQuotas.toNat

/-- It counts no more answers than requests, unless it has sent nothing or has no quota to lose. -/
def OnTime (point : ServicePoint) : Prop :=
  point.dwSendCount = 0 ∨ point.dwRecvCount = point.dwSendCount ∨ point.dwCurrentQuotas.toNat ≤ 1

instance (point : ServicePoint) : Decidable (Answered point) := inferInstanceAs (Decidable (_ ∧ _))

instance (point : ServicePoint) : Decidable (OnTime point) := inferInstanceAs (Decidable (_ ∨ _))

/-- The quota after a raise, below 2^31 where `uint32_t` does not wrap. -/
theorem toNat_raised (hmax : point.dwMaxQuotas.toNat < 2 ^ 31)
    (hcur : point.dwCurrentQuotas.toNat ≤ point.dwMaxQuotas.toNat) (parts : Nat) :
    (raised point parts).toNat =
      min point.dwMaxQuotas.toNat (point.dwCurrentQuotas.toNat + point.dwMaxQuotas.toNat / parts) := by
  have hdiv : point.dwMaxQuotas.toNat / parts ≤ point.dwMaxQuotas.toNat := Nat.div_le_self _ _
  have hquotas : (UInt32.ofNat (point.dwCurrentQuotas.toNat + point.dwMaxQuotas.toNat / parts)).toNat =
      point.dwCurrentQuotas.toNat + point.dwMaxQuotas.toNat / parts := by
    rw [UInt32.toNat_ofNat', Nat.mod_eq_of_lt (by omega)]
  unfold raised
  simp only []
  split
  · next h =>
    have hlt := UInt32.lt_iff_toNat_lt.mp h
    rw [hquotas] at hlt
    exact (Nat.min_eq_left (Nat.le_of_lt hlt)).symm
  · next h =>
    have hle := UInt32.le_iff_toNat_le.mp (UInt32.not_lt.mp h)
    rw [hquotas] at hle
    rw [hquotas, Nat.min_eq_right hle]

theorem le_raised (hmax : point.dwMaxQuotas.toNat < 2 ^ 31)
    (hcur : point.dwCurrentQuotas.toNat ≤ point.dwMaxQuotas.toNat) (parts : Nat) :
    point.dwCurrentQuotas.toNat ≤ (raised point parts).toNat := by
  rw [toNat_raised hmax hcur]
  exact Nat.le_min.mpr ⟨hcur, Nat.le_add_right _ _⟩

theorem reset_unused (h : point.dwSendCount = 0) :
    (RoutePolicy.Reset point).dwCurrentQuotas = point.dwCurrentQuotas :=
  if_neg (not_not.mpr h)

/-- Every request is answered. -/
theorem reset_even (hsend : point.dwSendCount ≠ 0) (h : point.dwRecvCount = point.dwSendCount) :
    (RoutePolicy.Reset point).dwCurrentQuotas = raised point 5 := by
  have hpos : point.dwSendCount.toNat ≠ 0 := fun hz => hsend (UInt32.toNat_inj.mp hz)
  have hlost : (point.dwSendCount - point.dwRecvCount).toNat = 0 := by
    rw [h, UInt32.sub_self]
    rfl
  unfold RoutePolicy
  simp only [hlost]
  rw [if_pos hsend, if_neg (by omega), if_pos (by omega)]

/-- More answers than requests: the lost ones wrap to more than were sent. -/
theorem reset_late (hsend : point.dwSendCount ≠ 0)
    (h : point.dwSendCount.toNat < point.dwRecvCount.toNat) :
    (RoutePolicy.Reset point).dwCurrentQuotas = 1 := by
  have hrecv := point.dwRecvCount.toNat_lt
  have hlost : point.dwSendCount.toNat < (point.dwSendCount - point.dwRecvCount).toNat := by
    rw [UInt32.toNat_sub]
    omega
  unfold RoutePolicy
  simp only []
  rw [if_pos hsend, if_pos (by omega)]

/-- An answered point keeps its quota exactly when its counters agree, or have nothing to take. -/
theorem reset_answered (hmax : point.dwMaxQuotas.toNat < 2 ^ 31)
    (h : Answered point) :
    point.dwCurrentQuotas.toNat ≤ (RoutePolicy.Reset point).dwCurrentQuotas.toNat ↔ OnTime point := by
  by_cases hsend : point.dwSendCount = 0
  · rw [reset_unused hsend]
    exact iff_of_true (Nat.le_refl _) (.inl hsend)
  · by_cases heq : point.dwRecvCount = point.dwSendCount
    · rw [reset_even hsend heq]
      exact iff_of_true (le_raised hmax h.2 5) (.inr (.inl heq))
    · have hlt : point.dwSendCount.toNat < point.dwRecvCount.toNat :=
        Nat.lt_of_le_of_ne h.1 fun hn => heq (UInt32.toNat_inj.mp hn.symm)
      rw [reset_late hsend hlt]
      unfold OnTime
      simp only [hsend, heq, false_or]
      rfl

/-! ## Resets in a run -/

/-- A load balancer and, ghost, those before and after each `Route` that was a reset. -/
structure Watched where
  lb : LoadBalance
  resets : List (LoadBalance × LoadBalance)

/-- `Route` finds that the period is over.
mirrors include/LoadBalance.hpp:203 -/
def resetDue (lb : LoadBalance) (now : Int) : Prop := now - lb.m_LastTimestamp > RoutePolicy.ResetTime.toNat

instance (lb : LoadBalance) (now : Int) : Decidable (resetDue lb now) := inferInstanceAs (Decidable (_ > _))

def Watched.apply (inet_addr : Bytes → UInt32) (u : Watched) (op : Op) : Watched :=
  let lb := u.lb.apply RoutePolicy inet_addr op
  match op with
  | .route now _ => { lb, resets := if resetDue u.lb now then (u.lb, lb) :: u.resets else u.resets }
  | _ => { u with lb }

/-- Any operations, quotas that sum to less than 2^31. -/
def watched (inet_addr : Bytes → UInt32) : LTS Watched Op where
  init u := ∃ t, u = ⟨new t, []⟩
  step u op u' := u' = u.apply inet_addr op ∧ u'.lb.maxSum < 2 ^ 31

/-- Its quota is not lowered by a reset. -/
def Spared (r : LoadBalance × LoadBalance) : Prop :=
  ∀ e ∈ r.1.m_stServicesMap.entries, ∀ e' ∈ r.2.m_stServicesMap.entries, e.1 = e'.1 → Answered e.2 →
    e.2.dwCurrentQuotas.toNat ≤ e'.2.dwCurrentQuotas.toNat

def Unpunished (u : Watched) : Prop := ∀ r ∈ u.resets, Spared r

/-- A reset finds the answered points on time. -/
def Timely (u : Watched) : Op → Prop
  | .route now _ => resetDue u.lb now → ∀ e ∈ u.lb.m_stServicesMap.entries, Answered e.2 → OnTime e.2
  | _ => True

theorem find_refill (P : Policy) (lb : LoadBalance) (reset : Bool) (now : Int) (addr : SockAddr) :
    (lb.refill P reset now).m_stServicesMap.find addr = (lb.m_stServicesMap.find addr).map fun point =>
      { (if reset then P.Reset point else point) with
        dwRealQuotas := (if reset then P.Reset point else point).dwCurrentQuotas } :=
  OrdMap.find_mapVals _ _ _

theorem find_take (lb : LoadBalance) (e : SockAddr × ServicePoint) (addr : SockAddr) :
    ((lb.take e).m_stServicesMap.find addr).map ServicePoint.dwCurrentQuotas =
      (lb.m_stServicesMap.find addr).map ServicePoint.dwCurrentQuotas := by
  unfold take
  apply OrdMap.map_find_modify
  intro point
  rfl

/-- After a `Route` that is a reset every point has the quota that `Reset` gave it. -/
theorem find_route {lb : LoadBalance} {now : Int} (h : resetDue lb now) (rand : Nat) (addr : SockAddr) :
    ((lb.Route RoutePolicy now rand).1.m_stServicesMap.find addr).map ServicePoint.dwCurrentQuotas =
      (lb.m_stServicesMap.find addr).map fun point => (RoutePolicy.Reset point).dwCurrentQuotas := by
  have hfind : ((lb.refresh RoutePolicy now).m_stServicesMap.find addr).map ServicePoint.dwCurrentQuotas =
      (lb.m_stServicesMap.find addr).map fun point => (RoutePolicy.Reset point).dwCurrentQuotas := by
    rw [refresh_of_late h, find_refill, Option.map_map]
    rfl
  unfold Route RouteBy
  simp only []
  cases pick ((lb.refresh RoutePolicy now).seed rand) (lb.refresh RoutePolicy now).m_stServicesMap.entries with
  | none => exact hfind
  | some e => exact (find_take _ e addr).trans hfind

theorem spared_iff {lb : LoadBalance} {now : Int} (h : resetDue lb now) (hmax : lb.maxSum < 2 ^ 31) (rand : Nat) :
    Spared (lb, (lb.Route RoutePolicy now rand).1) ↔
      ∀ e ∈ lb.m_stServicesMap.entries, Answered e.2 → OnTime e.2 := by
  have hkept {e : SockAddr × ServicePoint} (he : e ∈ lb.m_stServicesMap.entries) (ha : Answered e.2) :
      e.2.dwCurrentQuotas.toNat ≤ (RoutePolicy.Reset e.2).dwCurrentQuotas.toNat ↔ OnTime e.2 := by
    have hlow : e.2.dwMaxQuotas.toNat < 2 ^ 31 :=
      Nat.lt_of_le_of_lt (OrdMap.le_sum (OrdMap.mem_iff_find.mp he) fun point => point.dwMaxQuotas.toNat) hmax
    exact reset_answered hlow ha
  have hroute {e : SockAddr × ServicePoint} (he : e ∈ lb.m_stServicesMap.entries) :
      ∃ point', (lb.Route RoutePolicy now rand).1.m_stServicesMap.find e.1 = some point' ∧
        point'.dwCurrentQuotas = (RoutePolicy.Reset e.2).dwCurrentQuotas := by
    have hcur := find_route h rand e.1
    rw [OrdMap.mem_iff_find.mp he, Option.map_some] at hcur
    exact Option.map_eq_some_iff.mp hcur
  constructor
  · intro hs e he ha
    obtain ⟨point', hf, hcur⟩ := hroute he
    have hle := hs e he (e.1, point') (OrdMap.mem_iff_find.mpr hf) rfl ha
    rw [hcur] at hle
    exact (hkept he ha).mp hle
  · intro ht e he e' he' heq ha
    obtain ⟨point', hf, hcur⟩ := hroute he
    rw [heq, OrdMap.mem_iff_find.mp he'] at hf
    rw [Option.some.inj hf, hcur]
    exact (hkept he ha).mpr (ht e he ha)

theorem unpunished_step {inet_addr : Bytes → UInt32} {u : Watched} (h : Unpunished u) (hmax : u.lb.maxSum < 2 ^ 31)
    (op : Op) : Unpunished (u.apply inet_addr op) ↔ Timely u op := by
  cases op with
  | route now rand =>
    by_cases hd : resetDue u.lb now
    · have hresets : (u.apply inet_addr (.route now rand)).resets =
          (u.lb, (u.lb.Route RoutePolicy now rand).1) :: u.resets := if_pos hd
      rw [Unpunished, hresets, List.forall_mem_cons, spared_iff hd hmax]
      exact ⟨fun hs _ => hs.1, fun ht => ⟨ht hd, h⟩⟩
    · have hresets : (u.apply inet_addr (.route now rand)).resets = u.resets := if_neg hd
      rw [Unpunished, hresets]
      exact iff_of_true h fun hc => absurd hc hd
  | clear => exact iff_of_true h trivial
  | add addr dwQuotas => exact iff_of_true h trivial
  | load strContent now => exact iff_of_true h trivial
  | erase addr => exact iff_of_true h trivial
  | failure addr => exact iff_of_true h trivial
  | success addr => exact iff_of_true h trivial

/-- In a run whose resets find no late answers no answered point is lowered; and from there a step
lowers one exactly when it finds some. -/
theorem unpunished_run (inet_addr : Bytes → UInt32) {u : Watched}
    (hr : ((watched inet_addr).guard Timely).Reachable u) :
    Unpunished u ∧ ∀ op u', (watched inet_addr).step u op u' → (Unpunished u' ↔ Timely u op) := by
  have hind : ((watched inet_addr).guard Timely).Inductive fun u => Unpunished u ∧ u.lb.maxSum < 2 ^ 31 := by
    constructor
    · rintro u ⟨t, rfl⟩
      exact ⟨nofun, Nat.two_pow_pos 31⟩
    · rintro u op u' ⟨h, hmax⟩ ⟨ht, rfl, hmax'⟩
      exact ⟨(unpunished_step h hmax op).mpr ht, hmax'⟩
  obtain ⟨h, hmax⟩ := hind.reachable u hr
  refine ⟨h, ?_⟩
  rintro op u' ⟨rfl, -⟩
  exact unpunished_step h hmax op

/-- One operation, where the quotas stay below the bound. -/
def Watched.run (u : Watched) (op : Op) : Option Watched :=
  if (u.apply (fun _ => 0) op).lb.maxSum < 2 ^ 31 then some (u.apply (fun _ => 0) op) else none

theorem Watched.run_step {u u' : Watched} (op : Op) (h : u.run op = some u') : (watched fun _ => 0).step u op u' := by
  unfold Watched.run at h
  split at h
  · next hmax =>
    cases h
    exact ⟨rfl, hmax⟩
  · cases h

/-- One request and its answer, then a reset. -/
theorem unpunished_run_one : ∃ u, ((watched fun _ => 0).guard Timely).Reachable u ∧ u.resets ≠ [] ∧ Unpunished u := by
  have h0 : ((watched fun _ => 0).guard Timely).Reachable ⟨new 0, []⟩ := .init ⟨0, rfl⟩
  have h1 := h0.allowed (Watched.run_step (.add (httpAt 1) 10) rfl) trivial
  have h2 := h1.allowed (Watched.run_step (.route 0 0) rfl) (by unfold Timely; decide)
  have h3 := h2.allowed (Watched.run_step (.success (httpAt 1)) rfl) trivial
  have h4 := h3.allowed (Watched.run_step (.route 11 0) rfl) (by unfold Timely; decide)
  refine ⟨_, h4, ?_, (unpunished_run (fun _ => 0) h4).1⟩
  decide

/-- The answer to the one request of the first period comes in the third, where another was sent and
answered: a quota of 3 is cut to 1. -/
theorem late_answer_cut : ∃ u, (watched fun _ => 0).Reachable u ∧ ¬Unpunished u := by
  have h0 : (watched fun _ => 0).Reachable ⟨new 0, []⟩ := .init ⟨0, rfl⟩
  have h1 := h0.step (Watched.run_step (.add (httpAt 1) 10) rfl)
  have h2 := h1.step (Watched.run_step (.route 0 0) rfl)
  have h3 := h2.step (Watched.run_step (.route 11 0) rfl)
  have h4 := h3.step (Watched.run_step (.success (httpAt 1)) rfl)
  have h5 := h4.step (Watched.run_step (.route 22 0) rfl)
  have h6 := h5.step (Watched.run_step (.success (httpAt 1)) rfl)
  have h7 := h6.step (Watched.run_step (.success (httpAt 1)) rfl)
  have h8 := h7.step (Watched.run_step (.route 33 0) rfl)
  refine ⟨_, h8, ?_⟩
  unfold Unpunished Spared
  decide

/-! ## Recovery -/

/-- The period ends with `dwSendCount` requests, all answered. -/
def answer (point : ServicePoint) (dwSendCount : UInt32) : ServicePoint :=
  RoutePolicy.Reset { point with dwSendCount, dwRecvCount := dwSendCount }

/-- After some number of such periods with a request each the quota is the maximum; and it never
falls on the way. -/
def Recovers (point : ServicePoint) : Prop :=
  (∃ n, ∀ windows : List UInt32, (∀ s ∈ windows, s ≠ 0) → windows.length = n →
    (windows.foldl answer point).dwCurrentQuotas = point.dwMaxQuotas) ∧
  ∀ (windows : List UInt32) (s : UInt32), (∀ s ∈ windows, s ≠ 0) → s ≠ 0 →
    (windows.foldl answer point).dwCurrentQuotas ≤ ((windows ++ [s]).foldl answer point).dwCurrentQuotas

theorem answer_max (point : ServicePoint) (s : UInt32) : (answer point s).dwMaxQuotas = point.dwMaxQuotas := rfl

/-- The quota after a period: a fifth of the maximum more. -/
theorem answer_cur (hmax : point.dwMaxQuotas.toNat < 2 ^ 31)
    (hcur : point.dwCurrentQuotas.toNat ≤ point.dwMaxQuotas.toNat) {s : UInt32} (hs : s ≠ 0) :
    (answer point s).dwCurrentQuotas.toNat =
      min point.dwMaxQuotas.toNat (point.dwCurrentQuotas.toNat + point.dwMaxQuotas.toNat / 5) := by
  have hreset : (answer point s).dwCurrentQuotas = raised { point with dwSendCount := s, dwRecvCount := s } 5 :=
    reset_even hs rfl
  rw [hreset]
  exact @toNat_raised { point with dwSendCount := s, dwRecvCount := s } hmax hcur 5

/-- After `windows.length` periods. -/
theorem foldl_answer_cur (hmax : point.dwMaxQuotas.toNat < 2 ^ 31)
    (hcur : point.dwCurrentQuotas.toNat ≤ point.dwMaxQuotas.toNat) {windows : List UInt32}
    (hs : ∀ s ∈ windows, s ≠ 0) :
    (windows.foldl answer point).dwCurrentQuotas.toNat =
      min point.dwMaxQuotas.toNat
        (point.dwCurrentQuotas.toNat + windows.length * (point.dwMaxQuotas.toNat / 5)) := by
  induction windows generalizing point with
  | nil =>
    rw [List.foldl_nil, List.length_nil, Nat.zero_mul, Nat.add_zero, Nat.min_eq_right hcur]
  | cons s windows ih =>
    have hfirst := answer_cur hmax hcur (hs s List.mem_cons_self)
    have hle : (answer point s).dwCurrentQuotas.toNat ≤ (answer point s).dwMaxQuotas.toNat := by
      rw [hfirst, answer_max]
      exact Nat.min_le_left _ _
    rw [List.foldl_cons, @ih (answer point s) hmax hle fun s hs' => hs s (List.mem_cons_of_mem _ hs'), hfirst,
      answer_max, List.length_cons, Nat.succ_mul]
    generalize point.dwMaxQuotas.toNat / 5 = fifth
    generalize windows.length * fifth = rest
    omega

theorem ones_ne_zero (n : Nat) : ∀ s ∈ List.replicate n (1 : UInt32), s ≠ 0 := by
  intro s hs
  rw [List.eq_of_mem_replicate hs]
  decide

/-- Where a fifth of the maximum is at least 1 the quota comes back; where it is 0 it stays. -/
theorem recovers_iff (hmax : point.dwMaxQuotas.toNat < 2 ^ 31) (hpos : 1 ≤ point.dwCurrentQuotas.toNat)
    (hcur : point.dwCurrentQuotas.toNat ≤ point.dwMaxQuotas.toNat) :
    Recovers point ↔ 5 ≤ point.dwMaxQuotas.toNat ∨ point.dwCurrentQuotas = point.dwMaxQuotas := by
  constructor
  · rintro ⟨⟨n, hn⟩, -⟩
    by_contra hc
    rw [not_or, not_le] at hc
    -- any windows of length n will do
    have hones := ones_ne_zero n
    have hfifth : point.dwMaxQuotas.toNat / 5 = 0 := Nat.div_eq_of_lt hc.1
    have heq := foldl_answer_cur hmax hcur hones
    rw [hn _ hones List.length_replicate, hfifth, Nat.mul_zero, Nat.add_zero, Nat.min_eq_right hcur] at heq
    exact hc.2 (UInt32.toNat_inj.mp heq.symm)
  · intro hc
    refine ⟨⟨point.dwMaxQuotas.toNat, fun windows hs hlen => ?_⟩, fun windows s hs hs0 => ?_⟩
    · rw [← UInt32.toNat_inj, foldl_answer_cur hmax hcur hs, hlen]
      apply Nat.min_eq_left
      rcases hc with hc | hc
      · -- the steps are at least 1, and there are as many as the maximum
        have hfifth : 1 ≤ point.dwMaxQuotas.toNat / 5 := (Nat.one_le_div_iff (by decide)).mpr hc
        have hsteps := Nat.mul_le_mul_left point.dwMaxQuotas.toNat hfifth
        omega
      · rw [hc]
        exact Nat.le_add_right _ _
    · have hall : ∀ t ∈ windows ++ [s], t ≠ 0 := by
        intro t ht
        rcases List.mem_append.mp ht with ht | ht
        · exact hs t ht
        · rw [List.mem_singleton.mp ht]
          exact hs0
      rw [UInt32.le_iff_toNat_le, foldl_answer_cur hmax hcur hs, foldl_answer_cur hmax hcur hall,
        List.length_append, Nat.add_mul]
      omega

/-- A point of 10 requests, as `Failure` leaves it. -/
theorem recovers_ten :
    Recovers { stAddress := httpAt 1, dwMaxQuotas := 10, dwCurrentQuotas := 1, dwRealQuotas := 0 } := by
  apply (recovers_iff _ _ _).mpr
  · exact .inl (by decide)
  · decide
  · decide
  · decide

/-- A point of 4 requests stays at 1. -/
theorem stuck_at_one : ∃ point : ServicePoint, point.dwMaxQuotas.toNat < 2 ^ 31 ∧
    1 ≤ point.dwCurrentQuotas.toNat ∧ point.dwCurrentQuotas.toNat ≤ point.dwMaxQuotas.toNat ∧ ¬Recovers point := by
  refine ⟨{ stAddress := httpAt 1, dwMaxQuotas := 4, dwCurrentQuotas := 1, dwRealQuotas := 0 },
    by decide, by decide, by decide, ?_⟩
  rintro ⟨⟨n, hn⟩, -⟩
  have hones := ones_ne_zero n
  have hcur := congrArg UInt32.toNat (hn _ hones List.length_replicate)
  rw [foldl_answer_cur (by decide) (by decide) hones] at hcur
  have hfifth : (4 : UInt32).toNat / 5 = 0 := by decide
  simp only [hfifth, Nat.mul_zero] at hcur
  exact absurd hcur (by decide)

end SimpleSvr.L4.LoadBalance
