import SimpleSvr.L4Routing.LoadBalanceQuota
import SimpleSvr.L4Routing.LoadBalanceSeed

/-!
# `Route` finds a point

The seed is drawn from 0 to `m_dwTotalQuotas + 1`, both ends included, and the
walk has a point for 1 to the sum of the quotas. 0 stops at the first point,
whatever it has left; the upper end is past the last one. `route_iff`: these two
ends, and a total that wraps to 0, are all that keeps `Route` from routing.

Only the largest `rand()` reaches the upper end. There the product that the
`double` rounds is `RAND_MAX` times as large as that end, and for some totals of
23 bits and more it is rounded down so far that the seed stays below
(`RoundsBelow`).
-/
namespace SimpleSvr.L4.LoadBalance

variable {lb : LoadBalance} {now : Int} {rand : Nat}

/-- With `lb` as the refill left it: one registered point took the request and the total went down with it. -/
def Routed (lb : LoadBalance) (r : LoadBalance × Option SockAddr) : Prop :=
  ∃ addr point left, lb.m_stServicesMap.find addr = some point ∧ r.2 = some addr ∧
    r.1.m_stServicesMap.find addr =
      some { point with dwSendCount := point.dwSendCount + 1, dwRealQuotas := left } ∧
    left.toNat + 1 = point.dwRealQuotas.toNat ∧ r.1.m_dwTotalQuotas.toNat + 1 = lb.m_dwTotalQuotas.toNat ∧
    ∀ a, a ≠ addr → r.1.m_stServicesMap.find a = lb.m_stServicesMap.find a

/-- The total did not wrap to 0; `rand()` is not at its upper end (unless `m_dwTotalQuotas + 1` wraps, or
is rounded below itself); and the first point has a request left or the seed is not 0. -/
def Seeded (lb : LoadBalance) (rand : Nat) : Prop :=
  lb.m_dwTotalQuotas ≠ 0 ∧
    (rand ≠ RAND_MAX ∨ 2 ^ 32 ≤ lb.quotaSum + 1 ∨ RoundsBelow (lb.m_dwTotalQuotas + 1).toNat) ∧
    ∀ e, lb.m_stServicesMap.entries.head? = some e →
      e.2.dwRealQuotas ≠ 0 ∨ RAND_MAX ≤ (lb.m_dwTotalQuotas + 1).toNat * rand

/-! ## Addresses -/

/-- Every point is filed under its address. -/
def Addressed (lb : LoadBalance) : Prop := ∀ e ∈ lb.m_stServicesMap.entries, e.2.stAddress = e.1

theorem addressed_clear (lb : LoadBalance) : Addressed lb.Clear := fun _ he => absurd he List.not_mem_nil

theorem addressed_add (h : Addressed lb) (addr : SockAddr) (q : UInt32) : Addressed (lb.AddServicePoint addr q) := by
  intro e he
  rcases OrdMap.mem_insert he with rfl | he
  · rfl
  · exact h e he

theorem addressed_modify {f : ServicePoint → ServicePoint} {addr : SockAddr} (h : Addressed lb)
    (hf : ∀ point, (f point).stAddress = point.stAddress) (total : UInt32) :
    Addressed { lb with m_dwTotalQuotas := total, m_stServicesMap := lb.m_stServicesMap.modify addr f } := by
  intro e he
  rcases OrdMap.mem_modify he with ⟨he, -⟩ | ⟨w, hw, rfl⟩
  · exact h e he
  · rw [hf]
    exact h _ hw

theorem addressed_refresh (h : Addressed lb) (now : Int) : Addressed (lb.refresh RoutePolicy now) := by
  unfold refresh
  dsimp only
  split
  · intro e he
    obtain ⟨w, hw, he2⟩ := OrdMap.mem_mapVals he
    rw [he2]
    split
    · exact h _ hw
    · exact h _ hw
  · exact h

theorem addressed_route (h : Addressed lb) (now : Int) (rand : Nat) : Addressed (lb.Route RoutePolicy now rand).1 := by
  have hr := addressed_refresh h now
  unfold Route RouteBy
  dsimp only
  split
  · exact hr
  · apply addressed_modify hr
    exact fun _ => rfl

theorem addressed_reachable {inet_addr : Bytes → UInt32} (hr : (balancer RoutePolicy inet_addr).Reachable lb) :
    Addressed lb := by
  have hind : (balancer RoutePolicy inet_addr).Inductive Addressed := by
    constructor
    · intro lb h
      obtain ⟨t, rfl⟩ := h
      exact fun _ he => absurd he List.not_mem_nil
    · intro lb op lb' h hs
      rw [hs]
      cases op with
      | clear => exact addressed_clear lb
      | add addr q => exact addressed_add h addr q
      | load strContent now =>
        cases strContent with
        | none => exact h
        | some strContent =>
          have hfold : ∀ (ls : List (SockAddr × UInt32)) (lb : LoadBalance), Addressed lb →
              Addressed (ls.foldl (fun lb l => lb.AddServicePoint l.1 l.2) lb) := by
            intro ls
            induction ls with
            | nil => exact fun _ h => h
            | cons l ls ih => exact fun lb h => ih _ (addressed_add h l.1 l.2)
          exact hfold _ _ (addressed_clear lb)
      | route now rand => exact addressed_route h now rand
      | erase addr =>
        simp only [apply, EraseServicePoint]
        split
        · exact h
        · exact fun e he => h e (OrdMap.mem_erase he).1
      | failure addr =>
        simp only [apply, Failure]
        split
        · exact h
        · apply addressed_modify h
          exact fun _ => rfl
      | success addr =>
        apply addressed_modify h
        exact fun _ => rfl
  exact hind.reachable lb hr

/-! ## The walk -/

/-- The walk ends without a point exactly if the seed is above all quotas. -/
theorem pick_eq_none_iff {dwSeed : UInt32} {l : List (SockAddr × ServicePoint)} :
    pick dwSeed l = none ↔ l = [] ∨ (l.map fun e => e.2.dwRealQuotas.toNat).sum < dwSeed.toNat := by
  induction l generalizing dwSeed with
  | nil => exact iff_of_true rfl (.inl rfl)
  | cons e l ih =>
    rw [pick, List.map_cons, List.sum_cons]
    split
    · next hle =>
      have hle := UInt32.le_iff_toNat_le.mp hle
      simp only [reduceCtorEq, false_or, false_iff]
      omega
    · next hlt =>
      have hlt := UInt32.le_iff_toNat_le.not.mp hlt
      have hs := dwSeed.toNat_lt
      have hsub : (dwSeed - e.2.dwRealQuotas).toNat = dwSeed.toNat - e.2.dwRealQuotas.toNat := by
        rw [UInt32.toNat_sub]
        omega
      rw [ih, hsub]
      cases l with
      | nil => simp only [true_or, reduceCtorEq, false_or, List.map_nil, List.sum_nil, true_iff]; omega
      | cons a l =>
        simp only [reduceCtorEq, false_or]
        omega

theorem seed_toNat (lb : LoadBalance) (hrand : rand ≤ RAND_MAX) :
    (lb.seed rand).toNat = draw (lb.m_dwTotalQuotas + 1).toNat rand := by
  have hlt := (lb.m_dwTotalQuotas + 1).toNat_lt
  have hle := draw_le hlt hrand
  rw [seed, UInt32.toNat_ofNat', Nat.mod_eq_of_lt (by omega)]

/-- The walk has a point for the seed unless `rand()` is at its upper end. -/
theorem seed_le_iff (hb : Balanced lb) (hrand : rand ≤ RAND_MAX) :
    (lb.seed rand).toNat ≤ lb.quotaSum ↔
      rand ≠ RAND_MAX ∨ 2 ^ 32 ≤ lb.quotaSum + 1 ∨ RoundsBelow (lb.m_dwTotalQuotas + 1).toNat := by
  rw [seed_toNat lb hrand]
  have hlt := (lb.m_dwTotalQuotas + 1).toNat_lt
  by_cases hbig : 2 ^ 32 ≤ lb.quotaSum + 1
  · have hle := draw_le hlt hrand
    exact iff_of_true (by omega) (.inr (.inl hbig))
  · have hone : (1 : UInt32).toNat = 1 := rfl
    have htot : (lb.m_dwTotalQuotas + 1).toNat = lb.quotaSum + 1 := by
      rw [UInt32.toNat_add, hb, hone]
      omega
    rw [htot] at hlt ⊢
    rw [← Nat.lt_succ_iff]
    by_cases hend : rand = RAND_MAX
    · subst hend
      simp only [ne_eq, not_true_eq_false, hbig, false_or]
      exact draw_max_lt_iff hlt
    · exact iff_of_true (draw_lt hlt (Nat.succ_pos _) (Nat.lt_of_le_of_ne hrand hend)) (.inl hend)

theorem seed_eq_zero_iff (lb : LoadBalance) (hrand : rand ≤ RAND_MAX) :
    lb.seed rand = 0 ↔ ¬RAND_MAX ≤ (lb.m_dwTotalQuotas + 1).toNat * rand := by
  rw [← UInt32.toNat_inj, seed_toNat lb hrand, UInt32.toNat_zero,
    draw_eq_zero_iff (lb.m_dwTotalQuotas + 1).toNat_lt hrand, Nat.not_le]

/-! ## Routing -/

/-- The point the walk stops at has a request left exactly if the first one has, or the seed is not 0. -/
theorem picked_left_iff {e : SockAddr × ServicePoint} (hrand : rand ≤ RAND_MAX)
    (hp : pick (lb.seed rand) lb.m_stServicesMap.entries = some e) :
    e.2.dwRealQuotas ≠ 0 ↔ ∀ e, lb.m_stServicesMap.entries.head? = some e →
      e.2.dwRealQuotas ≠ 0 ∨ RAND_MAX ≤ (lb.m_dwTotalQuotas + 1).toNat * rand := by
  constructor
  · intro he e' hhead
    by_cases hseed : lb.seed rand = 0
    · left
      rw [hseed] at hp
      obtain ⟨l, hl⟩ := List.head?_eq_some_iff.mp hhead
      rw [hl, pick, if_pos UInt32.zero_le] at hp
      cases hp
      exact he
    · exact .inr (not_not.mp (mt (seed_eq_zero_iff lb hrand).mpr hseed))
  · intro hall
    rcases pick_cases hp with he | ⟨hseed, hhead⟩
    · exact he
    · exact (hall e hhead).resolve_right ((seed_eq_zero_iff lb hrand).mp hseed)

theorem sub_one_succ_iff (x : UInt32) : (x - 1).toNat + 1 = x.toNat ↔ x ≠ 0 := by
  have hone : (1 : UInt32).toNat = 1 := rfl
  have hzero : (0 : UInt32).toNat = 0 := rfl
  have hlt := x.toNat_lt
  rw [UInt32.toNat_sub, hone, ne_eq, ← UInt32.toNat_inj, hzero]
  omega

/-- Taking a request from `e` routes unless there is nothing to take. -/
theorem routed_take_iff (ha : Addressed lb) {e : SockAddr × ServicePoint} (he : e ∈ lb.m_stServicesMap.entries) :
    Routed lb (lb.take e, some e.2.stAddress) ↔ e.2.dwRealQuotas ≠ 0 ∧ lb.m_dwTotalQuotas ≠ 0 := by
  have hfind : lb.m_stServicesMap.find e.1 = some e.2 := OrdMap.mem_iff_find.mp he
  have htaken : (lb.take e).m_stServicesMap.find e.1 = some { e.2 with
      dwSendCount := e.2.dwSendCount + 1, dwRealQuotas := e.2.dwRealQuotas - 1 } := by
    rw [take, OrdMap.find_modify, hfind]
    rfl
  rw [ha e he, ← sub_one_succ_iff, ← sub_one_succ_iff]
  constructor
  · intro h
    obtain ⟨addr, point, left, hpoint, haddr, hleft, hquota, htot, -⟩ := h
    cases haddr
    rw [hfind] at hpoint
    cases hpoint
    rw [htaken] at hleft
    have hq : e.2.dwRealQuotas - 1 = left := congrArg ServicePoint.dwRealQuotas (Option.some.inj hleft)
    rw [← hq] at hquota
    exact ⟨hquota, htot⟩
  · intro h
    obtain ⟨hquota, htot⟩ := h
    exact ⟨e.1, e.2, e.2.dwRealQuotas - 1, hfind, rfl, htaken, hquota, htot,
      fun a hne => OrdMap.find_modify_ne hne _⟩

/-- With the total right and something left after the refill, `Route` routes exactly from the seeds between the ends. -/
theorem route_iff (inet_addr : Bytes → UInt32) (hr : (balancer RoutePolicy inet_addr).Reachable lb)
    (htotal : lb.m_dwTotalQuotas.toNat = lb.quotaSum) (hsum : 1 ≤ (lb.refresh RoutePolicy now).quotaSum)
    (hrand : rand ≤ RAND_MAX) :
    Routed (lb.refresh RoutePolicy now) (lb.Route RoutePolicy now rand) ↔
      Seeded (lb.refresh RoutePolicy now) rand := by
  have hlt := lb.m_dwTotalQuotas.toNat_lt
  have hb : Balanced lb := by
    rw [Balanced, ← htotal, Nat.mod_eq_of_lt hlt]
  have hb' := balanced_refresh RoutePolicy hb now
  have ha := addressed_refresh (addressed_reachable hr) now
  unfold Route RouteBy
  dsimp only
  generalize lb.refresh RoutePolicy now = lb' at *
  have hne : lb'.m_stServicesMap.entries ≠ [] := by
    intro hnil
    rw [quotaSum, OrdMap.sum, hnil] at hsum
    cases hsum
  cases hp : pick (lb'.seed rand) lb'.m_stServicesMap.entries with
  | none =>
    have hover : lb'.quotaSum < (lb'.seed rand).toNat := (pick_eq_none_iff.mp hp).resolve_left hne
    have hend := mt (seed_le_iff hb' hrand).mpr (Nat.not_le.mpr hover)
    refine iff_of_false ?_ fun h => hend h.2.1
    intro h
    obtain ⟨addr, point, left, -, haddr, -⟩ := h
    cases haddr
  | some e =>
    have hnone : pick (lb'.seed rand) lb'.m_stServicesMap.entries ≠ none := by
      rw [hp]
      exact Option.some_ne_none e
    have hunder : (lb'.seed rand).toNat ≤ lb'.quotaSum :=
      Nat.not_lt.mp fun hover => hnone (pick_eq_none_iff.mpr (.inr hover))
    have hend := (seed_le_iff hb' hrand).mp hunder
    have hleft := picked_left_iff hrand hp
    rw [routed_take_iff ha (pick_mem hp)]
    constructor
    · intro h
      exact ⟨h.2, hend, hleft.mp h.1⟩
    · intro h
      exact ⟨hleft.mpr h.2.2, h.1⟩

/-- 5 and 7 requests. -/
def two : LoadBalance := ((new 0).AddServicePoint (httpAt 1) 5).AddServicePoint (httpAt 2) 7

theorem two_reachable : (balancer RoutePolicy fun _ => 0).Reachable two :=
  .step (.step (.init ⟨0, rfl⟩) (balancer_step RoutePolicy (fun _ => 0) _ (.add (httpAt 1) 5)))
    (balancer_step RoutePolicy (fun _ => 0) _ (.add (httpAt 2) 7))

theorem route_iff_two : Routed (two.refresh RoutePolicy 0) (two.Route RoutePolicy 0 1000000000) := by
  have hseeded : Seeded (two.refresh RoutePolicy 0) 1000000000 :=
    ⟨by decide, .inl (by decide), fun _ _ => .inr (by decide)⟩
  exact (route_iff (fun _ => 0) two_reachable (by decide) (by decide) (by decide)).mpr hseeded

/-- The largest `rand()` makes the seed 13. -/
theorem route_misses : (balancer RoutePolicy fun _ => 0).Reachable two ∧
    two.m_dwTotalQuotas.toNat = two.quotaSum ∧ 1 ≤ (two.refresh RoutePolicy 0).quotaSum ∧
    (two.Route RoutePolicy 0 RAND_MAX).2 = none ∧
    ¬Routed (two.refresh RoutePolicy 0) (two.Route RoutePolicy 0 RAND_MAX) := by
  have hnone : (two.Route RoutePolicy 0 RAND_MAX).2 = none := by decide
  refine ⟨two_reachable, by decide, by decide, hnone, fun h => ?_⟩
  obtain ⟨addr, point, left, -, haddr, -⟩ := h
  rw [hnone] at haddr
  cases haddr

-- 4194307 * RAND_MAX has 54 bits and is rounded down
example : RoundsBelow 4194307 ∧ draw 4194307 RAND_MAX = 4194306 := by decide

end SimpleSvr.L4.LoadBalance
