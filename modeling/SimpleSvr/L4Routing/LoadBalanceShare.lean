import SimpleSvr.Core.Urn
import SimpleSvr.L4Routing.LoadBalanceRoute
import SimpleSvr.L4Routing.LoadBalanceReset
import Mathlib.Algebra.Order.Group.Multiset

/-!
# The share of a point

Within a period of the policy the balancer is an urn: `dwCurrentQuotas` tickets
for each point, of which `dwRealQuotas` are still in it. `Route` draws one, and
puts all back when none is left (`Shares`). Whichever of the `rand()` that it can
use `Route` gets, so, every point takes its part of the requests: `fair_share`.

Left out are the seeds from which `Route` does not route (`Seeded`), and
`Failure` and `EraseServicePoint`, which take tickets away.
-/
namespace SimpleSvr.L4.LoadBalance

variable {lb lb₀ : LoadBalance} {now : Int} {rand : Nat} {addr : SockAddr} {l part : List SockAddr}

/-! ## Tickets -/

/-- Each address as often as `f` says. -/
def tickets (lb : LoadBalance) (f : ServicePoint → UInt32) : Multiset SockAddr :=
  ↑(lb.m_stServicesMap.entries.flatMap fun e => List.replicate (f e.2).toNat e.1)

theorem count_tickets (lb : LoadBalance) (f : ServicePoint → UInt32) (addr : SockAddr) :
    (lb.tickets f).count addr = ((lb.m_stServicesMap.find addr).map fun point => (f point).toNat).getD 0 := by
  obtain ⟨l₁, l₂, h₁, h₂, he, -⟩ := lb.m_stServicesMap.around addr
  have other : ∀ es : List (SockAddr × ServicePoint), (∀ e ∈ es, e.1 ≠ addr) →
      (es.flatMap fun e => List.replicate (f e.2).toNat e.1).count addr = 0 := by
    intro es hes
    refine List.count_eq_zero.mpr fun hmem => ?_
    obtain ⟨e, hemem, ha⟩ := List.mem_flatMap.mp hmem
    exact hes e hemem (List.eq_of_mem_replicate ha).symm
  rw [tickets, Multiset.coe_count, he, List.flatMap_append, List.flatMap_append, List.count_append, List.count_append,
    other l₁ fun e he => ne_of_lt (h₁ e he), other l₂ fun e he => (ne_of_lt (h₂ e he)).symm]
  cases lb.m_stServicesMap.find addr with
  | none => rfl
  | some point => simp

theorem card_tickets (lb : LoadBalance) (f : ServicePoint → UInt32) :
    (lb.tickets f).card = lb.m_stServicesMap.sum fun point => (f point).toNat := by
  simp [tickets, OrdMap.sum, List.length_flatMap]

theorem card_left (lb : LoadBalance) : (lb.tickets ServicePoint.dwRealQuotas).card = lb.quotaSum :=
  card_tickets lb _

/-- One ticket of `e` is drawn. -/
theorem tickets_take {e : SockAddr × ServicePoint} (he : e ∈ lb.m_stServicesMap.entries) (h : e.2.dwRealQuotas ≠ 0) :
    {e.1} + (lb.take e).tickets ServicePoint.dwRealQuotas = lb.tickets ServicePoint.dwRealQuotas := by
  have hfind := OrdMap.mem_iff_find.mp he
  ext a
  rw [Multiset.count_add, Multiset.count_singleton, count_tickets, count_tickets]
  by_cases ha : a = e.1
  · subst ha
    have hleft := (sub_one_succ_iff e.2.dwRealQuotas).mpr h
    rw [take, OrdMap.find_modify, hfind, if_pos rfl]
    simp only [Option.map_some, Option.getD_some]
    omega
  · rw [take, OrdMap.find_modify_ne ha, if_neg ha, Nat.zero_add]

/-- What leaves `f` of every point as it is leaves its tickets. -/
theorem tickets_congr {m : OrdMap SockAddr ServicePoint} {f : ServicePoint → UInt32} {total : UInt32} {t : Int}
    (h : ∀ a, (m.find a).map f = (lb.m_stServicesMap.find a).map f) :
    tickets ⟨total, t, m⟩ f = lb.tickets f := by
  ext a
  rw [count_tickets, count_tickets]
  have ha := congrArg (fun q => (q.map UInt32.toNat).getD 0) (h a)
  simp only [Option.map_map] at ha
  exact ha

/-! ## Runs -/

/-- The balancer, with what `Route` wrote so far. -/
structure Share where
  lb : LoadBalance
  routed : List (Option SockAddr)

inductive ShareOp where
  | route (now : Int) (rand : Nat)
  | success (addr : SockAddr)

def Share.step (s : Share) : ShareOp → Share
  | .route now rand =>
    let r := s.lb.Route RoutePolicy now rand
    { lb := r.1, routed := s.routed ++ [r.2] }
  | .success addr => { s with lb := s.lb.Success addr }

def share (lb₀ : LoadBalance) : LTS Share ShareOp where
  init s := s = ⟨lb₀, []⟩
  step s op s' := s' = s.step op

/-- As a refill leaves the points, with something to route. -/
structure Refilled (lb : LoadBalance) : Prop where
  addressed : Addressed lb
  total : lb.m_dwTotalQuotas.toNat = lb.quotaSum
  some : 1 ≤ lb.quotaSum
  full : ∀ e ∈ lb.m_stServicesMap.entries, e.2.dwRealQuotas = e.2.dwCurrentQuotas

/-- In the period, with a `rand()` that `Route` can use. -/
def InPeriod (s : Share) : ShareOp → Prop
  | .route now rand => rand ≤ RAND_MAX ∧ now - s.lb.m_LastTimestamp ≤ RoutePolicy.ResetTime.toNat ∧
      Seeded (s.lb.refresh RoutePolicy now) rand
  | .success _ => True

/-- `part` is out of the urn `lb₀` filled, and the rest is left in `lb`. -/
structure Urn (lb₀ lb : LoadBalance) (part : List SockAddr) : Prop where
  addressed : Addressed lb
  total : lb.m_dwTotalQuotas.toNat = lb.quotaSum
  quotas : lb.tickets ServicePoint.dwCurrentQuotas = lb₀.tickets ServicePoint.dwCurrentQuotas
  left : (part : Multiset SockAddr) + lb.tickets ServicePoint.dwRealQuotas =
    lb₀.tickets ServicePoint.dwCurrentQuotas

/-- `l` was routed, `part` of it since the last refill. -/
structure Shares (lb₀ : LoadBalance) (s : Share) (l part : List SockAddr) : Prop where
  routed : s.routed = l.map some
  dealt : Dealt (lb₀.tickets ServicePoint.dwCurrentQuotas) l part
  urn : Urn lb₀ s.lb part

/-! ## Routing -/

/-- From a seed between the ends `Route` takes from a point that has something left. -/
theorem route_seeded (ha : Addressed (lb.refresh RoutePolicy now)) (hb : Balanced (lb.refresh RoutePolicy now))
    (hsum : 1 ≤ (lb.refresh RoutePolicy now).quotaSum) (hrand : rand ≤ RAND_MAX)
    (hs : Seeded (lb.refresh RoutePolicy now) rand) :
    ∃ e ∈ (lb.refresh RoutePolicy now).m_stServicesMap.entries, e.2.dwRealQuotas ≠ 0 ∧
      lb.Route RoutePolicy now rand = ((lb.refresh RoutePolicy now).take e, some e.1) := by
  unfold Route RouteBy
  dsimp only
  generalize lb.refresh RoutePolicy now = lb' at *
  have hne : lb'.m_stServicesMap.entries ≠ [] := by
    intro hnil
    rw [quotaSum, OrdMap.sum, hnil] at hsum
    cases hsum
  cases hp : pick (lb'.seed rand) lb'.m_stServicesMap.entries with
  | none =>
    have hover := (pick_eq_none_iff.mp hp).resolve_left hne
    have hunder := (seed_le_iff hb hrand).mpr hs.2.1
    exact absurd hover (Nat.not_lt.mpr hunder)
  | some e =>
    have he := pick_mem hp
    exact ⟨e, he, (picked_left_iff hrand hp).mpr hs.2.2, by simp only [ha e he]⟩

/-- Before the period is over, a refill only puts the tickets back. -/
theorem urn_refresh (h : Urn lb₀ lb part)
    (hsmall : lb₀.m_stServicesMap.sum (fun point => point.dwCurrentQuotas.toNat) < 2 ^ 32)
    (hearly : now - lb.m_LastTimestamp ≤ RoutePolicy.ResetTime.toNat) :
    lb.refresh RoutePolicy now = lb ∨ ((part : Multiset SockAddr) = lb₀.tickets ServicePoint.dwCurrentQuotas ∧
      Urn lb₀ (lb.refresh RoutePolicy now) []) := by
  by_cases h0 : lb.m_dwTotalQuotas = 0
  · right
    have hempty : lb.tickets ServicePoint.dwRealQuotas = 0 := by
      rw [← Multiset.card_eq_zero, card_left, ← h.total, h0]
      rfl
    have hall := h.left
    rw [hempty, add_zero] at hall
    have hfill : lb.refresh RoutePolicy now = lb.refill RoutePolicy false now := by
      have hreset : decide (now - lb.m_LastTimestamp > RoutePolicy.ResetTime.toNat) = false :=
        decide_eq_false (Int.not_lt.mpr hearly)
      unfold refresh
      simp only [hreset, h0, true_or, if_true]
    have hcur : (lb.refill RoutePolicy false now).tickets ServicePoint.dwCurrentQuotas =
        lb₀.tickets ServicePoint.dwCurrentQuotas := by
      rw [← h.quotas]
      refine tickets_congr fun a => ?_
      rw [OrdMap.find_mapVals, Option.map_map]
      rfl
    have hreal : (lb.refill RoutePolicy false now).tickets ServicePoint.dwRealQuotas =
        lb₀.tickets ServicePoint.dwCurrentQuotas := by
      rw [← hcur]
      ext a
      rw [count_tickets, count_tickets, find_refill, Option.map_map, Option.map_map]
      rfl
    have hsum : (lb.refill RoutePolicy false now).quotaSum < 2 ^ 32 := by
      rw [← card_left, hreal, card_tickets]
      exact hsmall
    refine ⟨hall, addressed_refresh h.addressed now, ?_, ?_, ?_⟩
    · rw [hfill, balanced_refill, Nat.mod_eq_of_lt hsum]
    · rw [hfill, hcur]
    · rw [hfill, hreal, Multiset.coe_nil, zero_add]
  · left
    exact refresh_of_not_due fun hdue => hdue.elim h0 fun hlate => Int.not_lt.mpr hearly hlate

theorem urn_take (h : Urn lb₀ lb part) {e : SockAddr × ServicePoint} (he : e ∈ lb.m_stServicesMap.entries)
    (hleft : e.2.dwRealQuotas ≠ 0) (htot : lb.m_dwTotalQuotas ≠ 0) : Urn lb₀ (lb.take e) (part ++ [e.1]) := by
  have hcur : (lb.take e).tickets ServicePoint.dwCurrentQuotas = lb.tickets ServicePoint.dwCurrentQuotas :=
    tickets_congr fun a => find_take lb e a
  have hreal := tickets_take he hleft
  have hone := (sub_one_succ_iff lb.m_dwTotalQuotas).mpr htot
  refine ⟨?_, ?_, ?_, ?_⟩
  · apply addressed_modify h.addressed
    exact fun _ => rfl
  · have hcard := congrArg Multiset.card hreal
    rw [Multiset.card_add, Multiset.card_singleton, card_left, card_left] at hcard
    have htaken : (lb.take e).m_dwTotalQuotas = lb.m_dwTotalQuotas - 1 := rfl
    have htotal := h.total
    rw [htaken]
    omega
  · rw [hcur, h.quotas]
  · rw [← Multiset.coe_add, add_assoc, Multiset.coe_singleton, hreal, h.left]

theorem urn_success (h : Urn lb₀ lb part) (addr : SockAddr) : Urn lb₀ (lb.Success addr) part := by
  have keeps (f : ServicePoint → UInt32) (hf : ∀ point : ServicePoint,
      f { point with dwRecvCount := point.dwRecvCount + 1 } = f point) :
      (lb.Success addr).tickets f = lb.tickets f :=
    tickets_congr fun a => OrdMap.map_find_modify hf _ _ _
  refine ⟨?_, ?_, ?_, ?_⟩
  · apply addressed_modify h.addressed
    exact fun _ => rfl
  · rw [← card_left, keeps _ fun _ => rfl, card_left]
    exact h.total
  · rw [keeps _ fun _ => rfl, h.quotas]
  · rw [keeps _ fun _ => rfl, h.left]

/-! ## All runs -/

/-- A refill leaves the points so. -/
theorem refilled_refresh (ha : Addressed lb) (hdue : due RoutePolicy lb now)
    (hsome : 1 ≤ (lb.refresh RoutePolicy now).quotaSum) (hlt : (lb.refresh RoutePolicy now).quotaSum < 2 ^ 32) :
    Refilled (lb.refresh RoutePolicy now) := by
  have haddr := addressed_refresh ha now
  obtain ⟨reset, hr⟩ := refresh_of_due hdue
  rw [hr] at haddr hsome hlt ⊢
  refine ⟨haddr, by rw [balanced_refill, Nat.mod_eq_of_lt hlt], hsome, fun e he => ?_⟩
  obtain ⟨w, -, he2⟩ := OrdMap.mem_mapVals he
  rw [he2]

theorem Refilled.quotas (h : Refilled lb) :
    lb.tickets ServicePoint.dwRealQuotas = lb.tickets ServicePoint.dwCurrentQuotas := by
  ext a
  rw [count_tickets, count_tickets]
  cases hf : lb.m_stServicesMap.find a with
  | none => rfl
  | some point =>
    have hfull : point.dwRealQuotas = point.dwCurrentQuotas := h.full _ (OrdMap.mem_iff_find.mpr hf)
    simp only [Option.map_some, hfull]

theorem Refilled.sum (h : Refilled lb) :
    (lb.m_stServicesMap.sum fun point => point.dwCurrentQuotas.toNat) = lb.quotaSum := by
  rw [← card_tickets, ← h.quotas, card_left]

theorem Refilled.urn (h : Refilled lb) : Urn lb lb [] :=
  ⟨h.addressed, h.total, rfl, by rw [h.quotas, Multiset.coe_nil, zero_add]⟩

/-- A point is drawn. -/
theorem shares_route {s : Share} (hf : Refilled lb₀) (h : Shares lb₀ s l part) (hp : InPeriod s (.route now rand)) :
    ∃ l part, Shares lb₀ (s.step (.route now rand)) l part := by
  obtain ⟨hrand, hearly, hseeded⟩ := hp
  have hlt := lb₀.m_dwTotalQuotas.toNat_lt
  have hpos := hf.some
  obtain ⟨part', hdealt, hurn⟩ : ∃ part', Dealt (lb₀.tickets ServicePoint.dwCurrentQuotas) l part' ∧
      Urn lb₀ (s.lb.refresh RoutePolicy now) part' := by
    rcases urn_refresh h.urn (by rw [hf.sum, ← hf.total]; exact hlt) hearly with hsame | ⟨hall, hurn⟩
    · rw [hsame]
      exact ⟨part, h.dealt, h.urn⟩
    · exact ⟨[], .again h.dealt hall, hurn⟩
  have hbal : Balanced (s.lb.refresh RoutePolicy now) := by
    rw [Balanced, ← hurn.total, Nat.mod_eq_of_lt (UInt32.toNat_lt _)]
  have hsome : 1 ≤ (s.lb.refresh RoutePolicy now).quotaSum := by
    rw [← hurn.total]
    exact Nat.pos_of_ne_zero fun h0 => hseeded.1 (UInt32.toNat_inj.mp h0)
  obtain ⟨e, he, hleft, hroute⟩ := route_seeded hurn.addressed hbal hsome hrand hseeded
  have htaken := urn_take hurn he hleft hseeded.1
  refine ⟨l ++ [e.1], part' ++ [e.1], ?_, .deal hdealt ?_, ?_⟩
  · simp only [Share.step, hroute, h.routed, List.map_append, List.map_cons, List.map_nil]
  · rw [← htaken.left]
    exact Multiset.le_add_right _ _
  · simp only [Share.step, hroute]
    exact htaken

theorem shares_inductive (hf : Refilled lb₀) :
    ((share lb₀).guard InPeriod).Inductive fun s => ∃ l part, Shares lb₀ s l part where
  init := by
    intro s hs
    cases hs
    exact ⟨[], [], rfl, .start, hf.urn⟩
  step := by
    intro s op s' ⟨l, part, h⟩ ⟨hp, hs⟩
    rw [hs]
    cases op with
    | route now rand => exact shares_route hf h hp
    | success addr => exact ⟨l, part, h.routed, h.dealt, urn_success h.urn addr⟩

/-- In any number of requests of a period, each one routed, a point has its quota of every full round. -/
theorem fair_share (hf : Refilled lb₀) {s : Share} (hr : ((share lb₀).guard InPeriod).Reachable s) :
    none ∉ s.routed ∧ ∀ addr point, lb₀.m_stServicesMap.find addr = some point →
      s.routed.length / lb₀.quotaSum * point.dwCurrentQuotas.toNat ≤ s.routed.count (some addr) ∧
        s.routed.count (some addr) ≤
          (s.routed.length + lb₀.quotaSum - 1) / lb₀.quotaSum * point.dwCurrentQuotas.toNat := by
  obtain ⟨l, part, h⟩ := (shares_inductive hf).reachable s hr
  refine ⟨by simp [h.routed], fun addr point hfind => ?_⟩
  have hshare := h.dealt.share addr
  rw [card_tickets, hf.sum, count_tickets, hfind, Option.map_some, Option.getD_some] at hshare
  rwa [h.routed, List.length_map, List.count_map_of_injective _ _ (Option.some_injective _)]

theorem two_refilled : Refilled two where
  addressed := addressed_reachable two_reachable
  total := by decide
  some := by decide
  full := by decide

/-- The first of the twelve requests that are five for the one and seven for the other. -/
theorem fair_share_two : none ∉ (Share.step ⟨two, []⟩ (.route 0 1000000000)).routed ∧
    (Share.step ⟨two, []⟩ (.route 0 1000000000)).routed.count (some (httpAt 1)) ≤ 5 := by
  have hstep : ((share two).guard InPeriod).step ⟨two, []⟩ (.route 0 1000000000)
      (Share.step ⟨two, []⟩ (.route 0 1000000000)) :=
    ⟨⟨by decide, by decide, by decide, .inl (by decide), fun _ _ => .inr (by decide)⟩, rfl⟩
  obtain ⟨hnone, hshare⟩ := fair_share two_refilled (.step (.init rfl) hstep)
  exact ⟨hnone, (hshare (httpAt 1) ⟨httpAt 1, 0, 0, 5, 5, 5⟩ rfl).2⟩

end SimpleSvr.L4.LoadBalance
