import SimpleSvr.Core.LTS
import SimpleSvr.L4Routing.LoadBalance

/-!
# The total of the quotas

`m_dwTotalQuotas` follows the map in every operation but one: where
`AddServicePoint` or a line of a configuration file names an address that the
map has, the point stays what it was and the total still grows.
`total_run`: without that the total is the sum of the quotas that are left,
modulo 2^32.
-/
namespace SimpleSvr.L4.LoadBalance

/-- The sum of `dwRealQuotas` over the points. -/
def quotaSum (lb : LoadBalance) : Nat := lb.m_stServicesMap.sum fun point => point.dwRealQuotas.toNat

/-- The total is the sum, in `uint32_t`. -/
def Balanced (lb : LoadBalance) : Prop := lb.m_dwTotalQuotas.toNat = lb.quotaSum % 2 ^ 32

variable {lb : LoadBalance} {addr : SockAddr}

/-! ## Operations -/

theorem quotaSum_add_new (h : lb.m_stServicesMap.find addr = none) (q : UInt32) :
    (lb.AddServicePoint addr q).quotaSum = lb.quotaSum + q.toNat :=
  OrdMap.sum_insert h _ _

theorem quotaSum_add_known {point : ServicePoint} (h : lb.m_stServicesMap.find addr = some point) (q : UInt32) :
    (lb.AddServicePoint addr q).quotaSum = lb.quotaSum := by
  rw [quotaSum, AddServicePoint, OrdMap.insert_of_find h]
  rfl

/-- What an addition leaves between total and sum: nothing, or the quota of a point that was there. -/
def excess (lb : LoadBalance) (addr : SockAddr) (q : UInt32) : Nat :=
  if lb.m_stServicesMap.find addr = none then 0 else q.toNat

theorem total_add {extra : Nat} (h : lb.m_dwTotalQuotas.toNat = (lb.quotaSum + extra) % 2 ^ 32)
    (addr : SockAddr) (q : UInt32) :
    (lb.AddServicePoint addr q).m_dwTotalQuotas.toNat =
      ((lb.AddServicePoint addr q).quotaSum + (extra + lb.excess addr q)) % 2 ^ 32 := by
  have htot : (lb.AddServicePoint addr q).m_dwTotalQuotas.toNat = (lb.m_dwTotalQuotas.toNat + q.toNat) % 2 ^ 32 :=
    UInt32.toNat_add _ _
  rw [htot, h, excess]
  cases hf : lb.m_stServicesMap.find addr with
  | none =>
    rw [quotaSum_add_new hf, if_pos rfl]
    omega
  | some point =>
    rw [quotaSum_add_known hf, if_neg (Option.some_ne_none _)]
    omega

/-- Of a file, the quotas of the lines whose address stands on an earlier line. -/
def repeated (lb : LoadBalance) : List (SockAddr × UInt32) → Nat
  | [] => 0
  | l :: ls => lb.excess l.1 l.2 + repeated (lb.AddServicePoint l.1 l.2) ls

theorem total_load {extra : Nat} (h : lb.m_dwTotalQuotas.toNat = (lb.quotaSum + extra) % 2 ^ 32)
    (ls : List (SockAddr × UInt32)) :
    (ls.foldl (fun lb l => lb.AddServicePoint l.1 l.2) lb).m_dwTotalQuotas.toNat =
      ((ls.foldl (fun lb l => lb.AddServicePoint l.1 l.2) lb).quotaSum + (extra + repeated lb ls)) % 2 ^ 32 := by
  induction ls generalizing lb extra with
  | nil => exact h
  | cons l ls ih =>
    rw [List.foldl_cons, repeated, ← Nat.add_assoc extra]
    exact ih (total_add h l.1 l.2)

theorem foldl_total (l : List (SockAddr × ServicePoint)) (t : UInt32) :
    (l.foldl (fun total e => total + e.2.dwRealQuotas) t).toNat =
      (t.toNat + (l.map fun e => e.2.dwRealQuotas.toNat).sum) % 2 ^ 32 := by
  induction l generalizing t with
  | nil => exact (Nat.mod_eq_of_lt t.toNat_lt).symm
  | cons e l ih =>
    rw [List.foldl_cons, ih, UInt32.toNat_add, List.map_cons, List.sum_cons]
    omega

/-- A refill counts the total anew. -/
theorem balanced_refill (P : Policy) (lb : LoadBalance) (reset : Bool) (now : Int) :
    Balanced (lb.refill P reset now) := by
  have h := foldl_total (lb.refill P reset now).m_stServicesMap.entries 0
  rw [UInt32.toNat_zero, Nat.zero_add] at h
  exact h

theorem balanced_refresh (P : Policy) (h : Balanced lb) (now : Int) : Balanced (lb.refresh P now) := by
  unfold refresh
  simp only []
  split
  · exact balanced_refill P lb _ now
  · exact h

theorem pick_mem {dwSeed : UInt32} {l : List (SockAddr × ServicePoint)} {e : SockAddr × ServicePoint}
    (h : pick dwSeed l = some e) : e ∈ l := by
  induction l generalizing dwSeed with
  | nil => cases h
  | cons a l ih =>
    rw [pick] at h
    split at h
    · cases h
      exact List.mem_cons_self
    · exact List.mem_cons_of_mem _ (ih h)

theorem balanced_take (h : Balanced lb) {e : SockAddr × ServicePoint} (he : e ∈ lb.m_stServicesMap.entries) :
    Balanced (lb.take e) := by
  have hsum : (lb.take e).quotaSum + e.2.dwRealQuotas.toNat = lb.quotaSum + (e.2.dwRealQuotas - 1).toNat :=
    OrdMap.sum_modify (OrdMap.mem_iff_find.mp he) (fun point =>
      { point with dwSendCount := point.dwSendCount + 1, dwRealQuotas := point.dwRealQuotas - 1 })
      fun point => point.dwRealQuotas.toNat
  have htot : (lb.take e).m_dwTotalQuotas = lb.m_dwTotalQuotas - 1 := rfl
  have h1 : (1 : UInt32).toNat = 1 := rfl
  have hr := e.2.dwRealQuotas.toNat_lt
  rw [UInt32.toNat_sub, h1] at hsum
  rw [Balanced] at h ⊢
  rw [htot, UInt32.toNat_sub, h1]
  omega

theorem balanced_route (P : Policy) (h : Balanced lb) (now : Int) (rand : Nat) :
    Balanced (lb.Route P now rand).1 := by
  have hb := balanced_refresh P h now
  unfold Route RouteBy
  simp only []
  cases hp : pick ((lb.refresh P now).seed rand) (lb.refresh P now).m_stServicesMap.entries with
  | none => exact hb
  | some e => exact balanced_take hb (pick_mem hp)

theorem balanced_erase (h : Balanced lb) (addr : SockAddr) : Balanced (lb.EraseServicePoint addr) := by
  unfold EraseServicePoint
  cases hf : lb.m_stServicesMap.find addr with
  | none => exact h
  | some point =>
    have hsum := OrdMap.sum_erase hf fun point => point.dwRealQuotas.toNat
    have hr := point.dwRealQuotas.toNat_lt
    simp only [Balanced, quotaSum, UInt32.toNat_sub] at h ⊢
    omega

theorem balanced_failure (h : Balanced lb) (addr : SockAddr) : Balanced (lb.Failure addr) := by
  unfold Failure
  cases hf : lb.m_stServicesMap.find addr with
  | none => exact h
  | some point =>
    have hsum := OrdMap.sum_modify hf (fun point => { point with dwRealQuotas := 0, dwCurrentQuotas := 1 })
      fun point => point.dwRealQuotas.toNat
    have hr := point.dwRealQuotas.toNat_lt
    have h0 : (0 : UInt32).toNat = 0 := rfl
    simp only [Balanced, quotaSum, UInt32.toNat_sub] at h hsum ⊢
    omega

theorem balanced_success (h : Balanced lb) (addr : SockAddr) : Balanced (lb.Success addr) := by
  have hsum : (lb.Success addr).quotaSum = lb.quotaSum := by
    cases hf : lb.m_stServicesMap.find addr with
    | none => rw [quotaSum, Success, OrdMap.modify_of_find hf, quotaSum]
    | some point =>
      have h := OrdMap.sum_modify hf (fun point => { point with dwRecvCount := point.dwRecvCount + 1 })
        fun point => point.dwRealQuotas.toNat
      exact Nat.add_right_cancel h
  rw [Balanced, hsum]
  exact h

/-! ## Runs -/

inductive Op where
  | clear
  | add (addr : SockAddr) (dwQuotas : UInt32)
  | load (strContent : Option Bytes) (now : Int)
  | route (now : Int) (rand : Nat)
  | erase (addr : SockAddr)
  | failure (addr : SockAddr)
  | success (addr : SockAddr)

def apply (P : Policy) (inet_addr : Bytes → UInt32) (lb : LoadBalance) : Op → LoadBalance
  | .clear => lb.Clear
  | .add addr dwQuotas => lb.AddServicePoint addr dwQuotas
  | .load strContent now => (LoadConfigure inet_addr lb strContent now).1
  | .route now rand => (lb.Route P now rand).1
  | .erase addr => lb.EraseServicePoint addr
  | .failure addr => lb.Failure addr
  | .success addr => lb.Success addr

/-- Any operations from an empty load balancer. -/
def balancer (P : Policy) (inet_addr : Bytes → UInt32) : LTS LoadBalance Op where
  init lb := ∃ t, lb = new t
  step lb op lb' := lb' = lb.apply P inet_addr op

/-- No quota is counted for a point that is there already: not by `AddServicePoint`, and in
sum not by the lines of a file. -/
def CountsNew (inet_addr : Bytes → UInt32) (lb : LoadBalance) : Op → Prop
  | .add addr dwQuotas => lb.m_stServicesMap.find addr = none ∨ dwQuotas = 0
  | .load (some strContent) _ => repeated lb.Clear (parse inet_addr strContent) % 2 ^ 32 = 0
  | _ => True

theorem balanced_clear (lb : LoadBalance) : Balanced lb.Clear := rfl

theorem balanced_add_iff (h : Balanced lb) (addr : SockAddr) (q : UInt32) :
    Balanced (lb.AddServicePoint addr q) ↔ lb.m_stServicesMap.find addr = none ∨ q = 0 := by
  have htot := @total_add lb 0 h addr q
  rw [Nat.zero_add] at htot
  rw [Balanced, htot, excess]
  cases hf : lb.m_stServicesMap.find addr with
  | none => simp
  | some point =>
    have hq := q.toNat_lt
    rw [if_neg (Option.some_ne_none _), ← UInt32.toNat_inj, UInt32.toNat_zero]
    simp only [Option.some_ne_none, false_or]
    omega

theorem balanced_load_iff (inet_addr : Bytes → UInt32) (lb : LoadBalance) (strContent : Bytes) (now : Int) :
    Balanced (LoadConfigure inet_addr lb (some strContent) now).1 ↔
      repeated lb.Clear (parse inet_addr strContent) % 2 ^ 32 = 0 := by
  have htot := @total_load lb.Clear 0 (balanced_clear lb) (parse inet_addr strContent)
  rw [Nat.zero_add] at htot
  have hload : Balanced (LoadConfigure inet_addr lb (some strContent) now).1 ↔
      Balanced ((parse inet_addr strContent).foldl (fun lb l => lb.AddServicePoint l.1 l.2) lb.Clear) := Iff.rfl
  rw [hload, Balanced, htot]
  omega

/-- In a run that counts no quota for a known point the total is the sum; and from there an
operation keeps it exactly when it counts none. -/
theorem total_run (P : Policy) (inet_addr : Bytes → UInt32) {lb : LoadBalance}
    (hr : ((balancer P inet_addr).guard (CountsNew inet_addr)).Reachable lb) :
    Balanced lb ∧ ∀ op, Balanced (lb.apply P inet_addr op) ↔ CountsNew inet_addr lb op := by
  have hstep {lb : LoadBalance} (h : Balanced lb) (op : Op) :
      Balanced (lb.apply P inet_addr op) ↔ CountsNew inet_addr lb op := by
    cases op with
    | clear => exact iff_of_true (balanced_clear lb) trivial
    | add addr dwQuotas => exact balanced_add_iff h addr dwQuotas
    | load strContent now =>
      cases strContent with
      | none => exact iff_of_true h trivial
      | some strContent => exact balanced_load_iff inet_addr lb strContent now
    | route now rand => exact iff_of_true (balanced_route P h now rand) trivial
    | erase addr => exact iff_of_true (balanced_erase h addr) trivial
    | failure addr => exact iff_of_true (balanced_failure h addr) trivial
    | success addr => exact iff_of_true (balanced_success h addr) trivial
  have hind : ((balancer P inet_addr).guard (CountsNew inet_addr)).Inductive Balanced := by
    constructor
    · rintro lb ⟨t, rfl⟩
      rfl
    · rintro lb op lb' h ⟨hc, rfl⟩
      exact (hstep h op).mpr hc
  have hb := hind.reachable lb hr
  exact ⟨hb, hstep hb⟩

/-- An address to route to: port 80 of the address given. -/
def httpAt (s_addr : UInt32) : SockAddr := sockAddr s_addr 80

theorem balancer_step (P : Policy) (inet_addr : Bytes → UInt32) (lb : LoadBalance) (op : Op) :
    (balancer P inet_addr).step lb op (lb.apply P inet_addr op) := rfl

/-- Two points, one request. -/
theorem total_run_two :
    Balanced ((((new 0).AddServicePoint (httpAt 1) 5).AddServicePoint (httpAt 2) 7).Route RoutePolicy 0 9).1 := by
  have h0 : ((balancer RoutePolicy fun _ => 0).guard (CountsNew fun _ => 0)).Reachable (new 0) := .init ⟨0, rfl⟩
  have h1 := h0.allowed (balancer_step RoutePolicy (fun _ => 0) _ (.add (httpAt 1) 5)) (Or.inl (by decide))
  have h2 := h1.allowed (balancer_step RoutePolicy (fun _ => 0) _ (.add (httpAt 2) 7)) (Or.inl (by decide))
  have h3 := h2.allowed (balancer_step RoutePolicy (fun _ => 0) _ (.route 0 9)) True.intro
  exact (total_run RoutePolicy (fun _ => 0) h3).1

/-- One address added twice: the total is 12, the quotas that are left sum to 5. -/
theorem total_drifts : ∃ lb, (balancer RoutePolicy fun _ => 0).Reachable lb ∧ ¬Balanced lb := by
  have h0 : (balancer RoutePolicy fun _ => 0).Reachable (new 0) := .init ⟨0, rfl⟩
  have h1 := h0.step (balancer_step RoutePolicy (fun _ => 0) _ (.add (httpAt 1) 5))
  have h2 := h1.step (balancer_step RoutePolicy (fun _ => 0) _ (.add (httpAt 1) 7))
  refine ⟨_, h2, ?_⟩
  unfold Balanced
  decide

end SimpleSvr.L4.LoadBalance
