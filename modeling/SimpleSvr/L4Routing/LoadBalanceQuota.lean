import SimpleSvr.L4Routing.LoadBalanceTotal
import Mathlib.Logic.Function.Basic

/-!
# Quotas are not overdrawn

`pick` compares the seed with `<=`: a seed of 0 stops at the first point of the
map, whatever is left there. At any later point, and with any other seed, the
point it stops at has a request left (`pick_cases`). `quota_run`: a run in which
the seed is not 0 while the first point is empty never overdraws.

The run counts, beside the load balancer, what a point was given at the last
refill and what it was selected since.
-/
namespace SimpleSvr.L4.LoadBalance

/-- A selected point and the total, as `Route` found them after its refill. -/
structure Selection where
  point : ServicePoint
  total : UInt32
  /-- marked by `Failure` since the last refill -/
  failed : Bool

structure Run where
  lb : LoadBalance
  /-- ghost: `dwCurrentQuotas` at the last refill -/
  budget : SockAddr → Nat
  /-- ghost: selections since then -/
  picked : SockAddr → Nat
  /-- ghost: marked by `Failure` since then -/
  failed : SockAddr → Bool
  /-- ghost: every selection -/
  log : List Selection

inductive Call where
  | add (addr : SockAddr) (dwQuotas : UInt32)
  | route (now : Int) (rand : Nat)
  | erase (addr : SockAddr)
  | failure (addr : SockAddr)
  | success (addr : SockAddr)

/-- `Route` refills first. -/
def due (P : Policy) (lb : LoadBalance) (now : Int) : Prop :=
  lb.m_dwTotalQuotas = 0 ∨ now - lb.m_LastTimestamp > P.ResetTime.toNat

instance (P : Policy) (lb : LoadBalance) (now : Int) : Decidable (due P lb now) :=
  inferInstanceAs (Decidable (_ ∨ _))

namespace Run

/-- The first half of `Route`. -/
def refresh (u : Run) (now : Int) : Run :=
  let lb := u.lb.refresh RoutePolicy now
  if due RoutePolicy u.lb now then
    { lb
      budget := fun addr => ((lb.m_stServicesMap.find addr).map fun point => point.dwCurrentQuotas.toNat).getD 0
      picked := fun _ => 0
      failed := fun _ => false
      log := u.log }
  else { u with lb }

/-- The second half of `Route`, for the point it picked. -/
def take (u : Run) (e : SockAddr × ServicePoint) : Run :=
  { u with
    lb := u.lb.take e
    picked := Function.update u.picked e.1 (u.picked e.1 + 1)
    log := ⟨e.2, u.lb.m_dwTotalQuotas, u.failed e.1⟩ :: u.log }

/-- `Route` with the seed taken exactly. -/
def route (u : Run) (now : Int) (rand : Nat) : Run :=
  match pick ((u.refresh now).lb.exactSeed rand) (u.refresh now).lb.m_stServicesMap.entries with
  | none => u.refresh now
  | some e => (u.refresh now).take e

def add (u : Run) (addr : SockAddr) (dwQuotas : UInt32) : Run :=
  { u with
    lb := u.lb.AddServicePoint addr dwQuotas
    budget := Function.update u.budget addr dwQuotas.toNat
    picked := Function.update u.picked addr 0
    failed := Function.update u.failed addr false }

def erase (u : Run) (addr : SockAddr) : Run := { u with lb := u.lb.EraseServicePoint addr }

def failure (u : Run) (addr : SockAddr) : Run :=
  { u with lb := u.lb.Failure addr, failed := Function.update u.failed addr true }

def success (u : Run) (addr : SockAddr) : Run := { u with lb := u.lb.Success addr }

theorem refresh_lb (u : Run) (now : Int) : (u.refresh now).lb = u.lb.refresh RoutePolicy now := by
  unfold refresh
  simp only []
  split <;> rfl

/-- A run's `route` runs `Route`. -/
theorem route_lb (u : Run) (now : Int) (rand : Nat) :
    (u.route now rand).lb = (u.lb.RouteBy exactSeed RoutePolicy now rand).1 := by
  unfold route RouteBy
  simp only [refresh_lb]
  cases pick ((u.lb.refresh RoutePolicy now).exactSeed rand) (u.lb.refresh RoutePolicy now).m_stServicesMap.entries with
  | none => exact refresh_lb u now
  | some e => exact congrArg (LoadBalance.take · e) (refresh_lb u now)

end Run

def maxSum (lb : LoadBalance) : Nat := lb.m_stServicesMap.sum fun point => point.dwMaxQuotas.toNat

/-- Distinct addresses, quotas that sum to less than 2^31, and any `rand()`. -/
def routing : LTS Run Call where
  init u := ∃ t, u = ⟨new t, fun _ => 0, fun _ => 0, fun _ => false, []⟩
  step u c u' :=
    match c with
    | .add addr dwQuotas => u.lb.m_stServicesMap.find addr = none ∧ u.lb.maxSum + dwQuotas.toNat < 2 ^ 31 ∧
        u' = u.add addr dwQuotas
    | .route now rand => rand ≤ RAND_MAX ∧ u' = u.route now rand
    | .erase addr => u' = u.erase addr
    | .failure addr => u' = u.failure addr
    | .success addr => u' = u.success addr

/-- After the refill that is due, the first point of the map has a request left, or the
seed is not 0. A map of 2^31 points would wrap the total: a point of quota 0 gets 1 after a failure. -/
def Fair (u : Run) : Call → Prop
  | .add _ _ => u.lb.m_stServicesMap.entries.length + 1 < 2 ^ 31
  | .route now rand => ∀ e, (u.lb.refresh RoutePolicy now).m_stServicesMap.entries.head? = some e →
      e.2.dwRealQuotas ≠ 0 ∨ RAND_MAX ≤ ((u.lb.refresh RoutePolicy now).m_dwTotalQuotas + 1).toNat * rand
  | _ => True

/-- Every selected point had a request left, the total too, and no `Failure` since the refill; no
point was selected beyond its quota; and the total is what the points have left, so that no
subtraction wraps. -/
structure Kept (u : Run) : Prop where
  selected : ∀ s ∈ u.log, s.point.dwRealQuotas ≠ 0 ∧ s.total ≠ 0 ∧ s.failed = false
  spent : ∀ addr, u.picked addr ≤ u.budget addr
  exact : u.lb.m_dwTotalQuotas.toNat = u.lb.quotaSum

/-! ## Picking -/

theorem pick_pos {dwSeed : UInt32} {l : List (SockAddr × ServicePoint)} {e : SockAddr × ServicePoint}
    (h0 : dwSeed ≠ 0) (h : pick dwSeed l = some e) : e.2.dwRealQuotas ≠ 0 := by
  induction l generalizing dwSeed with
  | nil => cases h
  | cons a l ih =>
    rw [pick] at h
    split at h
    · next hle =>
      cases h
      intro hz
      rw [hz, UInt32.le_iff_toNat_le] at hle
      exact h0 (UInt32.toNat_inj.mp (Nat.le_zero.mp hle))
    · next hlt =>
      -- the seed is larger than this point's quota, so something is left of it
      refine ih ?_ h
      intro hz
      have hd := congrArg UInt32.toNat hz
      have hs := dwSeed.toNat_lt
      rw [UInt32.toNat_sub, UInt32.toNat_zero] at hd
      rw [UInt32.le_iff_toNat_le] at hlt
      omega

/-- A point without requests is only picked first, with the seed 0. -/
theorem pick_cases {dwSeed : UInt32} {l : List (SockAddr × ServicePoint)} {e : SockAddr × ServicePoint}
    (h : pick dwSeed l = some e) : e.2.dwRealQuotas ≠ 0 ∨ (dwSeed = 0 ∧ l.head? = some e) := by
  by_cases h0 : dwSeed = 0
  · right
    subst h0
    cases l with
    | nil => cases h
    | cons a l =>
      rw [pick, if_pos UInt32.zero_le] at h
      exact ⟨rfl, h⟩
  · exact .inl (pick_pos h0 h)

/-! ## The invariant -/

/-- No quota above the larger of 1 and the maximum. -/
def Capped (point : ServicePoint) : Prop :=
  point.dwRealQuotas.toNat ≤ point.dwMaxQuotas.toNat + 1 ∧ point.dwCurrentQuotas.toNat ≤ point.dwMaxQuotas.toNat + 1

structure Inv (u : Run) : Prop where
  balanced : Balanced u.lb
  capped : ∀ e ∈ u.lb.m_stServicesMap.entries, Capped e.2
  room : u.lb.maxSum < 2 ^ 31
  few : u.lb.m_stServicesMap.entries.length < 2 ^ 31
  /-- what a point has left and what it was selected are within its quota -/
  left : ∀ e ∈ u.lb.m_stServicesMap.entries, e.2.dwRealQuotas.toNat + u.picked e.1 ≤ u.budget e.1
  dead : ∀ e ∈ u.lb.m_stServicesMap.entries, u.failed e.1 = true → e.2.dwRealQuotas = 0
  spent : ∀ addr, u.picked addr ≤ u.budget addr
  selected : ∀ s ∈ u.log, s.point.dwRealQuotas ≠ 0 ∧ s.total ≠ 0 ∧ s.failed = false

variable {u : Run} {addr : SockAddr}

theorem Inv.quotaSum_lt (h : Inv u) : u.lb.quotaSum + 1 < 2 ^ 32 := by
  have hle : u.lb.quotaSum ≤ u.lb.maxSum + u.lb.m_stServicesMap.entries.length :=
    OrdMap.sum_le_add_length fun e he => (h.capped e he).1
  have := h.room
  have := h.few
  omega

theorem Inv.exact (h : Inv u) : u.lb.m_dwTotalQuotas.toNat = u.lb.quotaSum := by
  have := h.quotaSum_lt
  rw [h.balanced, Nat.mod_eq_of_lt (by omega)]

theorem Inv.kept (h : Inv u) : Kept u := ⟨h.selected, h.spent, h.exact⟩

theorem raised_le (point : ServicePoint) (parts : Nat) : (raised point parts).toNat ≤ point.dwMaxQuotas.toNat := by
  unfold raised
  simp only []
  split
  · exact Nat.le_refl _
  · next h => exact UInt32.le_iff_toNat_le.mp (UInt32.not_lt.mp h)

/-- The policy's quotas are capped. -/
theorem capped_reset {point : ServicePoint} (h : Capped point) (reset : Bool) :
    Capped { (if reset then RoutePolicy.Reset point else point) with
      dwRealQuotas := (if reset then RoutePolicy.Reset point else point).dwCurrentQuotas } := by
  have h5 := raised_le point 5
  have h20 := raised_le point 20
  have h1 : (1 : UInt32).toNat = 1 := rfl
  have hcur : (RoutePolicy.Reset point).dwCurrentQuotas.toNat ≤ point.dwMaxQuotas.toNat + 1 := by
    unfold RoutePolicy
    simp only []
    split_ifs
    · omega
    · omega
    · omega
    · exact h.2
  cases reset with
  | true => exact ⟨hcur, hcur⟩
  | false => exact ⟨h.2, h.2⟩

theorem max_reset (point : ServicePoint) (reset : Bool) :
    (if reset then RoutePolicy.Reset point else point).dwMaxQuotas = point.dwMaxQuotas := by
  cases reset <;> rfl

theorem maxSum_refill (lb : LoadBalance) (reset : Bool) (now : Int) :
    (lb.refill RoutePolicy reset now).maxSum = lb.maxSum :=
  @OrdMap.sum_mapVals _ _ _ lb.m_stServicesMap _ (fun point => point.dwMaxQuotas.toNat)
    fun _ point => congrArg UInt32.toNat (max_reset point reset)

theorem refresh_of_not_due {lb : LoadBalance} {now : Int} (h : ¬due RoutePolicy lb now) :
    lb.refresh RoutePolicy now = lb :=
  if_neg fun hc => h (hc.imp_right of_decide_eq_true)

theorem refresh_of_due {lb : LoadBalance} {now : Int} (h : due RoutePolicy lb now) :
    ∃ reset, lb.refresh RoutePolicy now = lb.refill RoutePolicy reset now :=
  ⟨_, if_pos (h.imp_right decide_eq_true)⟩

/-- The period is over: the refill resets. -/
theorem refresh_of_late {lb : LoadBalance} {now : Int} (h : now - lb.m_LastTimestamp > RoutePolicy.ResetTime.toNat) :
    lb.refresh RoutePolicy now = lb.refill RoutePolicy true now := by
  have hreset : decide (now - lb.m_LastTimestamp > RoutePolicy.ResetTime.toNat) = true := decide_eq_true h
  unfold refresh
  simp only [hreset]
  exact if_pos (.inr trivial)

/-- A refilled point starts its period with its current quota. -/
theorem mem_refill {lb : LoadBalance} {reset : Bool} {now : Int} {e : SockAddr × ServicePoint}
    (he : e ∈ (lb.refill RoutePolicy reset now).m_stServicesMap.entries)
    (hc : ∀ e ∈ lb.m_stServicesMap.entries, Capped e.2) :
    Capped e.2 ∧ e.2.dwRealQuotas = e.2.dwCurrentQuotas := by
  obtain ⟨w, hw, he2⟩ := OrdMap.mem_mapVals he
  rw [he2]
  exact ⟨capped_reset (hc _ hw) reset, rfl⟩

theorem inv_refresh (h : Inv u) (now : Int) : Inv (u.refresh now) := by
  by_cases hd : due RoutePolicy u.lb now
  · obtain ⟨reset, hlb⟩ := refresh_of_due hd
    have hu : u.refresh now =
        { lb := u.lb.refill RoutePolicy reset now
          budget := fun addr => (((u.lb.refill RoutePolicy reset now).m_stServicesMap.find addr).map
            fun point => point.dwCurrentQuotas.toNat).getD 0
          picked := fun _ => 0
          failed := fun _ => false
          log := u.log } := by
      rw [Run.refresh, if_pos hd, hlb]
    rw [hu]
    refine ⟨balanced_refill _ _ _ _, fun e he => (mem_refill he h.capped).1, ?_, ?_, ?_, ?_, ?_, h.selected⟩
    · exact (maxSum_refill u.lb reset now).trans_lt h.room
    · exact (OrdMap.length_mapVals _ _).trans_lt h.few
    · intro e he
      have hf : (u.lb.refill RoutePolicy reset now).m_stServicesMap.find e.1 = some e.2 := OrdMap.mem_iff_find.mp he
      show e.2.dwRealQuotas.toNat + 0 ≤ (((u.lb.refill RoutePolicy reset now).m_stServicesMap.find e.1).map
        fun point => point.dwCurrentQuotas.toNat).getD 0
      rw [hf, (mem_refill he h.capped).2]
      exact Nat.le_refl _
    · exact fun e he hfail => nomatch hfail
    · exact fun addr => Nat.zero_le _
  · have hu : u.refresh now = u := by
      rw [Run.refresh, if_neg hd, refresh_of_not_due hd]
    rw [hu]
    exact h

theorem maxSum_modify {m : OrdMap SockAddr ServicePoint} {f : ServicePoint → ServicePoint}
    (hf : ∀ point, (f point).dwMaxQuotas = point.dwMaxQuotas) (addr : SockAddr) :
    ((m.modify addr f).sum fun point => point.dwMaxQuotas.toNat) = m.sum fun point => point.dwMaxQuotas.toNat :=
  OrdMap.sum_modify_of_eq fun point => congrArg UInt32.toNat (hf point)

theorem not_mem_of_find {m : OrdMap SockAddr ServicePoint} {e : SockAddr × ServicePoint} (hf : m.find addr = none)
    (he : e ∈ m.entries) : e.1 ≠ addr := by
  intro heq
  rw [← heq, OrdMap.mem_iff_find.mp he] at hf
  cases hf

/-- One point changes; of the others nothing was counted. -/
theorem Inv.modified {u' : Run} {f : ServicePoint → ServicePoint} (h : Inv u) (hb : Balanced u'.lb)
    (hmap : u'.lb.m_stServicesMap = u.lb.m_stServicesMap.modify addr f)
    (hmax : ∀ point, (f point).dwMaxQuotas = point.dwMaxQuotas) (hbudget : u'.budget = u.budget)
    (hpicked : ∀ a, a ≠ addr → u'.picked a = u.picked a) (hfailed : ∀ a, a ≠ addr → u'.failed a = u.failed a)
    (hself : ∀ w, (addr, w) ∈ u.lb.m_stServicesMap.entries → Capped (f w) ∧
      (f w).dwRealQuotas.toNat + u'.picked addr ≤ u.budget addr ∧ (u'.failed addr = true → (f w).dwRealQuotas = 0))
    (hspent : u'.picked addr ≤ u.budget addr)
    (hselected : ∀ s ∈ u'.log, s.point.dwRealQuotas ≠ 0 ∧ s.total ≠ 0 ∧ s.failed = false) : Inv u' where
  balanced := hb
  capped := by
    intro a ha
    rw [hmap] at ha
    rcases OrdMap.mem_modify ha with ⟨ha, -⟩ | ⟨w, hw, rfl⟩
    · exact h.capped a ha
    · exact (hself w hw).1
  room := by
    have hroom := h.room
    rw [maxSum, hmap, maxSum_modify hmax]
    exact hroom
  few := by
    rw [hmap]
    exact (OrdMap.length_mapVals _ _).trans_lt h.few
  left := by
    intro a ha
    rw [hmap] at ha
    rw [hbudget]
    rcases OrdMap.mem_modify ha with ⟨ha, hne⟩ | ⟨w, hw, rfl⟩
    · rw [hpicked a.1 hne]
      exact h.left a ha
    · exact (hself w hw).2.1
  dead := by
    intro a ha hfail
    rw [hmap] at ha
    rcases OrdMap.mem_modify ha with ⟨ha, hne⟩ | ⟨w, hw, rfl⟩
    · exact h.dead a ha (hfailed a.1 hne ▸ hfail)
    · exact (hself w hw).2.2 hfail
  spent := by
    intro a
    rw [hbudget]
    by_cases hne : a = addr
    · exact hne ▸ hspent
    · rw [hpicked a hne]
      exact h.spent a
  selected := hselected

theorem inv_take (h : Inv u) {e : SockAddr × ServicePoint} (he : e ∈ u.lb.m_stServicesMap.entries)
    (hr : e.2.dwRealQuotas ≠ 0) : Inv (u.take e) := by
  have hpos : 1 ≤ e.2.dwRealQuotas.toNat := by
    have hz : (0 : UInt32).toNat = 0 := rfl
    have hne := UInt32.toNat_inj.not.mpr hr
    omega
  have hsub : (e.2.dwRealQuotas - 1).toNat = e.2.dwRealQuotas.toNat - 1 := by
    have h1 : (1 : UInt32).toNat = 1 := rfl
    have := e.2.dwRealQuotas.toNat_lt
    rw [UInt32.toNat_sub, h1]
    omega
  have hleft := h.left e he
  have hpicked : (u.take e).picked e.1 = u.picked e.1 + 1 := Function.update_self _ _ _
  have hmap : (u.take e).lb.m_stServicesMap = u.lb.m_stServicesMap.modify e.1 fun point =>
      { point with dwSendCount := point.dwSendCount + 1, dwRealQuotas := point.dwRealQuotas - 1 } := rfl
  apply h.modified (balanced_take h.balanced he) hmap
  · exact fun _ => rfl
  · rfl
  · exact fun a hne => Function.update_of_ne hne _ _
  · exact fun _ _ => rfl
  · intro w hw
    obtain rfl : w = e.2 := congrArg Prod.snd (OrdMap.eq_of_mem hw he rfl)
    have hcapped := h.capped e he
    refine ⟨⟨?_, hcapped.2⟩, ?_, fun hfail => absurd (h.dead e he hfail) hr⟩
    · simp only [hsub]
      exact Nat.le_trans (Nat.sub_le _ _) hcapped.1
    · simp only [hsub, hpicked]
      omega
  · rw [hpicked]
    omega
  · intro s hs
    rcases List.mem_cons.mp hs with rfl | hs
    · refine ⟨hr, fun hz => ?_, ?_⟩
      · have hle : e.2.dwRealQuotas.toNat ≤ u.lb.quotaSum :=
          OrdMap.le_sum (OrdMap.mem_iff_find.mp he) fun point => point.dwRealQuotas.toNat
        have hx := h.exact
        have hz' : u.lb.m_dwTotalQuotas.toNat = 0 := congrArg UInt32.toNat hz
        omega
      · cases hfail : u.failed e.1 with
        | false => rfl
        | true => exact absurd (h.dead e he hfail) hr
    · exact h.selected s hs

theorem inv_add (h : Inv u) (hf : u.lb.m_stServicesMap.find addr = none) {q : UInt32}
    (hq : u.lb.maxSum + q.toNat < 2 ^ 31) (hn : u.lb.m_stServicesMap.entries.length + 1 < 2 ^ 31) :
    Inv (u.add addr q) := by
  have hmem {a : SockAddr × ServicePoint} (ha : a ∈ (u.add addr q).lb.m_stServicesMap.entries) :
      (a ∈ u.lb.m_stServicesMap.entries ∧ a.1 ≠ addr) ∨ a = (addr,
        { stAddress := addr, dwMaxQuotas := q, dwCurrentQuotas := q, dwRealQuotas := q }) := by
    rcases OrdMap.mem_insert ha with rfl | ha
    · exact .inr rfl
    · exact .inl ⟨ha, not_mem_of_find hf ha⟩
  refine ⟨(balanced_add_iff h.balanced addr q).mpr (.inl hf), ?_, ?_, ?_, ?_, ?_, ?_, h.selected⟩
  · intro a ha
    rcases hmem ha with ⟨ha, -⟩ | rfl
    · exact h.capped a ha
    · exact ⟨Nat.le_succ _, Nat.le_succ _⟩
  · have hsum : (u.add addr q).lb.maxSum = u.lb.maxSum + q.toNat := OrdMap.sum_insert hf _ _
    rw [hsum]
    exact hq
  · exact (OrdMap.length_insert hf _).trans_lt hn
  · intro a ha
    rcases hmem ha with ⟨ha, hne⟩ | rfl
    · show _ + Function.update u.picked addr 0 a.1 ≤ Function.update u.budget addr q.toNat a.1
      rw [Function.update_of_ne hne, Function.update_of_ne hne]
      exact h.left a ha
    · show q.toNat + Function.update u.picked addr 0 addr ≤ Function.update u.budget addr q.toNat addr
      rw [Function.update_self, Function.update_self]
      exact Nat.le_refl _
  · intro a ha hfail
    rcases hmem ha with ⟨ha, hne⟩ | rfl
    · have hfail : Function.update u.failed addr false a.1 = true := hfail
      rw [Function.update_of_ne hne] at hfail
      exact h.dead a ha hfail
    · have hfail : Function.update u.failed addr false addr = true := hfail
      rw [Function.update_self] at hfail
      cases hfail
  · intro a
    show Function.update u.picked addr 0 a ≤ Function.update u.budget addr q.toNat a
    by_cases hne : a = addr
    · rw [hne, Function.update_self]
      exact Nat.zero_le _
    · rw [Function.update_of_ne hne, Function.update_of_ne hne]
      exact h.spent a

theorem inv_erase (h : Inv u) (addr : SockAddr) : Inv (u.erase addr) := by
  have hb : Balanced (u.erase addr).lb := balanced_erase h.balanced addr
  have hmap : (u.erase addr).lb.m_stServicesMap = u.lb.m_stServicesMap ∨
      (u.erase addr).lb.m_stServicesMap = u.lb.m_stServicesMap.erase addr := by
    unfold Run.erase EraseServicePoint
    cases u.lb.m_stServicesMap.find addr with
    | none => exact .inl rfl
    | some point => exact .inr rfl
  have hsub : ∀ e ∈ (u.erase addr).lb.m_stServicesMap.entries, e ∈ u.lb.m_stServicesMap.entries := by
    intro e he
    rcases hmap with hmap | hmap
    · rwa [hmap] at he
    · rw [hmap] at he
      exact (OrdMap.mem_erase he).1
  refine ⟨hb, fun e he => h.capped e (hsub e he), ?_, ?_, fun e he => h.left e (hsub e he),
    fun e he => h.dead e (hsub e he), h.spent, h.selected⟩
  · have hr := h.room
    rw [maxSum] at hr ⊢
    rcases hmap with hmap | hmap
    · rwa [hmap]
    · rw [hmap]
      exact Nat.lt_of_le_of_lt (OrdMap.sum_erase_le _ _ _) hr
  · rcases hmap with hmap | hmap
    · rw [hmap]
      exact h.few
    · rw [hmap]
      exact Nat.lt_of_le_of_lt (OrdMap.length_erase_le _ _) h.few

theorem inv_failure (h : Inv u) (addr : SockAddr) : Inv (u.failure addr) := by
  have hmap : (u.failure addr).lb.m_stServicesMap = u.lb.m_stServicesMap.modify addr fun point =>
      { point with dwRealQuotas := 0, dwCurrentQuotas := 1 } := by
    unfold Run.failure Failure
    cases hf : u.lb.m_stServicesMap.find addr with
    | none => exact (OrdMap.modify_of_find hf _).symm
    | some point => rfl
  apply h.modified (balanced_failure h.balanced addr) hmap
  · exact fun _ => rfl
  · rfl
  · exact fun _ _ => rfl
  · exact fun a hne => Function.update_of_ne hne _ _
  · intro w hw
    refine ⟨⟨Nat.zero_le _, Nat.succ_le_succ (Nat.zero_le _)⟩, ?_, fun _ => rfl⟩
    exact (Nat.zero_add _).trans_le (h.spent addr)
  · exact h.spent addr
  · exact h.selected

theorem inv_success (h : Inv u) (addr : SockAddr) : Inv (u.success addr) := by
  have hmap : (u.success addr).lb.m_stServicesMap = u.lb.m_stServicesMap.modify addr fun point =>
      { point with dwRecvCount := point.dwRecvCount + 1 } := rfl
  apply h.modified (balanced_success h.balanced addr) hmap
  · exact fun _ => rfl
  · rfl
  · exact fun _ _ => rfl
  · exact fun _ _ => rfl
  · intro w hw
    exact ⟨h.capped _ hw, h.left _ hw, h.dead _ hw⟩
  · exact h.spent addr
  · exact h.selected

/-! ## Runs -/

theorem seed_eq_zero (u : Run) {rand : Nat} (hr : rand ≤ RAND_MAX) :
    u.lb.exactSeed rand = 0 ↔ (u.lb.m_dwTotalQuotas + 1).toNat * rand < RAND_MAX := by
  have hlt := (u.lb.m_dwTotalQuotas + 1).toNat_lt
  have hle : (u.lb.m_dwTotalQuotas + 1).toNat * rand / RAND_MAX ≤ (u.lb.m_dwTotalQuotas + 1).toNat :=
    Nat.div_le_of_le_mul (by rw [Nat.mul_comm RAND_MAX]; exact Nat.mul_le_mul_left _ hr)
  rw [exactSeed, ← UInt32.toNat_inj, UInt32.toNat_ofNat', UInt32.toNat_zero, Nat.mod_eq_of_lt (by omega),
    Nat.div_eq_zero_iff]
  simp [RAND_MAX]

/-- `Route` overdraws exactly when its seed is 0 and the first point has nothing left. -/
theorem inv_route (h : Inv u) {now : Int} {rand : Nat} (hr : rand ≤ RAND_MAX) (hf : Fair u (.route now rand)) :
    Inv (u.route now rand) := by
  have hv := inv_refresh h now
  unfold Run.route
  cases hp : pick ((u.refresh now).lb.exactSeed rand) (u.refresh now).lb.m_stServicesMap.entries with
  | none => exact hv
  | some e =>
    apply inv_take hv (pick_mem hp)
    rcases pick_cases hp with hne | ⟨hz, hhead⟩
    · exact hne
    · rw [seed_eq_zero _ hr] at hz
      rw [Run.refresh_lb] at hz hhead
      exact (hf e hhead).resolve_right (Nat.not_le_of_lt hz)

/-- Otherwise a point without quota is selected. -/
theorem not_kept_route (h : Inv u) {now : Int} {rand : Nat} (hr : rand ≤ RAND_MAX)
    (hf : ¬Fair u (.route now rand)) : ¬Kept (u.route now rand) := by
  have hv := inv_refresh h now
  simp only [Fair, not_forall, not_or, Decidable.not_not, Nat.not_le] at hf
  obtain ⟨e, hhead, hz, hlt⟩ := hf
  rw [← Run.refresh_lb] at hhead hlt
  have hp : pick ((u.refresh now).lb.exactSeed rand) (u.refresh now).lb.m_stServicesMap.entries = some e := by
    rw [(seed_eq_zero _ hr).mpr hlt]
    cases hl : (u.refresh now).lb.m_stServicesMap.entries with
    | nil => rw [hl] at hhead; cases hhead
    | cons a l =>
      rw [hl] at hhead
      cases hhead
      exact if_pos UInt32.zero_le
  intro hk
  rw [Run.route, hp] at hk
  exact (hk.selected _ List.mem_cons_self).1 hz

theorem inv_init (t : Int) : Inv ⟨new t, fun _ => 0, fun _ => 0, fun _ => false, []⟩ where
  balanced := rfl
  capped := nofun
  room := Nat.two_pow_pos 31
  few := Nat.two_pow_pos 31
  left := nofun
  dead := nofun
  spent := fun _ => Nat.le_refl _
  selected := nofun

theorem inv_inductive : (routing.guard Fair).Inductive Inv where
  init := by
    rintro u ⟨t, rfl⟩
    exact inv_init t
  step := by
    rintro u c u' h ⟨hf, hs⟩
    cases c with
    | add addr q =>
      obtain ⟨hnone, hq, rfl⟩ := hs
      exact inv_add h hnone hq hf
    | route now rand =>
      obtain ⟨hr, rfl⟩ := hs
      exact inv_route h hr hf
    | erase addr => exact hs ▸ inv_erase h addr
    | failure addr => exact hs ▸ inv_failure h addr
    | success addr => exact hs ▸ inv_success h addr

/-- A run that never meets the seed 0 with an empty first point does not overdraw; and a `Route`
that meets them does. -/
theorem quota_run {u : Run} (hr : (routing.guard Fair).Reachable u) :
    Kept u ∧ ∀ now rand u', routing.step u (.route now rand) u' → (Kept u' ↔ Fair u (.route now rand)) := by
  have h := inv_inductive.reachable u hr
  refine ⟨h.kept, fun now rand u' hs => ⟨fun hk => ?_, fun hf => ?_⟩⟩
  · obtain ⟨hle, rfl⟩ := hs
    by_contra hf
    exact not_kept_route h hle hf hk
  · obtain ⟨hle, rfl⟩ := hs
    exact (inv_route h hle hf).kept

/-- Nothing added and nothing counted yet. -/
def start : Run := ⟨new 0, fun _ => 0, fun _ => 0, fun _ => false, []⟩

theorem start_add : routing.step start (.add (httpAt 1) 5) (start.add (httpAt 1) 5) :=
  ⟨rfl, by decide, rfl⟩

/-- One point, one request. -/
theorem quota_run_one : Kept ((start.add (httpAt 1) 5).route 0 1000000000) := by
  have h0 : (routing.guard Fair).Reachable start := .init ⟨0, rfl⟩
  have h1 := h0.allowed start_add (show _ + 1 < 2 ^ 31 by decide)
  have hroute : routing.step (start.add (httpAt 1) 5) (.route 0 1000000000)
      ((start.add (httpAt 1) 5).route 0 1000000000) := ⟨by decide, rfl⟩
  refine (quota_run (h1.allowed hroute ?_)).1
  intro e he
  cases he
  exact .inl (by decide)

/-- The first of two points is marked by `Failure`; `rand()` is 0. Then it is selected, and its
quota becomes 2^32 - 1. -/
theorem dead_selected : ∃ u, routing.Reachable u ∧ ¬Kept u := by
  have h0 : routing.Reachable start := .init ⟨0, rfl⟩
  have h1 := h0.step start_add
  have hadd : routing.step (start.add (httpAt 1) 5) (.add (httpAt 2) 7)
      ((start.add (httpAt 1) 5).add (httpAt 2) 7) := ⟨by decide, by decide, rfl⟩
  have h2 := h1.step hadd
  have hfail : routing.step _ (.failure (httpAt 2)) (((start.add (httpAt 1) 5).add (httpAt 2) 7).failure (httpAt 2)) :=
    rfl
  have h3 := h2.step hfail
  have hroute : routing.step _ (.route 0 0)
      ((((start.add (httpAt 1) 5).add (httpAt 2) 7).failure (httpAt 2)).route 0 0) := ⟨by decide, rfl⟩
  refine ⟨_, h3.step hroute, fun h => ?_⟩
  have hlog : ((((start.add (httpAt 1) 5).add (httpAt 2) 7).failure (httpAt 2)).route 0 0).log.map
      (fun s => s.point.dwRealQuotas) = [0] := by decide
  obtain ⟨s, hs, hz⟩ := List.mem_map.mp (hlog ▸ List.mem_singleton_self (0 : UInt32))
  exact (h.selected s hs).1 hz

end SimpleSvr.L4.LoadBalance
