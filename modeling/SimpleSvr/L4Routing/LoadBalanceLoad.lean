import SimpleSvr.Core.Text
import SimpleSvr.L4Routing.LoadBalanceQuota

/-!
# Loading routes

`LoadConfigure` clears the map before it reads the first line and looks at the
total of the quotas when it is done: where the lines of the file sum to 0 it
returns false, and the routes are gone. It also takes what `read` left behind in
the buffer for the end of the file.

* `parseLine_iff`: the line parser accepts the well-formed lines.
* `loaded_holds`: the map after a load.
* `decisions_clock`: two load balancers whose periods did not start together
  route differently later.
* `allOrNothing_iff`: which loads are all or nothing.
-/
namespace SimpleSvr.L4.LoadBalance

/-! ## Lines -/

/-- One or more characters of a class. -/
def Some1 (p : UInt8 → Bool) (s : Bytes) : Prop := s ≠ [] ∧ ∀ c ∈ s, p c = true

def isAddress (c : UInt8) : Bool := isDigit c || c == 46

/-- An address, a port and a quota with blanks between them. -/
structure Fields (s ip port quotas : Bytes) : Prop where
  address : Some1 isAddress ip
  number : Some1 isDigit port
  quota : Some1 isDigit quotas
  layout : ∃ sep₁ sep₂, s = ip ++ (sep₁ ++ (port ++ (sep₂ ++ quotas))) ∧ Some1 isBlank sep₁ ∧ Some1 isBlank sep₂

/-- Blanks around them; and then nothing or a comment. -/
def WellFormed (line ip port quotas : Bytes) : Prop :=
  ∃ lead s trail comment, line = lead ++ (s ++ trail) ++ comment ∧ (∀ c ∈ lead, isSpace c = true) ∧
    Fields s ip port quotas ∧ (∀ c ∈ trail, isSpace c = true) ∧ (comment = [] ∨ ∃ text, comment = 35 :: text)

/-- The line configures a point. -/
def Configures (inet_addr : Bytes → UInt32) (line : Bytes) (addr : SockAddr) (dwQuotas : UInt32) : Prop :=
  ∃ ip port quotas, WellFormed line ip port quotas ∧ addr = sockAddr (inet_addr ip) (strtoul port) ∧
    dwQuotas = UInt32.ofNat (strtoul quotas)

theorem isBlank_cases {c : UInt8} (h : isBlank c = true) : c = 32 ∨ c = 9 := by
  simpa [isBlank] using h

theorem isSpace_of_isBlank {c : UInt8} (h : isBlank c = true) : isSpace c = true := by
  rcases isBlank_cases h with rfl | rfl <;> rfl

theorem isAddress_of_isDigit {c : UInt8} (h : isDigit c = true) : isAddress c = true := by
  rw [isAddress, h]
  rfl

theorem not_isSpace_of_isAddress {c : UInt8} (h : isAddress c = true) : isSpace c = false := by
  have hc : 46 ≤ c.toNat := by
    rw [isAddress, Bool.or_eq_true, isDigit, Bool.and_eq_true, decide_eq_true_eq, beq_iff_eq] at h
    rcases h with ⟨h, -⟩ | rfl
    · have hle := UInt8.le_iff_toNat_le.mp h
      exact Nat.le_trans (by decide) hle
    · exact Nat.le_refl _
  have h32 : c ≠ 32 := by
    rintro rfl
    exact absurd hc (by decide)
  have h13 : ¬c ≤ 13 := by
    intro hle
    have := UInt8.le_iff_toNat_le.mp hle
    have h0 : (13 : UInt8).toNat = 13 := rfl
    omega
  rw [isSpace, beq_eq_false_iff_ne.mpr h32, decide_eq_false h13, Bool.and_false]
  rfl

theorem not_isBlank_of_isAddress {c : UInt8} (h : isAddress c = true) : isBlank c = false := by
  cases hb : isBlank c with
  | false => rfl
  | true => exact absurd (isSpace_of_isBlank hb) (by rw [not_isSpace_of_isAddress h]; decide)

theorem not_isAddress_of_isBlank {c : UInt8} (h : isBlank c = true) : isAddress c = false := by
  rcases isBlank_cases h with rfl | rfl <;> rfl

theorem not_isDigit_of_isBlank {c : UInt8} (h : isBlank c = true) : isDigit c = false := by
  rcases isBlank_cases h with rfl | rfl <;> rfl

/-- A class that does not hold where the text goes on stops there. -/
theorem Some1.stops {p q : UInt8 → Bool} {s : Bytes} (h : Some1 q s) (hpq : ∀ c, q c = true → p c = false)
    (t : Bytes) : Stops p (s ++ t) :=
  (stops_of_all h.2 hpq).append h.1 t

theorem matchLine_iff {s ip port quotas : Bytes} :
    matchLine s = some (ip, port, quotas) ↔ Fields s ip port quotas := by
  constructor
  · intro h
    unfold matchLine at h
    cases e1 : s.span isAddress with | mk ip' s1 =>
    cases e2 : s1.span isBlank with | mk sep₁ s2 =>
    cases e3 : s2.span isDigit with | mk port' s3 =>
    cases e4 : s3.span isBlank with | mk sep₂ s4 =>
    cases e5 : s4.span isDigit with | mk quotas' s5 =>
    have e1' : (s.span fun c => isDigit c || c == 46) = (ip', s1) := e1
    simp only [e1', e2, e3, e4, e5, Option.ite_none_right_eq_some, Option.some.injEq, Prod.mk.injEq] at h
    obtain ⟨⟨n1, n2, n3, n4, n5, rfl⟩, rfl, rfl, rfl⟩ := h
    obtain ⟨rfl, h1, -⟩ := span_eq e1
    obtain ⟨rfl, h2, -⟩ := span_eq e2
    obtain ⟨rfl, h3, -⟩ := span_eq e3
    obtain ⟨rfl, h4, -⟩ := span_eq e4
    obtain ⟨rfl, h5, -⟩ := span_eq e5
    exact ⟨⟨n1, h1⟩, ⟨n3, h3⟩, ⟨n5, h5⟩, sep₁, sep₂, by rw [List.append_nil], ⟨n2, h2⟩, ⟨n4, h4⟩⟩
  · rintro ⟨hip, hport, hquotas, ⟨sep₁, sep₂, rfl, h1, h2⟩⟩
    have e1 : ((ip ++ (sep₁ ++ (port ++ (sep₂ ++ quotas)))).span fun c => isDigit c || c == 46) =
        (ip, sep₁ ++ (port ++ (sep₂ ++ quotas))) :=
      span_append hip.2 (h1.stops (fun _ => not_isAddress_of_isBlank) _)
    have e2 : (sep₁ ++ (port ++ (sep₂ ++ quotas))).span isBlank = (sep₁, port ++ (sep₂ ++ quotas)) :=
      span_append h1.2 (hport.stops (fun _ hc => not_isBlank_of_isAddress (isAddress_of_isDigit hc)) _)
    have e3 : (port ++ (sep₂ ++ quotas)).span isDigit = (port, sep₂ ++ quotas) :=
      span_append hport.2 (h2.stops (fun _ => not_isDigit_of_isBlank) _)
    have e4 : (sep₂ ++ quotas).span isBlank = (sep₂, quotas) := by
      have hstop := hquotas.stops (fun _ hc => not_isBlank_of_isAddress (isAddress_of_isDigit hc)) []
      rw [List.append_nil] at hstop
      exact span_append h2.2 hstop
    have e5 : quotas.span isDigit = (quotas, []) := by
      have hspan := span_append hquotas.2 stops_nil
      rwa [List.append_nil] at hspan
    unfold matchLine
    simp only [e1, e2, e3, e4, e5]
    exact if_pos ⟨hip.1, h1.1, hport.1, h2.1, hquotas.1, trivial⟩

theorem Fields.ne_hash {s ip port quotas : Bytes} (h : Fields s ip port quotas) : ∀ c ∈ s, (c != 35) = true := by
  have haddr {c : UInt8} (hc : isAddress c = true) : (c != 35) = true :=
    bne_iff_ne.mpr fun he => absurd hc (by rw [he]; decide)
  have hblank {c : UInt8} (hc : isBlank c = true) : (c != 35) = true :=
    bne_iff_ne.mpr fun he => absurd hc (by rw [he]; decide)
  obtain ⟨sep₁, sep₂, rfl, h1, h2⟩ := h.layout
  intro c hc
  simp only [List.mem_append] at hc
  rcases hc with hc | hc | hc | hc | hc
  · exact haddr (h.address.2 c hc)
  · exact hblank (h1.2 c hc)
  · exact haddr (isAddress_of_isDigit (h.number.2 c hc))
  · exact hblank (h2.2 c hc)
  · exact haddr (isAddress_of_isDigit (h.quota.2 c hc))

theorem Fields.trimmed {s ip port quotas : Bytes} (h : Fields s ip port quotas) : Trimmed isSpace s := by
  obtain ⟨sep₁, sep₂, rfl, h1, h2⟩ := h.layout
  constructor
  · exact h.address.stops (fun _ => not_isSpace_of_isAddress) _
  · -- the last character is one of the quota
    have hlast : Some1 isDigit quotas.reverse :=
      ⟨fun hn => h.quota.1 (List.reverse_eq_nil_iff.mp hn), fun c hc => h.quota.2 c (List.mem_reverse.mp hc)⟩
    simp only [List.reverse_append, List.append_assoc]
    exact hlast.stops (fun _ hc => not_isSpace_of_isAddress (isAddress_of_isDigit hc)) _

theorem Fields.ne_nil {s ip port quotas : Bytes} (h : Fields s ip port quotas) : s ≠ [] := by
  obtain ⟨sep₁, sep₂, rfl, -, -⟩ := h.layout
  exact fun hn => h.address.1 (List.append_eq_nil_iff.mp hn).1

theorem ne_hash_of_isSpace {c : UInt8} (h : isSpace c = true) : (c != 35) = true :=
  bne_iff_ne.mpr fun he => absurd h (by rw [he]; decide)

/-- The parser accepts the well-formed lines. -/
theorem parseLine_iff {inet_addr : Bytes → UInt32} {line : Bytes} {addr : SockAddr} {dwQuotas : UInt32} :
    parseLine inet_addr line = some (addr, dwQuotas) ↔ Configures inet_addr line addr dwQuotas := by
  constructor
  · intro h
    simp only [parseLine, Option.ite_none_left_eq_some, Option.map_eq_some_iff, Prod.mk.injEq] at h
    obtain ⟨-, ⟨ip, port, quotas⟩, hm, rfl, rfl⟩ := h
    obtain ⟨lead, trail, hlead, htrail, hbody⟩ := exists_ends isSpace (line.takeWhile (· != 35))
    refine ⟨ip, port, quotas, ⟨lead, _, trail, line.dropWhile (· != 35), ?_, hlead, matchLine_iff.mp hm, htrail,
      stops_bne_iff.mp (stops_dropWhile _ _)⟩, rfl, rfl⟩
    rw [trim, ← trimBy, ← hbody, List.takeWhile_append_dropWhile]
  · rintro ⟨ip, port, quotas, ⟨lead, s, trail, comment, rfl, hlead, hs, htrail, hcomment⟩, rfl, rfl⟩
    have htrim : trim ((lead ++ (s ++ trail) ++ comment).takeWhile (· != 35)) = s :=
      trimBy_takeWhile (fun _ => ne_hash_of_isSpace) hlead hs.trimmed hs.ne_hash htrail (stops_bne_iff.mpr hcomment)
    simp only [parseLine, htrim]
    rw [if_neg hs.ne_nil, matchLine_iff.mpr hs]
    rfl

/-! ## What a file configures -/

/-- The first of the lines that configures `addr` gives it the quota. -/
def First (inet_addr : Bytes → UInt32) (lines : List Bytes) (addr : SockAddr) (dwQuotas : UInt32) : Prop :=
  ∃ before line after, lines = before ++ line :: after ∧ Configures inet_addr line addr dwQuotas ∧
    ∀ l ∈ before, ∀ q, ¬Configures inet_addr l addr q

/-- A point as a line adds it. -/
def fresh (addr : SockAddr) (dwQuotas : UInt32) : ServicePoint :=
  { stAddress := addr, dwMaxQuotas := dwQuotas, dwCurrentQuotas := dwQuotas, dwRealQuotas := dwQuotas }

/-- The map holds exactly one point for each address that the text configures, with its quota. -/
def Holds (inet_addr : Bytes → UInt32) (text : Bytes) (lb : LoadBalance) : Prop :=
  ∀ addr point, lb.m_stServicesMap.find addr = some point ↔
    ∃ q, First inet_addr (text.splitOn 10) addr q ∧ point = fresh addr q

/-- The quotas of the lines, in `uint32_t`. -/
def lineTotal (inet_addr : Bytes → UInt32) (text : Bytes) : UInt32 :=
  (parse inet_addr text).foldl (fun total l => total + l.2) 0

section First

variable {inet_addr : Bytes → UInt32} {lines : List Bytes} {l text : Bytes} {addr : SockAddr} {q : UInt32}

theorem first_cons : First inet_addr (l :: lines) addr q ↔
    Configures inet_addr l addr q ∨ (∀ q, ¬Configures inet_addr l addr q) ∧ First inet_addr lines addr q := by
  constructor
  · rintro ⟨before, line, after, h, hc, hb⟩
    cases before with
    | nil =>
      obtain ⟨rfl, -⟩ := List.cons.inj h
      exact .inl hc
    | cons l' before =>
      obtain ⟨rfl, hl⟩ := List.cons.inj h
      exact .inr ⟨hb l List.mem_cons_self, before, line, after, hl, hc,
        fun l hl => hb l (List.mem_cons_of_mem _ hl)⟩
  · rintro (hc | ⟨hn, before, line, after, rfl, hc, hb⟩)
    · exact ⟨[], l, lines, rfl, hc, nofun⟩
    · exact ⟨l :: before, line, after, rfl, hc, List.forall_mem_cons.mpr ⟨hn, hb⟩⟩

/-- `parse` finds it first, too. -/
theorem first_iff : First inet_addr (text.splitOn 10) addr q ↔ (parse inet_addr text).lookup addr = some q := by
  unfold parse
  induction text.splitOn 10 with
  | nil =>
    refine iff_of_false ?_ (Option.some_ne_none q).symm
    rintro ⟨before, line, after, h, -⟩
    exact absurd h.symm (List.append_ne_nil_of_right_ne_nil _ (List.cons_ne_nil _ _))
  | cons l lines ih =>
    rw [first_cons, ih]
    simp only [← parseLine_iff]
    cases hp : parseLine inet_addr l with
    | none =>
      rw [List.filterMap_cons_none hp]
      simp
    | some e =>
      rw [List.filterMap_cons_some hp, List.lookup_cons]
      by_cases hae : addr = e.1
      · rw [hae, beq_self_eq_true]
        simp [Prod.ext_iff]
      · rw [beq_false_of_ne hae]
        simp [Prod.ext_iff, Ne.symm hae]

end First

theorem find_addAll (ls : List (SockAddr × UInt32)) (lb : LoadBalance) (addr : SockAddr) :
    (ls.foldl (fun lb l => lb.AddServicePoint l.1 l.2) lb).m_stServicesMap.find addr =
      (lb.m_stServicesMap.find addr).or ((ls.lookup addr).map (fresh addr)) := by
  induction ls generalizing lb with
  | nil => exact (Option.or_none).symm
  | cons l ls ih =>
    rw [List.foldl_cons, ih, List.lookup_cons]
    have hmap : (lb.AddServicePoint l.1 l.2).m_stServicesMap = lb.m_stServicesMap.insert l.1 (fresh l.1 l.2) := rfl
    rw [hmap]
    by_cases h : addr = l.1
    · rw [h, OrdMap.find_insert, beq_self_eq_true]
      cases lb.m_stServicesMap.find l.1 <;> rfl
    · rw [OrdMap.find_insert_ne h, beq_false_of_ne h]

theorem total_addAll (ls : List (SockAddr × UInt32)) (lb : LoadBalance) :
    (ls.foldl (fun lb l => lb.AddServicePoint l.1 l.2) lb).m_dwTotalQuotas =
      ls.foldl (fun total l => total + l.2) lb.m_dwTotalQuotas := by
  induction ls generalizing lb with
  | nil => rfl
  | cons l ls ih => exact ih (lb.AddServicePoint l.1 l.2)

section Load

variable (inet_addr : Bytes → UInt32) (lb : LoadBalance) (text : Bytes) (now : Int)

theorem load_total : (LoadConfigure inet_addr lb (some text) now).1.m_dwTotalQuotas = lineTotal inet_addr text :=
  total_addAll _ _

theorem load_returns : (LoadConfigure inet_addr lb (some text) now).2 = (lineTotal inet_addr text != 0) := by
  rw [← load_total inet_addr lb text now]
  rfl

theorem load_find (addr : SockAddr) :
    (LoadConfigure inet_addr lb (some text) now).1.m_stServicesMap.find addr =
      ((parse inet_addr text).lookup addr).map (fresh addr) :=
  find_addAll _ _ _

end Load

theorem holds_iff {inet_addr : Bytes → UInt32} {text : Bytes} {lb : LoadBalance} :
    Holds inet_addr text lb ↔
      ∀ addr, lb.m_stServicesMap.find addr = ((parse inet_addr text).lookup addr).map (fresh addr) := by
  unfold Holds
  simp only [first_iff]
  constructor
  · intro h addr
    apply Option.ext
    intro point
    rw [h addr point, Option.map_eq_some_iff]
    exact exists_congr fun q => and_congr_right fun _ => eq_comm
  · intro h addr point
    rw [h addr, Option.map_eq_some_iff]
    exact exists_congr fun q => and_congr_right fun _ => eq_comm

/-- A load leaves what the text that it read configures. -/
theorem loaded_holds (inet_addr : Bytes → UInt32) (lb : LoadBalance) (text : Bytes) (now : Int) :
    Holds inet_addr text (LoadConfigure inet_addr lb (some text) now).1 :=
  holds_iff.mpr (load_find inet_addr lb text now)

/-! ## Later decisions -/

/-- The addresses that the `Route`s among later operations return. -/
def decisions (inet_addr : Bytes → UInt32) (lb : LoadBalance) : List Op → List (Option SockAddr)
  | [] => []
  | .route now rand :: ops =>
    (lb.Route RoutePolicy now rand).2 :: decisions inet_addr (lb.Route RoutePolicy now rand).1 ops
  | op :: ops => decisions inet_addr (lb.apply RoutePolicy inet_addr op) ops

deriving instance DecidableEq for ServicePoint

/-- The second half of `Route`.
mirrors include/LoadBalance.hpp:222-243 -/
def serve (lb : LoadBalance) (rand : Nat) : LoadBalance × Option SockAddr :=
  match pick (lb.seed rand) lb.m_stServicesMap.entries with
  | none => (lb, none)
  | some e => (lb.take e, some e.2.stAddress)

theorem route_of_not_due {lb : LoadBalance} {now : Int} (h : ¬due RoutePolicy lb now) (rand : Nat) :
    lb.Route RoutePolicy now rand = lb.serve rand := by
  have hserve : lb.Route RoutePolicy now rand = (lb.refresh RoutePolicy now).serve rand := rfl
  rw [hserve, refresh_of_not_due h]

theorem route_of_late {lb : LoadBalance} {now : Int} (h : now - lb.m_LastTimestamp > 10) (rand : Nat) :
    lb.Route RoutePolicy now rand = (lb.refill RoutePolicy true now).serve rand := by
  have hserve : lb.Route RoutePolicy now rand = (lb.refresh RoutePolicy now).serve rand := rfl
  rw [hserve, refresh_of_late h]

theorem serve_of_pick {lb : LoadBalance} {rand : Nat} {e : SockAddr × ServicePoint}
    (h : pick (lb.seed rand) lb.m_stServicesMap.entries = some e) :
    lb.serve rand = (lb.take e, some e.2.stAddress) := by
  rw [serve, h]

/-- Two points of quota 10, the period started at `t`. -/
def pair (t : Int) : LoadBalance :=
  ((new t).AddServicePoint (httpAt 1) 10).AddServicePoint (httpAt 2) 10

/-- The pair after one request to its first point. -/
def pairServed (t : Int) : LoadBalance := (pair t).take (httpAt 2, fresh (httpAt 2) 10)

theorem pair_serve (t : Int) : (pair t).serve 0 = (pairServed t, some (httpAt 2)) := by
  have hpick : pick ((pair 0).seed 0) (pair 0).m_stServicesMap.entries =
      some (httpAt 2, fresh (httpAt 2) 10) := by decide
  exact serve_of_pick hpick

theorem pair_route {t now : Int} (h : now - t ≤ 10) :
    (pair t).Route RoutePolicy now 0 = (pairServed t, some (httpAt 2)) := by
  have hd : ¬due RoutePolicy (pair t) now := by
    rintro (hz | hlate)
    · have hz : (pair 0).m_dwTotalQuotas = 0 := hz
      exact absurd hz (by decide)
    · have hlate : now - t > 10 := hlate
      omega
  rw [route_of_not_due hd, pair_serve]

/-- In the same period the first point has 9 of 19 requests left. -/
theorem pairServed_early {t now : Int} (h : now - t ≤ 10) :
    ((pairServed t).Route RoutePolicy now 644245094).2 = some (httpAt 2) := by
  have hd : ¬due RoutePolicy (pairServed t) now := by
    rintro (hz | hlate)
    · have hz : (pairServed 0).m_dwTotalQuotas = 0 := hz
      exact absurd hz (by decide)
    · have hlate : now - t > 10 := hlate
      omega
  have hpick : pick ((pairServed 0).seed 644245094) (pairServed 0).m_stServicesMap.entries =
      some (httpAt 2, { fresh (httpAt 2) 10 with dwSendCount := 1, dwRealQuotas := 9 }) := by decide
  rw [route_of_not_due hd]
  exact congrArg Prod.snd (@serve_of_pick (pairServed t) _ _ hpick)

/-- After a reset, which finds its request unanswered, it has 1 of 11. -/
theorem pairServed_late {t now : Int} (h : now - t > 10) :
    ((pairServed t).Route RoutePolicy now 644245094).2 = some (httpAt 1) := by
  have hlate : now - (pairServed t).m_LastTimestamp > 10 := h
  have hroute : (pairServed t).Route RoutePolicy now 644245094 =
      ((pairServed t).refill RoutePolicy true now).serve 644245094 := route_of_late hlate 644245094
  have hpick : pick (((pairServed 0).refill RoutePolicy true 0).seed 644245094)
      ((pairServed 0).refill RoutePolicy true 0).m_stServicesMap.entries =
      some (httpAt 1, fresh (httpAt 1) 10) := by decide
  rw [hroute]
  exact congrArg Prod.snd (@serve_of_pick ((pairServed t).refill RoutePolicy true now) _ _ hpick)

/-- Operations that tell whether the period started at `t` or later. -/
def telling (t : Int) : List Op :=
  [.clear, .add (httpAt 1) 10, .add (httpAt 2) 10, .route t 0, .route (t + 11) 644245094]

theorem decisions_telling (inet_addr : Bytes → UInt32) {lb : LoadBalance} {t : Int} (h : t ≤ lb.m_LastTimestamp) :
    decisions inet_addr lb (telling t) =
      [some (httpAt 2), some (if lb.m_LastTimestamp = t then httpAt 1 else httpAt 2)] := by
  have hpair : (lb.Clear.AddServicePoint (httpAt 1) 10).AddServicePoint (httpAt 2) 10 =
      pair lb.m_LastTimestamp := rfl
  have hsecond : ((pairServed lb.m_LastTimestamp).Route RoutePolicy (t + 11) 644245094).2 =
      some (if lb.m_LastTimestamp = t then httpAt 1 else httpAt 2) := by
    by_cases heq : lb.m_LastTimestamp = t
    · rw [if_pos heq]
      exact pairServed_late (by omega)
    · rw [if_neg heq]
      exact pairServed_early (by omega)
  have hfirst := @pair_route lb.m_LastTimestamp t (by omega)
  simp only [telling, decisions, apply, hpair, hfirst, hsecond]

/-- Load balancers that go on to decide alike started their periods together. -/
theorem decisions_clock {inet_addr : Bytes → UInt32} {lb lb' : LoadBalance}
    (h : ∀ ops, decisions inet_addr lb ops = decisions inet_addr lb' ops) :
    lb.m_LastTimestamp = lb'.m_LastTimestamp := by
  have hle {a b : LoadBalance} (h : ∀ ops, decisions inet_addr a ops = decisions inet_addr b ops)
      (hab : a.m_LastTimestamp ≤ b.m_LastTimestamp) : b.m_LastTimestamp = a.m_LastTimestamp := by
    by_contra hne
    have htell := h (telling a.m_LastTimestamp)
    rw [decisions_telling inet_addr le_rfl, decisions_telling inet_addr hab, if_pos rfl, if_neg hne] at htell
    exact absurd htell (by decide)
  rcases le_total lb.m_LastTimestamp lb'.m_LastTimestamp with hc | hc
  · exact (hle h hc).symm
  · exact hle (fun ops => (h ops).symm) hc

/-! ## Loading -/

theorem eq_of_fields {lb lb' : LoadBalance} (htotal : lb.m_dwTotalQuotas = lb'.m_dwTotalQuotas)
    (hclock : lb.m_LastTimestamp = lb'.m_LastTimestamp) (hmap : lb.m_stServicesMap = lb'.m_stServicesMap) :
    lb = lb' := by
  cases lb
  cases lb'
  simp only at htotal hclock hmap
  rw [htotal, hclock, hmap]

/-- What `open`, `fstat` and `read` do. -/
inductive Io where
  | noOpen
  | noStat
  | noRead
  /-- `read` puts the first `n` bytes of the file over the `st_size` bytes that `malloc` gave -/
  | read (n : Nat) (buffer : Bytes)

/-- What `strContent` is made of: `read` is only compared with -1.
mirrors include/LoadBalance.hpp:114-137 -/
def Io.strContent (file : Bytes) : Io → Option Bytes
  | .read n buffer => some (file.take n ++ buffer.drop n)
  | _ => none

/-- False: nothing has changed, for the operations that follow neither. True: the points are those of
the file. -/
def AllOrNothing (inet_addr : Bytes → UInt32) (lb : LoadBalance) (file : Bytes) (io : Io) (now : Int) : Prop :=
  let (lb', loaded) := LoadConfigure inet_addr lb (io.strContent file) now
  if loaded then Holds inet_addr file lb'
  else lb'.m_stServicesMap = lb.m_stServicesMap ∧ lb'.m_dwTotalQuotas = lb.m_dwTotalQuotas ∧
    ∀ ops, decisions inet_addr lb' ops = decisions inet_addr lb ops

/-- Nothing was read. Or the quotas of what was read sum to 0 and the load balancer is what a load
would make it; or they do not, and what was read configures what the file does. -/
def Sound (inet_addr : Bytes → UInt32) (lb : LoadBalance) (file : Bytes) (io : Io) (now : Int) : Prop :=
  match io.strContent file with
  | none => True
  | some text =>
    if lineTotal inet_addr text = 0 then
      lb.m_dwTotalQuotas = 0 ∧ lb.m_LastTimestamp = now ∧ Holds inet_addr text lb
    else ∀ addr q, First inet_addr (text.splitOn 10) addr q ↔ First inet_addr (file.splitOn 10) addr q

theorem fresh_injective (addr : SockAddr) : Function.Injective (fresh addr) :=
  fun _ _ h => congrArg ServicePoint.dwMaxQuotas h

/-- The points of one text are those of another. -/
theorem holds_of_holds {inet_addr : Bytes → UInt32} {lb : LoadBalance} {text file : Bytes}
    (h : Holds inet_addr text lb) :
    Holds inet_addr file lb ↔
      ∀ addr q, First inet_addr (text.splitOn 10) addr q ↔ First inet_addr (file.splitOn 10) addr q := by
  rw [holds_iff] at h ⊢
  simp only [first_iff, h]
  constructor
  · intro hf addr q
    rw [Option.map_injective (fresh_injective addr) (hf addr)]
  · intro hf addr
    rw [Option.ext (hf addr)]

/-- Two load balancers that hold the points of one text have the same map. -/
theorem holds_unique {inet_addr : Bytes → UInt32} {lb lb' : LoadBalance} {text : Bytes}
    (h : Holds inet_addr text lb) (h' : Holds inet_addr text lb') : lb.m_stServicesMap = lb'.m_stServicesMap :=
  OrdMap.ext_find fun addr => (holds_iff.mp h addr).trans (holds_iff.mp h' addr).symm

/-- Which loads are all or nothing. -/
theorem allOrNothing_iff (inet_addr : Bytes → UInt32) (lb : LoadBalance) (file : Bytes) (io : Io) (now : Int) :
    AllOrNothing inet_addr lb file io now ↔ Sound inet_addr lb file io now := by
  unfold AllOrNothing Sound
  cases io.strContent file with
  | none => exact iff_of_true ⟨rfl, rfl, fun _ => rfl⟩ trivial
  | some text =>
    have hholds := loaded_holds inet_addr lb text now
    by_cases hz : lineTotal inet_addr text = 0
    · have hfalse : (LoadConfigure inet_addr lb (some text) now).2 = false := by
        rw [load_returns, hz]
        rfl
      simp only [hfalse, hz, if_true]
      rw [if_neg Bool.false_ne_true, load_total, hz]
      constructor
      · rintro ⟨hmap, htotal, hdec⟩
        refine ⟨htotal.symm, (decisions_clock hdec).symm, ?_⟩
        rw [Holds, hmap] at hholds
        exact hholds
      · rintro ⟨htotal, hclock, hlb⟩
        have hmap := holds_unique hholds hlb
        -- the load has changed nothing at all
        have hsame : (LoadConfigure inet_addr lb (some text) now).1 = lb := by
          have htotal' := (load_total inet_addr lb text now).trans (hz.trans htotal.symm)
          exact eq_of_fields htotal' hclock.symm hmap
        exact ⟨hmap, htotal.symm, fun ops => by rw [hsame]⟩
    · have htrue : (LoadConfigure inet_addr lb (some text) now).2 = true := by
        rw [load_returns]
        exact bne_iff_ne.mpr hz
      simp only [htrue, if_true]
      rw [if_neg hz]
      exact holds_of_holds hholds

/-- A file of one comment: the call fails and the routes are gone. -/
theorem load_loses_routes : ∃ lb file, ¬AllOrNothing (fun _ => 0) lb file (.read file.length file) 0 := by
  refine ⟨(new 0).AddServicePoint (httpAt 1) 5, [35], fun h => ?_⟩
  have hmap := h.1
  have hlen := congrArg (fun m : OrdMap SockAddr ServicePoint => m.entries.length) hmap
  exact absurd hlen (by decide)

end SimpleSvr.L4.LoadBalance
