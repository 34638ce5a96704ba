import SimpleSvr.L2Machine.TimerHeap

/-!
# What the timer operations do

One spec lemma for each of `SetTimeout`, `Update` and `Clear`, and from them
`applyOp_cases`: a call made while the list `rest` waits behind the item whose
callback is running (or with no list cut at all) succeeds and does one of four
things (`OpCase`): nothing, add a new item, move a reachable item to another
bucket, remove a reachable item. Later proofs split on these four cases and
never open the operations.
-/
namespace SimpleSvr.L2.Timer
open SimpleSvr.DList

variable {F D : Type} {s s' : TimerBase F D} {ch ch' : Chains} {det rest rest' : List Addr}
  {cur : Option Addr} {a : Addr}

/-- The items a call can reach: linked in a bucket, or waiting in `rest`. -/
def Known (ch : Chains) (rest : List Addr) (a : Addr) : Prop := (∃ b, a ∈ ch b) ∨ a ∈ rest

/-- Same base, id counter and allocation counter. -/
structure Still (s s' : TimerBase F D) : Prop where
  lastTimerId : s'.lastTimerId = s.lastTimerId
  lastTimeval : s'.lastTimeval = s.lastTimeval
  brk : s'.brk = s.brk

theorem Frame.still (h : Frame s s') : Still s s' := ⟨h.1, h.2, h.4⟩

inductive OpCase (s s' : TimerBase F D) (ch : Chains) (rest : List Addr) :
    Chains → List Addr → Prop
  | idle (h : s' = s) : OpCase s s' ch rest ch rest
  | add (t : UInt64) (id : UInt32) (hid : id = s.lastTimerId + 1)
      (hlog : s'.log = .linked s.brk t s.lastTimeval :: s.log)
      (hview : ∀ x, view s' x = if x = s.brk then some (id, t) else view s x)
      (hmap : ∀ i, s'.timerDataMap i =
        (s.timerDataMap i).or (if i = id then some s.brk else none))
      (hlast : s'.lastTimerId = id) (hbase : s'.lastTimeval = s.lastTimeval)
      (hbrk : s'.brk = s.brk + 1) :
      OpCase s s' ch rest (ch.push (bucketOf s.lastTimeval t) s.brk) rest
  | move (id : UInt32) (a : Addr) (t : UInt64) (hm : s.timerDataMap id = some a)
      (hlog : s'.log = .linked a t s.lastTimeval :: .updated a :: s.log)
      (hview : ∀ x, view s' x = if x = a then some (id, t) else view s x)
      (hmap : s'.timerDataMap = s.timerDataMap) (hstill : Still s s') :
      OpCase s s' ch rest ((ch.erase a).push (bucketOf s.lastTimeval t) a) (rest.erase a)
  | remove (id : UInt32) (a : Addr) (hm : s.timerDataMap id = some a)
      (hlog : s'.log = .freed a :: .cleared a :: s.log)
      (hview : ∀ x, view s' x = if x = a then none else view s x)
      (hmap : ∀ i, s'.timerDataMap i = if i = id then none else s.timerDataMap i)
      (hstill : Still s s') :
      OpCase s s' ch rest (ch.erase a) (rest.erase a)

/-! ## SetTimeout -/

/-- A fresh item, before it is linked. -/
theorem linked_new (h : Linked s ch det none) (it : TimerItem F D) (id : UInt32) :
    Linked ({ s with lastTimerId := id, brk := s.brk + 1 }.poke s.brk (some it)) ch det (some s.brk) := by
  have hn : s.mem s.brk = none := h.fresh _ (Nat.le_refl _)
  have hout : ∀ x, (s.mem x).isSome → x ≠ s.brk := fun x hx e => by rw [e, hn] at hx; cases hx
  have hch : ∀ b, ∀ x ∈ ch b, x ≠ s.brk := fun b x hx => hout x ((h.live x).mpr (.inl ⟨b, hx⟩))
  have hdet : ∀ x ∈ det, x ≠ s.brk := fun x hx => hout x ((h.live x).mpr (.inr (.inl hx)))
  have hl : ∀ y, y ≠ s.brk →
      links ({ s with lastTimerId := id, brk := s.brk + 1 }.poke s.brk (some it)) y = links s y :=
    fun y hy => by simp [links, TimerBase.poke, hy]
  refine ⟨h.heads, fun b => seg_congr (fun x hx => hl x (hch b x hx)) (h.seg b), h.nodup,
    fun b x hx => ?_, ?_, h.detNodup, h.disj, ?_, fun x => ?_, fun x hx => ?_⟩
  · simpa [bases, TimerBase.poke, hch b x hx] using h.base b x hx
  · obtain ⟨p, hp⟩ := h.detSeg
    exact ⟨p, seg_congr (fun x hx => hl x (hdet x hx)) hp⟩
  · rintro x e
    cases e
    exact ⟨fun b hb => hch b _ hb rfl, fun hd => hdet _ hd rfl⟩
  · by_cases hx : x = s.brk
    · subst hx; simp [TimerBase.poke]
    · have hx' : s.brk ≠ x := fun e => hx e.symm
      simpa [TimerBase.poke, hx, hx'] using h.live x
  · have hx' : x ≠ s.brk := Nat.ne_of_gt hx
    simpa [TimerBase.poke, hx'] using h.fresh x (Nat.le_of_lt hx)

theorem insertId_map (s : TimerBase F D) (id : UInt32) (a : Addr) (i : UInt32) :
    (insertId s id a).timerDataMap i =
      (s.timerDataMap i).or (if i = id then some a else none) := by
  unfold insertId
  cases h : s.timerDataMap id with
  | some y =>
    by_cases hi : i = id
    · subst hi; simp [h]
    · simp [hi]
  | none =>
    by_cases hi : i = id
    · subst hi; simp [h]
    · simp [hi]

theorem insertId_rest (s : TimerBase F D) (id : UInt32) (a : Addr) :
    insertId s id a = { s with timerDataMap := (insertId s id a).timerDataMap } := by
  unfold insertId; split <;> rfl

/-- `Linked` does not read the id map. -/
theorem Linked.of_map {loose : Option Addr} (h : Linked s ch det loose)
    (m : UInt32 → Option Addr) : Linked { s with timerDataMap := m } ch det loose :=
  ⟨h.heads, h.seg, h.nodup, h.base, h.detSeg, h.detNodup, h.disj, h.out, h.live, h.fresh⟩

theorem setTimeout_spec (h : Linked s ch det none) (interval : Int) (callback : F) (timeout : Int)
    (data : D) (tv : Timeval) :
    ∃ s', setTimeout interval s callback timeout data tv = some (s', s.lastTimerId + 1) ∧
      Linked s' (ch.push (bucketOf s.lastTimeval (expiry interval timeout tv)) s.brk) det none ∧
      s'.log = .linked s.brk (expiry interval timeout tv) s.lastTimeval :: s.log ∧
      (∀ x, view s' x =
        if x = s.brk then some (s.lastTimerId + 1, expiry interval timeout tv) else view s x) ∧
      (∀ i, s'.timerDataMap i =
        (s.timerDataMap i).or (if i = s.lastTimerId + 1 then some s.brk else none)) ∧
      s'.lastTimerId = s.lastTimerId + 1 ∧ s'.lastTimeval = s.lastTimeval ∧ s'.brk = s.brk + 1 := by
  let it : TimerItem F D :=
    { timerId := s.lastTimerId + 1, timeval := expiry interval timeout tv, callback, data }
  obtain ⟨s₁, e₁, fr, hl, hlog⟩ := linked_add (linked_new h it (s.lastTimerId + 1)) it
    (by simp [TimerBase.poke]) rfl rfl
  refine ⟨insertId s₁ (s.lastTimerId + 1) s.brk, ?_, ?_, ?_, fun x => ?_, fun i => ?_, ?_, ?_, ?_⟩
  · show (internalAddTimerItem _ _).bind _ = _
    rw [e₁]; rfl
  · rw [insertId_rest]; exact hl.of_map _
  · rw [insertId_rest]; exact hlog
  · rw [insertId_rest]
    refine (fr.view x).trans ?_
    simp only [view, TimerBase.poke]
    split <;> rfl
  · rw [insertId_map, fr.map]; rfl
  · rw [insertId_rest]; exact fr.lastTimerId
  · rw [insertId_rest]; exact fr.lastTimeval
  · rw [insertId_rest]; exact fr.brk

/-! ## Update and Clear -/

theorem update_spec (h : Linked s ch det none) (ha : (∃ b, a ∈ ch b) ∨ a ∈ det.tail)
    (interval : Int) {timerId : UInt32} (hm : s.timerDataMap timerId = some a) (timeout : Int)
    (tv : Timeval) {t₀ : UInt64} (hv : view s a = some (timerId, t₀)) :
    ∃ s', update interval s timerId timeout tv = some s' ∧
      Linked s' ((ch.erase a).push (bucketOf s.lastTimeval (expiry interval timeout tv)) a)
        (det.erase a) none ∧
      s'.log = .linked a (expiry interval timeout tv) s.lastTimeval :: .updated a :: s.log ∧
      (∀ x, view s' x = if x = a then some (timerId, expiry interval timeout tv) else view s x) ∧
      s'.timerDataMap = s.timerDataMap ∧ Still s s' := by
  obtain ⟨s₁, e₁, f₁, log₁, l₁⟩ := linked_unlink h ha
  obtain ⟨it, hit⟩ := l₁.mem_of_live (a := a) (.inr (.inr rfl))
  have hid : it.timerId = timerId := by
    have := (f₁.view a).trans hv
    simp only [view, hit, Option.map_some, Option.some.injEq, Prod.mk.injEq] at this
    exact this.1
  let it' : TimerItem F D := { it.detached with timeval := expiry interval timeout tv }
  have l₂ : Linked ((s₁.poke a (some it')).emit (.updated a)) (ch.erase a) (det.erase a) (some a) :=
    have l := linked_poke l₁ it'
    ⟨l.heads, l.seg, l.nodup, l.base, l.detSeg, l.detNodup, l.disj, l.out, l.live, l.fresh⟩
  obtain ⟨s₂, e₂, f₂, l₃, log₂⟩ := linked_add l₂ it'
    (by simp [TimerBase.poke, TimerBase.emit]) rfl rfl
  have hb : ((s₁.poke a (some it')).emit (.updated a)).lastTimeval = s.lastTimeval := f₁.lastTimeval
  rw [hb] at l₃ log₂
  refine ⟨s₂, ?_, l₃, ?_, fun x => ?_, f₂.map.trans f₁.map,
    ⟨f₂.lastTimerId.trans f₁.lastTimerId, f₂.lastTimeval.trans f₁.lastTimeval, f₂.brk.trans f₁.brk⟩⟩
  · unfold update
    rw [hm]
    simp only [Option.bind_eq_bind, e₁, Option.bind_some, TimerBase.modify, hit, Option.map_some]
    exact e₂
  · rw [log₂]; simp only [TimerBase.emit, TimerBase.poke, log₁]; rfl
  · refine (f₂.view x).trans ?_
    by_cases hx : x = a
    · subst hx
      simp only [view, TimerBase.emit, TimerBase.poke, if_true, Option.map_some]
      rw [← hid]; rfl
    · rw [if_neg hx, ← f₁.view x]
      simp only [view, TimerBase.emit, TimerBase.poke, if_neg hx]

theorem clear_spec (h : Linked s ch det none) (ha : (∃ b, a ∈ ch b) ∨ a ∈ det.tail)
    {timerId : UInt32} (hm : s.timerDataMap timerId = some a) :
    ∃ s', clear s timerId = some s' ∧ Linked s' (ch.erase a) (det.erase a) none ∧
      s'.log = .freed a :: .cleared a :: s.log ∧
      (∀ x, view s' x = if x = a then none else view s x) ∧
      (∀ i, s'.timerDataMap i = if i = timerId then none else s.timerDataMap i) ∧ Still s s' := by
  obtain ⟨s₁, e₁, f₁, log₁, l₁⟩ := linked_unlink h ha
  have l₂ : Linked (s₁.emit (.cleared a)) (ch.erase a) (det.erase a) (some a) :=
    ⟨l₁.heads, l₁.seg, l₁.nodup, l₁.base, l₁.detSeg, l₁.detNodup, l₁.disj, l₁.out, l₁.live, l₁.fresh⟩
  obtain ⟨s₂, e₂, l₃, rfl⟩ := linked_delete l₂
  refine ⟨(((s₁.emit (.cleared a)).poke a none).emit (.freed a)).eraseId timerId, ?_, l₃.of_map _, ?_,
    fun x => ?_, fun i => ?_, ⟨f₁.lastTimerId, f₁.lastTimeval, f₁.brk⟩⟩
  · unfold clear
    rw [hm]
    simp only [Option.bind_eq_bind, e₁, Option.bind_some, e₂]
  · simp only [TimerBase.emit, TimerBase.poke, TimerBase.eraseId, log₁]
  · by_cases hx : x = a
    · subst hx; simp [view, TimerBase.emit, TimerBase.poke, TimerBase.eraseId]
    · rw [if_neg hx, ← f₁.view x]
      simp only [view, TimerBase.emit, TimerBase.poke, TimerBase.eraseId, if_neg hx]
  · simp only [TimerBase.emit, TimerBase.poke, TimerBase.eraseId, f₁.map]

/-! ## Any call -/

theorem erase_rest (h : Linked s ch (cur.toList ++ rest) none) (ha : Known ch rest a) :
    (cur.toList ++ rest).erase a = cur.toList ++ rest.erase a := by
  refine List.erase_append_right _ fun hc => ?_
  rcases ha with ⟨b, hb⟩ | hr
  · exact h.disj b a hb (List.mem_append_left _ hc)
  · exact (List.nodup_append.mp h.detNodup).2.2 a hc a hr rfl

theorem known_tail (hc : cur.isSome ∨ rest = []) (ha : Known ch rest a) :
    (∃ b, a ∈ ch b) ∨ a ∈ (cur.toList ++ rest).tail := by
  rcases ha with hb | hr
  · exact .inl hb
  · cases cur with
    | none => rcases hc with hc | hc
              · cases hc
              · rw [hc] at hr; cases hr
    | some c => exact .inr hr

/-- Every call succeeds and is one of the four cases. -/
theorem applyOp_cases (h : Linked s ch (cur.toList ++ rest) none) (hc : cur.isSome ∨ rest = [])
    (known : ∀ id a, s.timerDataMap id = some a → Known ch rest a ∧ ∃ t, view s a = some (id, t))
    (interval : Int) (op : Op F D) :
    ∃ s' ch' rest', applyOp interval s op = some s' ∧ Linked s' ch' (cur.toList ++ rest') none ∧
      OpCase s s' ch rest ch' rest' := by
  cases op with
  | setTimeout callback timeout data tv =>
    obtain ⟨s', e, hl, h1, h2, h3, h4, h5, h6⟩ := setTimeout_spec h interval callback timeout data tv
    exact ⟨s', _, rest, by simp [applyOp, e], hl, .add _ _ rfl h1 h2 h3 h4 h5 h6⟩
  | update timerId timeout tv =>
    cases hm : s.timerDataMap timerId with
    | none => exact ⟨s, ch, rest, by simp [applyOp, update, hm], h, .idle rfl⟩
    | some a =>
      obtain ⟨hk, t, hv⟩ := known _ _ hm
      obtain ⟨s', e, hl, h1, h2, h3, h4⟩ := update_spec h (known_tail hc hk) interval hm timeout tv hv
      rw [erase_rest h hk] at hl
      exact ⟨s', _, _, e, hl, .move timerId a _ hm h1 h2 h3 h4⟩
  | clear timerId =>
    cases hm : s.timerDataMap timerId with
    | none => exact ⟨s, ch, rest, by simp [applyOp, clear, hm], h, .idle rfl⟩
    | some a =>
      obtain ⟨hk, t, hv⟩ := known _ _ hm
      obtain ⟨s', e, hl, h1, h2, h3, h4⟩ := clear_spec h (known_tail hc hk) hm
      rw [erase_rest h hk] at hl
      exact ⟨s', _, _, e, hl, .remove timerId a hm h1 h2 h3 h4⟩

end SimpleSvr.L2.Timer
