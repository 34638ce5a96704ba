import SimpleSvr.L2Machine.Timer

/-!
# The timer's lists in memory

`Linked s ch det loose` says what the heap of a timer holds: bucket `b` is the
doubly linked list `ch b`, `det` is a list that has been cut from its bucket
(entered from anywhere), `loose` is at most one item outside every list, and
these are all the live items.

One lemma for each way the lists change, saying that the operation succeeds,
what the lists are afterwards and that nothing else moved (`Frame`):
`linked_add` (`InternalAddTimerItem`), `linked_unlink` (the pointer swing of
`Update` and `Clear`), `linked_delete`, `linked_cut` (a bucket becomes the cut
list) and `linked_pop` (its first item becomes loose).
-/
namespace SimpleSvr.L2.Timer
open SimpleSvr.DList

variable {F D : Type}

/-- The `(PrevItem, NextItem)` pairs of the live items. -/
def links (s : TimerBase F D) : Links Addr := fun a => (s.mem a).map fun it => (it.prevItem, it.nextItem)

/-- The id and expiry of a live item. -/
def view (s : TimerBase F D) (a : Addr) : Option (UInt32 × UInt64) :=
  (s.mem a).map fun it => (it.timerId, it.timeval)

/-- The `Base` of a live item. -/
def bases (s : TimerBase F D) (a : Addr) : Option (Option Bucket) := (s.mem a).map (·.base)

abbrev Chains := Bucket → List Addr

def Chains.push (ch : Chains) (b : Bucket) (a : Addr) : Chains :=
  fun b' => if b' = b then a :: ch b' else ch b'

def Chains.erase (ch : Chains) (a : Addr) : Chains := fun b => (ch b).erase a

def Chains.cut (ch : Chains) (b : Bucket) : Chains := fun b' => if b' = b then [] else ch b'

structure Linked (s : TimerBase F D) (ch : Chains) (det : List Addr) (loose : Option Addr) :
    Prop where
  heads : ∀ b, s.vector b = (ch b).head?
  seg : ∀ b, Seg (links s) none (ch b) none
  nodup : ∀ b, (ch b).Nodup
  base : ∀ b, ∀ a ∈ ch b, bases s a = some (some b)
  detSeg : ∃ p, Seg (links s) p det none
  detNodup : det.Nodup
  disj : ∀ b, ∀ a ∈ ch b, a ∉ det
  out : ∀ a, loose = some a → (∀ b, a ∉ ch b) ∧ a ∉ det
  live : ∀ a, (s.mem a).isSome ↔ (∃ b, a ∈ ch b) ∨ a ∈ det ∨ loose = some a
  fresh : ∀ a, s.brk ≤ a → s.mem a = none

/-- Only links, buckets and the log differ. -/
structure Frame (s s' : TimerBase F D) : Prop where
  lastTimerId : s'.lastTimerId = s.lastTimerId
  lastTimeval : s'.lastTimeval = s.lastTimeval
  map : s'.timerDataMap = s.timerDataMap
  brk : s'.brk = s.brk
  view : ∀ a, view s' a = view s a

variable {s s' : TimerBase F D} {ch : Chains} {det : List Addr} {loose : Option Addr} {a : Addr}

theorem Frame.rfl : Frame s s := ⟨.refl _, .refl _, .refl _, .refl _, fun _ => .refl _⟩

theorem Frame.trans {s'' : TimerBase F D} (h : Frame s s') (h' : Frame s' s'') : Frame s s'' :=
  ⟨h'.1.trans h.1, h'.2.trans h.2, h'.3.trans h.3, h'.4.trans h.4, fun a => (h'.5 a).trans (h.5 a)⟩

/-- A field of the items after a write to one of them. -/
theorem map_poke {α : Type} (s : TimerBase F D) (a : Addr) (it : TimerItem F D) (g : TimerItem F D → α) (y : Addr) :
    ((s.poke a (some it)).mem y).map g = if y = a then some (g it) else (s.mem y).map g := by
  simp only [TimerBase.poke]
  split <;> rfl

/-- The write leaves the field alone. -/
theorem map_poke_same {α : Type} {it it' : TimerItem F D} {g : TimerItem F D → α} (hit : s.mem a = some it)
    (hg : g it' = g it) (y : Addr) : ((s.poke a (some it')).mem y).map g = (s.mem y).map g := by
  rw [map_poke]
  split
  · next hy => rw [hy, hit, Option.map_some, hg]
  · rfl

theorem Frame.poke {it it' : TimerItem F D} (hit : s.mem a = some it)
    (h : (it'.timerId, it'.timeval) = (it.timerId, it.timeval)) : Frame s (s.poke a (some it')) :=
  ⟨.refl _, .refl _, .refl _, .refl _, fun y => map_poke_same hit h y⟩

theorem bases_poke {it it' : TimerItem F D} {y : Addr} (hit : s.mem a = some it) (h : it'.base = it.base) :
    bases (s.poke a (some it')) y = bases s y := map_poke_same hit h y

theorem links_poke (s : TimerBase F D) (a : Addr) (it : TimerItem F D) :
    links (s.poke a (some it)) = fun y => if y = a then some (it.prevItem, it.nextItem) else links s y :=
  funext (map_poke s a it _)

theorem links_poke_prev {it : TimerItem F D} (hit : s.mem a = some it) (q : Option Addr) :
    links (s.poke a (some { it with prevItem := q })) = setPrev (links s) a q := by
  rw [links_poke]
  funext y
  unfold setPrev
  split
  · next hy =>
    rw [hy, links, hit]
    rfl
  · rfl

theorem links_poke_next {it : TimerItem F D} (hit : s.mem a = some it) (q : Option Addr) :
    links (s.poke a (some { it with nextItem := q })) = setNext (links s) a q := by
  rw [links_poke]
  funext y
  unfold setNext
  split
  · next hy =>
    rw [hy, links, hit]
    rfl
  · rfl

/-- Two buckets share no item: its `Base` names one of them. -/
theorem Linked.unique (h : Linked s ch det loose) {b b' : Bucket} (hb : a ∈ ch b) (hb' : a ∈ ch b') :
    b = b' := by
  have h1 := h.base b a hb
  rw [h.base b' a hb'] at h1; cases h1; rfl

theorem Linked.lt_brk (h : Linked s ch det loose) (hl : (s.mem a).isSome) : a < s.brk := by
  by_contra hc
  rw [h.fresh a (Nat.not_lt.mp hc)] at hl; cases hl

theorem Linked.mem_of_live (h : Linked s ch det loose) (hl : (∃ b, a ∈ ch b) ∨ a ∈ det ∨ loose = some a) :
    ∃ it, s.mem a = some it := Option.isSome_iff_exists.mp ((h.live a).mpr hl)

/-! ## Cutting a bucket and taking items off the cut list -/

theorem linked_cut (h : Linked s ch [] none) (b : Bucket) :
    Linked (s.setVector b none) (ch.cut b) (ch b) none where
  heads b' := by
    simp only [TimerBase.setVector, Chains.cut]
    split
    · rfl
    · exact h.heads b'
  seg b' := by
    simp only [Chains.cut]
    split
    · trivial
    · exact h.seg b'
  nodup b' := by
    simp only [Chains.cut]
    split
    · exact List.nodup_nil
    · exact h.nodup b'
  base b' a ha := by
    simp only [Chains.cut] at ha
    split at ha
    · cases ha
    · exact h.base b' a ha
  detSeg := ⟨none, h.seg b⟩
  detNodup := h.nodup b
  disj b' a ha hb := by
    simp only [Chains.cut] at ha
    split at ha
    · cases ha
    · exact ‹¬ b' = b› (h.unique ha hb)
  out _ e := by cases e
  live a := by
    refine (h.live a).trans ⟨?_, ?_⟩
    · rintro (⟨b', hb⟩ | hd | e)
      · by_cases hbb : b' = b
        · exact .inr (.inl (hbb ▸ hb))
        · exact .inl ⟨b', by simpa [Chains.cut, hbb] using hb⟩
      · cases hd
      · cases e
    · rintro (⟨b', hb⟩ | hd | e)
      · simp only [Chains.cut] at hb
        split at hb
        · cases hb
        · exact .inl ⟨b', hb⟩
      · exact .inl ⟨b, hd⟩
      · cases e
  fresh := h.fresh

theorem linked_pop (h : Linked s ch (a :: det) none) : Linked s ch det (some a) where
  heads := h.heads
  seg := h.seg
  nodup := h.nodup
  base := h.base
  detSeg := let ⟨_, hp⟩ := h.detSeg; ⟨some a, hp.2⟩
  detNodup := (List.nodup_cons.mp h.detNodup).2
  disj b x hx hd := h.disj b x hx (List.mem_cons_of_mem a hd)
  out x e := by
    cases e
    exact ⟨fun b hb => h.disj b a hb List.mem_cons_self, (List.nodup_cons.mp h.detNodup).1⟩
  live x := by
    refine (h.live x).trans (or_congr_right ?_)
    simp only [List.mem_cons, reduceCtorEq, or_false, Option.some.injEq]
    exact ⟨fun hx => hx.symm.imp_right Eq.symm, fun hx => hx.symm.imp_left Eq.symm⟩
  fresh := h.fresh

/-- What the first item of the cut list points to. -/
theorem Linked.next_of_det (h : Linked s ch (a :: det) loose) :
    ∃ it, s.mem a = some it ∧ it.nextItem = det.head? := by
  obtain ⟨p, h1, -⟩ := h.detSeg
  simp only [links, Option.map_eq_some_iff, Prod.mk.injEq, Option.or_none] at h1
  obtain ⟨it, h1, -, h2⟩ := h1
  exact ⟨it, h1, h2⟩

/-! ## The loose item -/

/-- The loose item is in no list, so a write to it leaves the lists as they are. -/
theorem Linked.seg_loose (h : Linked s ch det (some a)) {k : Links Addr} (hk : ∀ y, y ≠ a → k y = links s y)
    (b : Bucket) : Seg k none (ch b) none := by
  refine seg_congr (fun x hx => hk x fun e => ?_) (h.seg b)
  exact (h.out a rfl).1 b (e ▸ hx)

theorem Linked.detSeg_loose (h : Linked s ch det (some a)) {k : Links Addr} (hk : ∀ y, y ≠ a → k y = links s y) :
    ∃ p, Seg k p det none := by
  obtain ⟨p, hp⟩ := h.detSeg
  refine ⟨p, seg_congr (fun x hx => hk x fun e => ?_) hp⟩
  exact (h.out a rfl).2 (e ▸ hx)

theorem linked_poke (h : Linked s ch det (some a)) (it : TimerItem F D) :
    Linked (s.poke a (some it)) ch det (some a) := by
  obtain ⟨o1, -⟩ := h.out a rfl
  have hl : ∀ y, y ≠ a → links (s.poke a (some it)) y = links s y := fun y hy => by
    simp [links_poke, hy]
  refine ⟨h.heads, h.seg_loose hl, h.nodup, fun b x hx => ?_, h.detSeg_loose hl, h.detNodup, h.disj, h.out,
    fun x => ?_, fun x hx => ?_⟩
  · have hxa : x ≠ a := fun e => o1 b (e ▸ hx)
    simpa [bases, TimerBase.poke, hxa] using h.base b x hx
  · by_cases hxa : x = a
    · subst hxa; simp [TimerBase.poke]
    · simpa [TimerBase.poke, hxa] using h.live x
  · have hlt := h.lt_brk ((h.live a).mpr (.inr (.inr rfl)))
    have hxa : x ≠ a := Nat.ne_of_gt (Nat.lt_of_lt_of_le hlt hx)
    simpa [TimerBase.poke, hxa] using h.fresh x hx

theorem linked_delete (h : Linked s ch det (some a)) :
    ∃ s', s.delete a = some s' ∧ Linked s' ch det none ∧ s' = (s.poke a none).emit (.freed a) := by
  obtain ⟨it, hit⟩ := h.mem_of_live (a := a) (.inr (.inr rfl))
  obtain ⟨o1, o2⟩ := h.out a rfl
  have hl : ∀ y, y ≠ a → links ((s.poke a none).emit (.freed a)) y = links s y := fun y hy => by
    simp [links, TimerBase.poke, TimerBase.emit, hy]
  refine ⟨(s.poke a none).emit (.freed a), by simp [TimerBase.delete, hit], ?_, rfl⟩
  refine ⟨h.heads, h.seg_loose hl, h.nodup, fun b x hx => ?_, h.detSeg_loose hl, h.detNodup, h.disj, nofun,
    fun x => ?_, fun x hx => ?_⟩
  · have hxa : x ≠ a := fun e => o1 b (e ▸ hx)
    simpa [bases, TimerBase.poke, TimerBase.emit, hxa] using h.base b x hx
  · by_cases hxa : x = a
    · subst hxa; simp [TimerBase.poke, TimerBase.emit, o1, o2]
    · have hax : a ≠ x := fun e => hxa e.symm
      simpa [TimerBase.poke, TimerBase.emit, hxa, hax] using h.live x
  · simp only [TimerBase.poke, TimerBase.emit]
    split
    · rfl
    · exact h.fresh x hx

/-! ## Linking an item into its bucket -/

/-- Same live items, and all fields but the links and `Base` as before. -/
theorem isSome_of_view (h : ∀ x, view s' x = view s x) (x : Addr) :
    (s'.mem x).isSome = (s.mem x).isSome := by
  simpa [view] using congrArg Option.isSome (h x)

/-- `InternalAddTimerItem` field by field. -/
theorem internalAdd_raw {it : TimerItem F D} {b : Bucket} (hit : s.mem a = some it)
    (hb : bucketOf s.lastTimeval it.timeval = b) (hp : it.prevItem = none) (hn : it.nextItem = none)
    (hh : ∀ x, s.vector b = some x → x ≠ a ∧ (s.mem x).isSome) :
    ∃ s', internalAddTimerItem s a = some s' ∧ Frame s s' ∧
      links s' = push (links s) a (s.vector b) ∧
      (∀ y, bases s' y = if y = a then some (some b) else bases s y) ∧
      (∀ b', s'.vector b' = if b' = b then some a else s.vector b') ∧
      s'.log = .linked a it.timeval s.lastTimeval :: s.log := by
  let e : Event := .linked a it.timeval s.lastTimeval
  let based : TimerItem F D := { it with base := some b }
  let s₁ := (s.poke a (some based)).emit e
  have hbased (y : Addr) : bases s₁ y = if y = a then some (some b) else bases s y := map_poke s a based _ y
  have frame : Frame s (s.poke a (some based)) := .poke hit rfl
  have frame₁ : Frame s s₁ := ⟨frame.1, frame.2, frame.3, frame.4, frame.5⟩
  have hlinks : links s₁ = fun y => if y = a then some (none, none) else links s y := by
    have hpoke : links s₁ = _ := links_poke s a based
    rw [hpoke]
    simp only [based, hp, hn]
  cases hv : s.vector b with
  | none =>
    refine ⟨s₁.setVector b (some a), ?_, ⟨frame₁.1, frame₁.2, frame₁.3, frame₁.4, frame₁.5⟩, hlinks, hbased,
      fun _ => rfl, rfl⟩
    simp [internalAddTimerItem, hit, hb, TimerBase.modify, TimerBase.emit, TimerBase.poke, hv, s₁, e, based]
  | some h =>
    obtain ⟨hha, hl⟩ := hh h hv
    obtain ⟨hi, hhi⟩ := Option.isSome_iff_exists.mp hl
    let linked : TimerItem F D := { based with nextItem := some h }
    let s₂ := s₁.poke a (some linked)
    let s₃ := s₂.poke h (some { hi with prevItem := some a })
    have hit₁ : s₁.mem a = some based := if_pos rfl
    have hit₂ : s₂.mem h = some hi := (if_neg hha).trans ((if_neg hha).trans hhi)
    have frame₂ : Frame s₁ s₂ := .poke hit₁ rfl
    have frame₃ : Frame s s₃ := (frame₁.trans frame₂).trans (.poke hit₂ rfl)
    refine ⟨s₃.setVector b (some a), ?_, ⟨frame₃.1, frame₃.2, frame₃.3, frame₃.4, frame₃.5⟩, ?_, fun y => ?_,
      fun _ => rfl, rfl⟩
    · simp [internalAddTimerItem, hit, hb, TimerBase.modify, TimerBase.emit, TimerBase.poke, hv, hha, hhi, s₁, s₂,
        s₃, e, based, linked]
    · -- the two writes to the item are one, and the old head gets its predecessor
      have hlinks₂ : links s₂ = fun y => if y = a then some (none, some h) else links s y := by
        have hpoke : links s₂ = _ := links_poke s₁ a linked
        rw [hpoke, hlinks]
        funext y
        split
        · simp only [linked, based, hp]
        · next hy => exact if_neg hy
      have hlinks₃ : links s₃ = setPrev (links s₂) h (some a) := links_poke_prev hit₂ (some a)
      exact hlinks₃.trans (congrArg (setPrev · h (some a)) hlinks₂)
    · have h₃ : bases s₃ y = bases s₂ y := bases_poke hit₂ rfl
      have h₂ : bases s₂ y = bases s₁ y := bases_poke hit₁ rfl
      exact (h₃.trans h₂).trans (hbased y)

/-- `InternalAddTimerItem` puts the loose item at the head of its bucket. -/
theorem linked_add (h : Linked s ch det (some a)) (it : TimerItem F D) (hit : s.mem a = some it)
    (hp : it.prevItem = none) (hn : it.nextItem = none) :
    ∃ s', internalAddTimerItem s a = some s' ∧ Frame s s' ∧
      Linked s' (ch.push (bucketOf s.lastTimeval it.timeval) a) det none ∧
      s'.log = .linked a it.timeval s.lastTimeval :: s.log := by
  obtain ⟨o1, o2⟩ := h.out a rfl
  generalize hb : bucketOf s.lastTimeval it.timeval = b
  have hhead : ∀ x, s.vector b = some x → x ∈ ch b := fun x hx => by
    rw [h.heads b] at hx; exact List.mem_of_head? hx
  obtain ⟨s', hs, fr, hk, hbase, hv, hlog⟩ := internalAdd_raw hit hb hp hn fun x hx =>
    ⟨by rintro rfl; exact o1 b (hhead x hx), (h.live x).mpr (.inl ⟨b, hhead x hx⟩)⟩
  have other : ∀ {y}, y ≠ a → y ∉ ch b → links s' y = links s y := fun {y} h1 h2 => by
    rw [hk]; exact push_other _ h1 fun e => h2 (hhead y e)
  refine ⟨s', hs, fr, ⟨fun b' => ?_, fun b' => ?_, fun b' => ?_, fun b' x hx => ?_, ?_, h.detNodup,
    fun b' x hx => ?_, nofun, fun x => ?_, fun x hx => ?_⟩, hlog⟩
  · rw [hv]; simp only [Chains.push]
    split
    · rfl
    · exact h.heads b'
  · simp only [Chains.push]
    split
    · next e =>
      subst e
      rw [hk, h.heads b']
      exact seg_push (List.nodup_cons.mpr ⟨o1 b', h.nodup b'⟩) (h.seg b')
    · next e =>
      refine seg_congr (fun x hx => other ?_ fun hxb => e (h.unique hx hxb)) (h.seg b')
      rintro rfl; exact o1 b' hx
  · simp only [Chains.push]
    split
    · exact List.nodup_cons.mpr ⟨o1 b', h.nodup b'⟩
    · exact h.nodup b'
  · rw [hbase]
    simp only [Chains.push] at hx
    by_cases hxa : x = a
    · subst hxa
      split at hx
      · next e => subst e; rw [if_pos rfl]
      · exact absurd hx (o1 b')
    · rw [if_neg hxa]
      refine h.base b' x ?_
      split at hx
      · exact (List.mem_cons.mp hx).resolve_left hxa
      · exact hx
  · obtain ⟨p, hp⟩ := h.detSeg
    exact ⟨p, seg_congr (fun x hx => other (by rintro rfl; exact o2 hx) fun hxb => h.disj b x hxb hx) hp⟩
  · simp only [Chains.push] at hx
    split at hx
    · rcases List.mem_cons.mp hx with rfl | hx
      · exact o2
      · exact h.disj b' x hx
    · exact h.disj b' x hx
  · rw [isSome_of_view fr.view, h.live x]
    simp only [Chains.push, reduceCtorEq, or_false, Option.some.injEq]
    constructor
    · rintro (⟨b', hx⟩ | hx | rfl)
      · exact .inl ⟨b', by split <;> simp [hx]⟩
      · exact .inr hx
      · exact .inl ⟨b, by simp⟩
    · rintro (⟨b', hx⟩ | hx)
      · split at hx
        · rcases List.mem_cons.mp hx with rfl | hx
          · exact .inr (.inr rfl)
          · exact .inl ⟨b', hx⟩
        · exact .inl ⟨b', hx⟩
      · exact .inr (.inl hx)
  · have := h.fresh x (by rw [← fr.brk]; exact hx)
    have hn := isSome_of_view fr.view x
    rw [this] at hn
    exact Option.not_isSome_iff_eq_none.mp (by rw [hn]; simp)

/-! ## Taking an item out of its list -/

/-- A write that changes one link of `x`: the rest of the timer is as before. -/
structure Rewired (s s' : TimerBase F D) (k : Links Addr) : Prop where
  frame : Frame s s'
  links : links s' = k
  bases : ∀ y, bases s' y = bases s y
  log : s'.log = s.log

theorem Rewired.live {k : Links Addr} (h : Rewired s s' k) (x : Addr) :
    (s'.mem x).isSome = (s.mem x).isSome := isSome_of_view h.frame.view x

theorem modify_prev {x : Addr} (hx : (s.mem x).isSome) (q : Option Addr) :
    ∃ s', s.modify x (fun it => { it with prevItem := q }) = some s' ∧
      Rewired s s' (setPrev (links s) x q) ∧ s'.vector = s.vector := by
  obtain ⟨it, hit⟩ := Option.isSome_iff_exists.mp hx
  refine ⟨s.poke x (some { it with prevItem := q }), by simp [TimerBase.modify, hit],
    ⟨?_, ?_, fun y => ?_, rfl⟩, rfl⟩
  · exact .poke hit rfl
  · exact links_poke_prev hit q
  · exact bases_poke hit rfl

theorem modify_next {x : Addr} (hx : (s.mem x).isSome) (q : Option Addr) :
    ∃ s', s.modify x (fun it => { it with nextItem := q }) = some s' ∧
      Rewired s s' (setNext (links s) x q) ∧ s'.vector = s.vector := by
  obtain ⟨it, hit⟩ := Option.isSome_iff_exists.mp hx
  refine ⟨s.poke x (some { it with nextItem := q }), by simp [TimerBase.modify, hit],
    ⟨?_, ?_, fun y => ?_, rfl⟩, rfl⟩
  · exact .poke hit rfl
  · exact links_poke_next hit q
  · exact bases_poke hit rfl

theorem unlinkNext_spec {it : TimerItem F D} (hn : ∀ n, it.nextItem = some n → (s.mem n).isSome) :
    ∃ s', unlinkNext s it = some s' ∧
      Rewired s s' (swingNext (links s) it.prevItem it.nextItem) ∧ s'.vector = s.vector := by
  unfold unlinkNext swingNext
  cases h : it.nextItem with
  | none => exact ⟨s, rfl, ⟨.rfl, rfl, fun _ => rfl, rfl⟩, rfl⟩
  | some n => exact modify_prev (hn n h) _

/-- `unlink` on the link pairs is `DList.unlink`; an item without predecessor
also moves the head of its bucket. -/
theorem unlink_raw {it : TimerItem F D} (hit : s.mem a = some it)
    (hn : ∀ n, it.nextItem = some n → n ≠ a ∧ (s.mem n).isSome)
    (hp : ∀ p, it.prevItem = some p → (s.mem p).isSome)
    (hb : it.prevItem = none → it.base.isSome) :
    ∃ s', Timer.unlink s a = some s' ∧ Rewired s s' (DList.unlink (links s) a) ∧
      ∀ b, s'.vector b = if it.prevItem = none ∧ it.base = some b then it.nextItem else s.vector b := by
  obtain ⟨s₁, e₁, r₁, v₁⟩ := unlinkNext_spec (s := s) fun n h => (hn n h).2
  have hla : links s a = some (it.prevItem, it.nextItem) := by simp [links, hit]
  have hself : links s₁ a = some (it.prevItem, it.nextItem) := by
    rw [r₁.links]
    exact (swingNext_other _ fun h => (hn a h).1 rfl).trans hla
  obtain ⟨it₁, hit₁⟩ := Option.isSome_iff_exists.mp (show (s₁.mem a).isSome by rw [r₁.live, hit]; rfl)
  have hbase : it₁.base = it.base := by
    have := r₁.bases a; simpa [bases, hit, hit₁] using this
  simp only [links, hit₁, Option.map_some, Option.some.injEq, Prod.mk.injEq] at hself
  have run : Timer.unlink s a = unlinkPrev s₁ it₁ := by
    simp only [Timer.unlink, hit, Option.bind_eq_bind, Option.bind_some, e₁, hit₁]
  have hk := unlink_eq hla
  rw [← r₁.links] at hk
  rw [run, unlinkPrev, hself.1, hself.2, hbase]
  cases hq : it.prevItem with
  | some p =>
    obtain ⟨s₂, e₂, r₂, v₂⟩ := modify_next (s := s₁) (by rw [r₁.live]; exact hp p hq) it.nextItem
    refine ⟨s₂, e₂, ⟨r₁.frame.trans r₂.frame, ?_, fun y => (r₂.bases y).trans (r₁.bases y),
      r₂.log.trans r₁.log⟩, fun b => by simp [v₂, v₁]⟩
    rw [r₂.links, hk, hq]; rfl
  | none =>
    obtain ⟨b, hb⟩ := Option.isSome_iff_exists.mp (hb hq)
    refine ⟨s₁.setVector b it.nextItem, by simp [hb],
      ⟨⟨r₁.frame.1, r₁.frame.2, r₁.frame.3, r₁.frame.4, r₁.frame.5⟩, ?_, r₁.bases, r₁.log⟩, fun b' => ?_⟩
    · rw [hk, hq]; rfl
    · simp only [TimerBase.setVector, v₁, hb, true_and, Option.some.injEq, eq_comm]

/-- `unlink` on an item of a list `l₁ ++ a :: l₂`, wherever that list hangs. -/
theorem unlink_seg {p : Option Addr} {l₁ l₂ : List Addr} (hn : (l₁ ++ a :: l₂).Nodup)
    (hseg : Seg (links s) p (l₁ ++ a :: l₂) none) (hp : l₁ ≠ [] ∨ p = none)
    (hb : l₁ = [] → ∃ b, bases s a = some (some b)) :
    ∃ s', Timer.unlink s a = some s' ∧ Frame s s' ∧ s'.log = s.log ∧ (∀ y, bases s' y = bases s y) ∧
      Seg (links s') p (l₁ ++ l₂) none ∧ (∀ y, y ∉ l₁ ++ a :: l₂ → links s' y = links s y) ∧
      ∀ b, s'.vector b = if l₁ = [] ∧ bases s a = some (some b) then l₂.head? else s.vector b := by
  have hat := seg_at hseg
  have hlive : ∀ y ∈ l₁ ++ a :: l₂, (s.mem y).isSome := fun y hy => by
    simpa [links] using seg_live hseg y hy
  obtain ⟨it, hit⟩ := Option.isSome_iff_exists.mp (hlive a (by simp))
  have hat' := hat
  simp only [links, hit, Option.map_some, Option.some.injEq, Prod.mk.injEq] at hat'
  obtain ⟨e1, e2⟩ := hat'
  have hprev : it.prevItem = none ↔ l₁ = [] := by
    rw [e1]
    rcases hp with hp | rfl
    · simp [List.getLast?_eq_some_getLast hp, hp]
    · simp
  have hnext : ∀ n, it.nextItem = some n → n ∈ l₂ := fun n h => List.mem_of_head? (e2 ▸ h)
  have hpmem : ∀ q, it.prevItem = some q → q ∈ l₁ := fun q h => by
    rw [e1] at h
    rcases hp with hp | rfl
    · rw [List.getLast?_eq_some_getLast hp] at h
      cases h; exact List.getLast_mem hp
    · exact List.mem_of_getLast? (by simpa using h)
  have hbase : bases s a = some it.base := by simp [bases, hit]
  obtain ⟨s', e, r, hv⟩ := unlink_raw hit
    (fun n h => ⟨by
      rintro rfl
      exact (List.nodup_cons.mp (List.nodup_append.mp hn).2.1).1 (hnext n h),
      hlive n (by simp [hnext n h])⟩)
    (fun q h => hlive q (by simp [hpmem q h]))
    (fun h => by
      obtain ⟨b, h'⟩ := hb (hprev.mp h)
      rw [hbase] at h'; cases h'' : it.base with
      | none => rw [h''] at h'; cases h'
      | some b => rfl)
  refine ⟨s', e, r.frame, r.log, r.bases, by rw [r.links]; exact seg_unlink hn hseg hp, fun y hy => ?_,
    fun b => ?_⟩
  · rw [r.links, unlink_other]
    · intro n h
      rw [links, hit] at h
      simp only [Option.map_some, Option.some.injEq, Prod.mk.injEq] at h
      exact hy (by simp [hpmem y h.1])
    · intro q h
      rw [links, hit] at h
      simp only [Option.map_some, Option.some.injEq, Prod.mk.injEq] at h
      exact hy (by simp [hnext y h.2])
  · rw [hv, e2, hbase]; simp only [hprev, Option.some.injEq]

/-- The rest of the timer once `a`'s own list (`l`, at `pos`) has been dealt
with: `a` is loose and every list has lost it. -/
theorem linked_erase (h : Linked s ch det none) (ha : (∃ b, a ∈ ch b) ∨ a ∈ det) (fr : Frame s s')
    (hbase : ∀ y, bases s' y = bases s y) (heads : ∀ b, s'.vector b = ((ch.erase a) b).head?)
    (seg : ∀ b, Seg (links s') none ((ch.erase a) b) none)
    (detSeg : ∃ p, Seg (links s') p (det.erase a) none) :
    Linked s' (ch.erase a) (det.erase a) (some a) where
  heads := heads
  seg := seg
  nodup b := (h.nodup b).erase a
  base b x hx := by rw [hbase]; exact h.base b x (List.mem_of_mem_erase hx)
  detSeg := detSeg
  detNodup := h.detNodup.erase a
  disj b x hx hd := h.disj b x (List.mem_of_mem_erase hx) (List.mem_of_mem_erase hd)
  out x e := by
    cases e
    exact ⟨fun b => (h.nodup b).not_mem_erase, h.detNodup.not_mem_erase⟩
  live x := by
    rw [isSome_of_view fr.view, h.live x]
    simp only [reduceCtorEq, or_false, Option.some.injEq]
    by_cases hx : x = a
    · subst hx; simp only [or_true, iff_true]; exact ha
    · have hx' : a ≠ x := fun e => hx e.symm
      simp only [Chains.erase, List.mem_erase_of_ne hx, hx', or_false]
  fresh x hx := by
    have := h.fresh x (by rw [← fr.brk]; exact hx)
    have hn := isSome_of_view fr.view x
    rw [this] at hn
    exact Option.not_isSome_iff_eq_none.mp (by rw [hn]; simp)

/-- `Update` and `Clear` take an item out of its bucket, or out of the cut
list when it is not its first item. -/
theorem linked_unlink (h : Linked s ch det none) (ha : (∃ b, a ∈ ch b) ∨ a ∈ det.tail) :
    ∃ s', Timer.unlink s a = some s' ∧ Frame s s' ∧ s'.log = s.log ∧
      Linked s' (ch.erase a) (det.erase a) (some a) := by
  rcases ha with ⟨b, hb⟩ | hd
  · obtain ⟨l₁, l₂, hl⟩ := List.append_of_mem hb
    have hn := hl ▸ h.nodup b
    have hne : a ∉ l₁ := fun h1 => (List.nodup_append.mp hn).2.2 a h1 a (by simp) rfl
    have herase : (ch b).erase a = l₁ ++ l₂ := by
      rw [hl, List.erase_append_right _ hne, List.erase_cons_head]
    have hother : ∀ b', b' ≠ b → a ∉ ch b' := fun b' hbb h' => hbb (h.unique h' hb)
    obtain ⟨s', e, fr, hlog, hbase, hs, ho, hv⟩ :=
      unlink_seg hn (hl ▸ h.seg b) (.inr rfl) fun _ => ⟨b, h.base b a hb⟩
    have hda : a ∉ det := h.disj b a hb
    refine ⟨s', e, fr, hlog, linked_erase h (.inl ⟨b, hb⟩) fr hbase (fun b' => ?_) (fun b' => ?_) ?_⟩
    · rw [hv, h.base b a hb]
      by_cases hbb : b' = b
      · subst hbb
        rw [Chains.erase, herase, h.heads b', hl]
        cases l₁ <;> simp
      · rw [if_neg fun e => hbb (Option.some.inj (Option.some.inj e.2)).symm, h.heads b', Chains.erase,
          List.erase_of_not_mem (hother b' hbb)]
    · by_cases hbb : b' = b
      · subst hbb; simpa only [Chains.erase, herase] using hs
      · rw [Chains.erase, List.erase_of_not_mem (hother b' hbb)]
        exact seg_congr (fun x hx => ho x fun hxl => hbb (h.unique hx (hl ▸ hxl))) (h.seg b')
    · obtain ⟨p, hp⟩ := h.detSeg
      rw [List.erase_of_not_mem hda]
      exact ⟨p, seg_congr (fun x hx => ho x fun hxl => h.disj b x (hl ▸ hxl) hx) hp⟩
  · cases det with
    | nil => cases hd
    | cons c t =>
      obtain ⟨t₁, t₂, ht⟩ := List.append_of_mem hd
      simp only [List.tail_cons] at ht
      subst ht
      obtain ⟨p, hp⟩ := h.detSeg
      have hn : ((c :: t₁) ++ a :: t₂).Nodup := h.detNodup
      have hne : a ∉ c :: t₁ := fun h1 => (List.nodup_append.mp hn).2.2 a h1 a (by simp) rfl
      have herase : (c :: (t₁ ++ a :: t₂)).erase a = (c :: t₁) ++ t₂ := by
        rw [show c :: (t₁ ++ a :: t₂) = (c :: t₁) ++ a :: t₂ from rfl, List.erase_append_right _ hne,
          List.erase_cons_head]
      have hch : ∀ b, a ∉ ch b := fun b hb => h.disj b a hb (by simp)
      obtain ⟨s', e, fr, hlog, hbase, hs, ho, hv⟩ :=
        unlink_seg hn (p := p) hp (.inl (by simp)) (fun h => by cases h)
      refine ⟨s', e, fr, hlog, linked_erase h (.inr (by simp)) fr hbase (fun b => ?_) (fun b => ?_) ?_⟩
      · rw [hv, if_neg (fun e => by cases e.1), h.heads b, Chains.erase, List.erase_of_not_mem (hch b)]
      · rw [Chains.erase, List.erase_of_not_mem (hch b)]
        exact seg_congr (fun x hx => ho x fun hxl => h.disj b x hx hxl) (h.seg b)
      · exact ⟨p, by rw [herase]; exact hs⟩

end SimpleSvr.L2.Timer
