import SimpleSvr.L5App.TcpServer

/-!
# The life of an accepted channel

`OnReadable` writes to the record after `OnMessage` returned, and `OnErrorable`
disconnects after `OnError` returned, also when the callback has disconnected the
client. `Orderly` excludes that, and a callback that goes on with a channel that
it has disconnected; then each record lives once (`life_run`).
-/
namespace SimpleSvr.L5.TcpServer

variable {CacheSize : UInt32}

/-- Each callback and each system call at most once, and no use after `delete`. -/
structure Lifecycle (h : List Event) : Prop where
  connected : h.count .connected ≤ 1
  disconnected : h.count .disconnected ≤ 1
  closed : h.count .closed ≤ 1
  deleted : h.count .deleted ≤ 1
  last : ∀ pre post, h = pre ++ .deleted :: post → post = []

/-- Every record lives once. -/
def Once (s : TcpServer CacheSize) : Prop := ∀ r, Lifecycle (s.history r)

/-- A callback that disconnects its channel does nothing with it after that. -/
def HandlerCall.Stops (cb : HandlerCall) : Prop := .disconnect ∉ cb.uses.dropLast

/-- `OnMessage` and `OnError` throw when they have disconnected. -/
def HandlerCall.Leaves (cb : HandlerCall) : Prop := .disconnect ∈ cb.uses → cb.throws = true

/-- `OnReadable` calls `OnMessage`. -/
def ShowsMessage (s : TcpServer CacheSize) (r : ChannelRec) : Recv → Prop
  | .fail => False
  | .bytes chunk => chunk ≠ [] ∧ ∀ c ∈ s.mem.find r, 0 < c.dwRemainSize

def Orderly (s : TcpServer CacheSize) : Label CacheSize → Prop
  | .accept _ registered cb => registered = true → HandlerCall.Stops cb
  | .readable r recv cb => ShowsMessage s r recv → HandlerCall.Stops cb ∧ HandlerCall.Leaves cb
  | .errorable _ cb => HandlerCall.Stops cb ∧ HandlerCall.Leaves cb

instance (cb : HandlerCall) : Decidable (HandlerCall.Stops cb) := inferInstanceAs (Decidable (_ ∉ _))

instance (cb : HandlerCall) : Decidable (HandlerCall.Leaves cb) := inferInstanceAs (Decidable (_ → _))

instance (s : TcpServer CacheSize) (r : ChannelRec) : (recv : Recv) → Decidable (ShowsMessage s r recv)
  | .fail => inferInstanceAs (Decidable False)
  | .bytes _ => inferInstanceAs (Decidable (_ ∧ ∀ _ ∈ _, _))

instance (s : TcpServer CacheSize) : (l : Label CacheSize) → Decidable (Orderly s l)
  | .accept .. => inferInstanceAs (Decidable (_ → _))
  | .readable .. => inferInstanceAs (Decidable (_ → _ ∧ _))
  | .errorable .. => inferInstanceAs (Decidable (_ ∧ _))

/-! ## Histories -/

/-- A history of a record that is there. -/
structure Open (h : List Event) : Prop where
  connected : h.count .connected ≤ 1
  disconnected : .disconnected ∉ h
  closed : .closed ∉ h
  deleted : .deleted ∉ h

/-- Neither a callback nor a system call. -/
def Event.neutral : Event → Bool
  | .touched | .received _ | .message _ | .returned _ => true
  | _ => false

def ending : List Event := [.disconnected, .touched, .closed, .deleted]

def useEvents : Use → List Event
  | .touch => [.touched]
  | .disconnect => ending

variable {h es : List Event} {uses : List Use}

theorem Open.neutral (ho : Open h) (hes : ∀ e ∈ es, Event.neutral e = true) : Open (h ++ es) := by
  have hno {e : Event} (he : Event.neutral e = false) : e ∉ es := by
    intro hm
    rw [hes e hm] at he
    cases he
  constructor
  · rw [List.count_append, List.count_eq_zero.mpr (hno rfl)]
    exact ho.connected
  · rw [List.mem_append, not_or]
    exact ⟨ho.disconnected, hno rfl⟩
  · rw [List.mem_append, not_or]
    exact ⟨ho.closed, hno rfl⟩
  · rw [List.mem_append, not_or]
    exact ⟨ho.deleted, hno rfl⟩

theorem Open.toLifecycle (ho : Open h) : Lifecycle h where
  connected := ho.connected
  disconnected := Nat.le_of_eq (List.count_eq_zero.mpr ho.disconnected) |>.trans (Nat.zero_le 1)
  closed := Nat.le_of_eq (List.count_eq_zero.mpr ho.closed) |>.trans (Nat.zero_le 1)
  deleted := Nat.le_of_eq (List.count_eq_zero.mpr ho.deleted) |>.trans (Nat.zero_le 1)
  last := by
    intro pre post heq
    exact absurd (heq ▸ List.mem_append_right _ List.mem_cons_self) ho.deleted

/-- Where an element comes last, it comes once. -/
theorem append_last {α : Type} {a : α} {l pre post : List α} (ha : a ∉ l) (heq : l ++ [a] = pre ++ a :: post) :
    pre = l ∧ post = [] := by
  rcases List.append_eq_append_iff.mp heq with ⟨m, hpre, hm⟩ | ⟨m, hl, hm⟩
  · cases m with
    | nil => exact ⟨by rw [hpre, List.append_nil], (List.cons.inj hm).2.symm⟩
    | cons b m => simp at hm
  · cases m with
    | nil => exact ⟨by rw [hl, List.append_nil], (List.cons.inj hm).2⟩
    | cons b m =>
      have hb : a = b := (List.cons.inj hm).1
      subst hb
      exact absurd (hl ▸ List.mem_append_right _ List.mem_cons_self) ha

theorem Open.ended (ho : Open h) : Lifecycle (h ++ ending) where
  connected := by
    rw [List.count_append]
    exact ho.connected
  disconnected := by
    rw [List.count_append, List.count_eq_zero.mpr ho.disconnected]
    decide
  closed := by
    rw [List.count_append, List.count_eq_zero.mpr ho.closed]
    decide
  deleted := by
    rw [List.count_append, List.count_eq_zero.mpr ho.deleted]
    decide
  last := by
    intro pre post heq
    have hno : .deleted ∉ h ++ [.disconnected, .touched, .closed] := by
      rw [List.mem_append, not_or]
      exact ⟨ho.deleted, by decide⟩
    have hsplit : (h ++ [.disconnected, .touched, .closed]) ++ [.deleted] = pre ++ .deleted :: post := by
      rw [← heq, List.append_assoc]
      rfl
    exact (append_last hno hsplit).2

/-- What comes after `delete` is too much. -/
theorem not_lifecycle {l₁ l₂ : List Event} (hd : .deleted ∈ l₁) (hne : l₂ ≠ []) : ¬Lifecycle (l₁ ++ l₂) := by
  obtain ⟨a, b, rfl⟩ := List.append_of_mem hd
  intro hl
  have hnil := hl.last a (b ++ l₂) (by rw [List.append_assoc, List.cons_append])
  exact hne (List.append_eq_nil_iff.mp hnil).2

theorem disconnect_dropLast : .disconnect ∉ (Use.disconnect :: uses).dropLast ↔ uses = [] := by
  cases uses <;> simp

theorem touch_dropLast : .disconnect ∉ (Use.touch :: uses).dropLast ↔ .disconnect ∉ uses.dropLast := by
  cases uses <;> simp

/-- What a callback does with an open record, and what the library does after it: one life, if the
callback stops when it disconnects and the library then does nothing. -/
theorem lifecycle_uses {tail : List Event} (ht : (∀ e ∈ tail, Event.neutral e = true) ∨ tail = ending) :
    ∀ (uses : List Use) {h : List Event}, Open h →
      (Lifecycle (h ++ (uses.flatMap useEvents ++ tail)) ↔
        .disconnect ∉ uses.dropLast ∧ (.disconnect ∈ uses → tail = []))
  | [], h, ho => by
    refine iff_of_true ?_ ⟨List.not_mem_nil, fun hm => absurd hm List.not_mem_nil⟩
    rcases ht with ht | rfl
    · exact (ho.neutral ht).toLifecycle
    · exact ho.ended
  | .touch :: uses, h, ho => by
    have ho' : Open (h ++ [.touched]) := ho.neutral (List.forall_mem_singleton.mpr rfl)
    have ih := lifecycle_uses ht uses ho'
    rw [touch_dropLast, List.mem_cons, or_iff_right (nofun : Use.disconnect ≠ .touch), ← ih]
    simp only [List.flatMap_cons, useEvents, List.append_assoc]
  | .disconnect :: uses, h, ho => by
    rw [disconnect_dropLast, List.flatMap_cons, useEvents, List.append_assoc, ← List.append_assoc h]
    constructor
    · intro hl
      have hnil : uses.flatMap useEvents ++ tail = [] := by
        by_contra hne
        exact not_lifecycle (List.mem_append_right _ (by decide)) hne hl
      obtain ⟨huses, htail⟩ := List.append_eq_nil_iff.mp hnil
      refine ⟨?_, fun _ => htail⟩
      cases uses with
      | nil => rfl
      | cons x uses => cases x <;> cases huses
    · intro hc
      rw [hc.1, hc.2 List.mem_cons_self]
      exact (List.append_nil _) ▸ ho.ended

/-! ## What a step does to a record -/

/-- From `s` to `s'` the events `es` happened to `r`, which is released if `dies`, and nothing to others. -/
structure Does (s s' : TcpServer CacheSize) (r : ChannelRec) (es : List Event) (dies : Bool) : Prop where
  history : s'.history r = s.history r ++ es
  other : ∀ x, x ≠ r → s'.history x = s.history x
  poll : s'.poll = if dies then s.poll.filter (· ≠ r) else s.poll
  brk : s'.brk = s.brk
  mem : ∀ x, x ≠ r → s'.mem.find x = s.mem.find x
  live : dies = false → ∀ c, s.mem.find r = some c → c.Fits → ∃ c', s'.mem.find r = some c' ∧ c'.Fits
  gone : s.mem.find r = none → s'.mem.find r = none

variable {s s' s₁ s₂ : TcpServer CacheSize} {r : ChannelRec} {es₁ es₂ : List Event} {d₁ d₂ : Bool}

theorem Does.trans (h₁ : Does s s₁ r es₁ d₁) (h₂ : Does s₁ s₂ r es₂ d₂) : Does s s₂ r (es₁ ++ es₂) (d₁ || d₂) where
  history := by rw [h₂.history, h₁.history, List.append_assoc]
  other := by
    intro x hx
    rw [h₂.other x hx, h₁.other x hx]
  poll := by
    rw [h₂.poll, h₁.poll]
    cases d₁ <;> cases d₂ <;> simp [List.filter_filter]
  brk := h₂.brk.trans h₁.brk
  mem := by
    intro x hx
    rw [h₂.mem x hx, h₁.mem x hx]
  live := by
    intro hd c hc hf
    obtain ⟨hd₁, hd₂⟩ := Bool.or_eq_false_iff.mp hd
    obtain ⟨c₁, hc₁, hf₁⟩ := h₁.live hd₁ c hc hf
    exact h₂.live hd₂ c₁ hc₁ hf₁
  gone := fun hn => h₂.gone (h₁.gone hn)

theorem does_nothing (s : TcpServer CacheSize) (r : ChannelRec) : Does s s r [] false where
  history := (List.append_nil _).symm
  other := fun _ _ => rfl
  poll := rfl
  brk := rfl
  mem := fun _ _ => rfl
  live := fun _ c hc hf => ⟨c, hc, hf⟩
  gone := id

theorem does_emit (s : TcpServer CacheSize) (r : ChannelRec) (e : Event) : Does s (s.emit r e) r [e] false where
  history := by
    rw [TcpServer.history, TcpServer.history, emit, List.filter_append, List.map_append]
    simp
  other := by
    intro x hx
    rw [TcpServer.history, TcpServer.history, emit, List.filter_append]
    simp [Ne.symm hx]
  poll := rfl
  brk := rfl
  mem := fun _ _ => rfl
  live := fun _ c hc hf => ⟨c, hc, hf⟩
  gone := id

/-- The cache of a record changes. -/
theorem does_modify (s : TcpServer CacheSize) (r : ChannelRec) {c : TcpChannelCache CacheSize} (hf : c.Fits) :
    Does s { s with mem := s.mem.modify r fun _ => c } r [] false where
  history := (List.append_nil _).symm
  other := fun _ _ => rfl
  poll := rfl
  brk := rfl
  mem := fun _ hx => OrdMap.find_modify_ne hx _
  live := fun _ c' hc' _ => ⟨c, by rw [OrdMap.find_modify, hc', Option.map_some], hf⟩
  gone := fun hn => by rw [OrdMap.find_modify, hn, Option.map_none]

/-- The record is deleted and not polled any more. -/
theorem does_drop (s : TcpServer CacheSize) (r : ChannelRec) :
    Does s { s with poll := s.poll.filter (· ≠ r), mem := s.mem.erase r } r [] true where
  history := (List.append_nil _).symm
  other := fun _ _ => rfl
  poll := rfl
  brk := rfl
  mem := fun _ hx => OrdMap.find_erase_ne hx
  live := nofun
  gone := fun _ => OrdMap.find_erase _ _

theorem does_release (s : TcpServer CacheSize) (r : ChannelRec) :
    Does s (s.release r) r [.touched, .closed, .deleted] true :=
  (((does_emit s r .touched).trans (does_emit _ r .closed)).trans (does_emit _ r .deleted)).trans (does_drop _ r)

theorem does_disconnect (s : TcpServer CacheSize) (r : ChannelRec) : Does s (s.DisconnectClient r) r ending true :=
  (does_emit s r .disconnected).trans (does_release _ r)

theorem does_uses (r : ChannelRec) : ∀ (uses : List Use) (s : TcpServer CacheSize),
    Does s (s.runUses r uses) r (uses.flatMap useEvents) (decide (.disconnect ∈ uses))
  | [], s => does_nothing s r
  | .touch :: uses, s => by
    have h := (does_emit s r .touched).trans (does_uses r uses (s.emit r .touched))
    have hm : decide (.disconnect ∈ Use.touch :: uses) = decide (.disconnect ∈ uses) := by simp
    rw [hm, runUses]
    exact h
  | .disconnect :: uses, s => by
    have h := (does_disconnect s r).trans (does_uses r uses (s.DisconnectClient r))
    have hm : decide (.disconnect ∈ Use.disconnect :: uses) = true := by simp
    rw [hm, runUses]
    exact h

theorem Does.polled {es : List Event} {dies : Bool} (h : Does s s' r es dies) {x : ChannelRec} (hx : x ∈ s'.poll) :
    x ∈ s.poll ∧ (x = r → dies = false) := by
  rw [h.poll] at hx
  cases dies with
  | false => exact ⟨hx, fun _ => rfl⟩
  | true =>
    obtain ⟨hx, hne⟩ := List.mem_filter.mp hx
    exact ⟨hx, fun heq => absurd heq (of_decide_eq_true hne)⟩

/-! ## The invariant -/

/-- A record that is polled is there, and an address that was not handed out is free. -/
structure Known (s : TcpServer CacheSize) : Prop where
  live : ∀ r ∈ s.poll, ∃ c, s.mem.find r = some c ∧ c.Fits
  born : ∀ r ∈ s.poll, r < s.brk
  fresh : ∀ r, s.brk ≤ r → s.history r = [] ∧ s.mem.find r = none

structure Inv (s : TcpServer CacheSize) : Prop extends Known s where
  once : Once s
  open_ : ∀ r ∈ s.poll, Open (s.history r)

variable {es : List Event} {dies : Bool}

theorem Known.does (h : Known s) (hd : Does s s' r es dies) (hr : r ∈ s.poll) : Known s' where
  live := by
    intro x hx
    obtain ⟨hx, hdies⟩ := hd.polled hx
    obtain ⟨c, hc, hf⟩ := h.live x hx
    by_cases hxr : x = r
    · subst hxr
      exact hd.live (hdies rfl) c hc hf
    · exact ⟨c, (hd.mem x hxr).trans hc, hf⟩
  born := by
    intro x hx
    exact hd.brk.symm ▸ h.born x (hd.polled hx).1
  fresh := by
    intro x hx
    have hxr : x ≠ r := Nat.ne_of_gt (Nat.lt_of_lt_of_le (h.born r hr) (hd.brk ▸ hx))
    rw [hd.other x hxr, hd.mem x hxr]
    exact h.fresh x (hd.brk ▸ hx)

/-- A step on an open record keeps the invariant when that record's life is one. -/
theorem Inv.does (h : Inv s) (hd : Does s s' r es dies) (hr : r ∈ s.poll) (hl : Lifecycle (s'.history r))
    (ho : dies = false → Open (s'.history r)) : Inv s' where
  toKnown := h.toKnown.does hd hr
  once := by
    intro x
    by_cases hx : x = r
    · exact hx ▸ hl
    · rw [hd.other x hx]
      exact h.once x
  open_ := by
    intro x hx
    obtain ⟨hx, hdies⟩ := hd.polled hx
    by_cases hxr : x = r
    · exact hxr ▸ ho (hdies hxr)
    · rw [hd.other x hxr]
      exact h.open_ x hx

/-- What the events of a step that calls a callback make of the record. -/
theorem Inv.callback (h : Inv s) (hr : r ∈ s.poll) (pre : List Event) (uses : List Use) (tail : List Event)
    (hpre : ∀ e ∈ pre, Event.neutral e = true)
    (ht : (∀ e ∈ tail, Event.neutral e = true) ∧ dies = false ∨ tail = ending ∧ dies = true)
    (hd : Does s s' r (pre ++ (uses.flatMap useEvents ++ tail)) (decide (.disconnect ∈ uses) || dies)) :
    (Once s' ↔ .disconnect ∉ uses.dropLast ∧ (.disconnect ∈ uses → tail = [])) ∧ (Once s' → Inv s') := by
  have hopen : Open (s.history r ++ pre) := (h.open_ r hr).neutral hpre
  have hhist : s'.history r = (s.history r ++ pre) ++ (uses.flatMap useEvents ++ tail) := by
    rw [hd.history, List.append_assoc]
  have hlife := lifecycle_uses (ht.imp And.left And.left) uses hopen
  rw [← hhist] at hlife
  refine ⟨⟨fun ho => hlife.mp (ho r), fun hc x => ?_⟩, fun ho => h.does hd hr (ho r) fun hdies => ?_⟩
  · by_cases hxr : x = r
    · exact hxr ▸ hlife.mpr hc
    · rw [hd.other x hxr]
      exact h.once x
  · obtain ⟨hno, hd₂⟩ := Bool.or_eq_false_iff.mp hdies
    have huses : ∀ e ∈ uses.flatMap useEvents, Event.neutral e = true := by
      intro e he
      obtain ⟨x, hx, hex⟩ := List.mem_flatMap.mp he
      cases x with
      | touch => exact List.mem_singleton.mp hex ▸ rfl
      | disconnect => exact absurd hx (of_decide_eq_false hno)
    rw [hhist]
    apply hopen.neutral
    intro e he
    rcases List.mem_append.mp he with he | he
    · exact huses e he
    · rcases ht with ht | ht
      · exact ht.1 e he
      · rw [ht.2] at hd₂
        cases hd₂

/-! ## Steps -/

variable {c : TcpChannelCache CacheSize} {chunk : Bytes} {cb : HandlerCall}

/-- What comes after `OnMessage`. -/
def afterMessage (cb : HandlerCall) : List Event := if cb.throws then [] else [.returned cb.readPosition]

/-- How much the handler has read: nothing when it throws. -/
def HandlerCall.consumed (cb : HandlerCall) : Nat := if cb.throws then 0 else cb.readPosition.toNat

/-- The cache that `OnMessage` leaves. -/
def Keeps (s : TcpServer CacheSize) (r : ChannelRec) (kept : Bytes) : Prop :=
  ∃ c, s.mem.find r = some c ∧ c.Fits ∧ c.shown = kept

theorem runUses_mem (r : ChannelRec) : ∀ (uses : List Use) (s : TcpServer CacheSize), .disconnect ∉ uses →
    (s.runUses r uses).mem = s.mem
  | [], _, _ => rfl
  | .touch :: uses, s, hno => runUses_mem r uses (s.emit r .touched) fun hm => hno (List.mem_cons_of_mem _ hm)
  | .disconnect :: _, _, hno => absurd List.mem_cons_self hno

theorem does_showMessage {c₀ : TcpChannelCache CacheSize} (hc₀ : s.mem.find r = some c₀) (hf : c.Fits)
    (hpos : cb.readPosition.toNat ≤ c.shown.length) :
    ∃ s', s.showMessage r c cb = some s' ∧
      Does s s' r (.message c.shown :: (cb.uses.flatMap useEvents ++ afterMessage cb))
        (decide (.disconnect ∈ cb.uses) || false) ∧
      (.disconnect ∉ cb.uses → Keeps s' r (c.shown.drop (HandlerCall.consumed cb))) := by
  have hshow := ((does_modify s r hf).trans (does_emit _ r (.message c.shown))).trans (does_uses r cb.uses _)
  have hmem (hno : .disconnect ∉ cb.uses) :
      ((({ s with mem := s.mem.modify r fun _ => c } : TcpServer CacheSize).emit r (.message c.shown)).runUses r
        cb.uses).mem.find r = some c := by
    rw [runUses_mem r cb.uses _ hno, emit, OrdMap.find_modify, hc₀]
    rfl
  rw [showMessage, afterMessage, HandlerCall.consumed]
  cases ht : cb.throws with
  | true => exact ⟨_, rfl, by simpa using hshow, fun hno => ⟨c, hmem hno, hf, rfl⟩⟩
  | false =>
    have hle : cb.readPosition ≤ c.dwCacheAvailableSize.toUInt64 := by
      rw [TcpChannelCache.length_shown hf, ← UInt32.toNat_toUInt64] at hpos
      exact UInt64.le_iff_toNat_le.mpr hpos
    obtain ⟨c', hc', hf', hshown'⟩ := TcpChannelCache.leave_spec hf hle
    have hleave : c.leave c.message.availableReadSize cb.readPosition = some c' := hc'
    simp only [hleave]
    refine ⟨_, rfl, ?_, fun hno => ⟨c', ?_, hf', hshown'⟩⟩
    · have hdone := (hshow.trans (does_modify _ r hf')).trans (does_emit _ r (.returned cb.readPosition))
      simpa using hdone
    · simp only [emit]
      rw [OrdMap.find_modify]
      exact congrArg (Option.map fun _ => c') (hmem hno)

/-- The cases of `OnReadable` on a record that is there. -/
theorem OnReadable_cases (hc : s.mem.find r = some c) (hf : c.Fits) {recv : Recv} (hd : delivers s r recv cb) :
    ∃ s', s.OnReadable r recv cb = some s' ∧
      ((¬ShowsMessage s r recv ∧ Does s s' r [.touched] false ∧ s'.mem = s.mem) ∨
       (¬ShowsMessage s r recv ∧ Does s s' r (.touched :: ending) true) ∨
       ∃ chunk c', recv = .bytes chunk ∧ ShowsMessage s r recv ∧ c.receive chunk = some c' ∧
        c'.shown = c.shown ++ chunk ∧ cb.readPosition.toNat ≤ c'.shown.length ∧
        Does s s' r ([.touched, .received chunk, .message c'.shown] ++ (cb.uses.flatMap useEvents ++ afterMessage cb))
          (decide (.disconnect ∈ cb.uses) || false) ∧
        (.disconnect ∉ cb.uses → Keeps s' r (c'.shown.drop (HandlerCall.consumed cb)))) := by
  have htouch := does_emit s r .touched
  have hend := htouch.trans (does_disconnect _ r)
  rw [OnReadable, hc]
  by_cases hfull : c.dwRemainSize ≤ 0
  · refine ⟨_, if_pos hfull, .inr (.inl ⟨fun hm => ?_, hend⟩)⟩
    cases recv with
    | fail => exact hm
    | bytes chunk => exact absurd (hm.2 c hc) (Int.not_lt.mpr hfull)
  · cases recv with
    | fail => exact ⟨_, if_neg hfull, .inl ⟨id, htouch, rfl⟩⟩
    | bytes chunk =>
      cases chunk with
      | nil => exact ⟨_, if_neg hfull, .inr (.inl ⟨fun hm => hm.1 rfl, hend⟩)⟩
      | cons b chunk =>
        obtain ⟨hroom, hpos⟩ := hd c hc
        obtain ⟨c', hrec, hf', hshown⟩ := TcpChannelCache.receive_spec hf hroom
        have hlen : cb.readPosition.toNat ≤ c'.shown.length := by
          rw [hshown, List.length_append, TcpChannelCache.length_shown hf]
          exact hpos
        have hc₀ : ((s.emit r .touched).emit r (.received (b :: chunk))).mem.find r = some c := hc
        obtain ⟨s', hs', hdoes, hkeeps⟩ := does_showMessage hc₀ hf' hlen
        refine ⟨s', ?_, .inr (.inr ⟨b :: chunk, c', rfl, ⟨nofun, fun c₁ hc₁ => ?_⟩, hrec, hshown, hlen, ?_, hkeeps⟩)⟩
        · simp only [bind, Option.bind, if_neg hfull, hrec]
          exact hs'
        · obtain rfl := Option.some.inj (hc.symm.trans hc₁)
          exact Int.not_le.mp hfull
        · exact (htouch.trans (does_emit _ r (.received (b :: chunk)))).trans hdoes

theorem step_readable (h : Inv s) {recv : Recv} (hl : enabled s (.readable r recv cb)) :
    ∃ s', s.OnReadable r recv cb = some s' ∧ (Once s' ↔ Orderly s (.readable r recv cb)) ∧ (Once s' → Inv s') := by
  obtain ⟨c, hc, hf⟩ := h.live r hl.1
  obtain ⟨s', hs', hcase⟩ := OnReadable_cases hc hf hl.2
  refine ⟨s', hs', ?_⟩
  have hpre : ∀ e ∈ [Event.touched], Event.neutral e = true := by decide
  rcases hcase with ⟨hno, hd, -⟩ | ⟨hno, hd⟩ | ⟨chunk, c', -, hyes, -, -, -, hd, -⟩
  · have hcall := h.callback hl.1 [.touched] [] [] hpre (.inl ⟨nofun, rfl⟩) hd
    exact ⟨iff_of_true (hcall.1.mpr ⟨List.not_mem_nil, nofun⟩) fun hm => absurd hm hno, hcall.2⟩
  · have hcall := h.callback hl.1 [.touched] [] ending hpre (.inr ⟨rfl, rfl⟩) hd
    exact ⟨iff_of_true (hcall.1.mpr ⟨List.not_mem_nil, nofun⟩) fun hm => absurd hm hno, hcall.2⟩
  · have htail : ∀ e ∈ afterMessage cb, Event.neutral e = true := by
      intro e he
      rw [afterMessage] at he
      split at he
      · cases he
      · exact List.mem_singleton.mp he ▸ rfl
    have hshow : ∀ e ∈ [Event.touched, .received chunk, .message c'.shown], Event.neutral e = true :=
      List.forall_mem_cons.mpr ⟨rfl, List.forall_mem_cons.mpr ⟨rfl, List.forall_mem_singleton.mpr rfl⟩⟩
    have hcall := h.callback hl.1 _ _ _ hshow (.inl ⟨htail, rfl⟩) hd
    refine ⟨hcall.1.trans ?_, hcall.2⟩
    have hleave : afterMessage cb = [] ↔ cb.throws = true := by
      rw [afterMessage]
      cases cb.throws <;> simp
    rw [hleave]
    exact ⟨fun hc _ => hc, fun hc => hc hyes⟩

theorem step_errorable (h : Inv s) (hl : r ∈ s.poll) :
    (Once (s.OnErrorable r cb) ↔ Orderly s (.errorable r cb)) ∧
      (Once (s.OnErrorable r cb) → Inv (s.OnErrorable r cb)) := by
  have hpre : ∀ e ∈ [Event.touched], Event.neutral e = true := by decide
  have huses := (does_emit s r .touched).trans (does_uses r cb.uses _)
  rw [OnErrorable]
  cases ht : cb.throws with
  | true =>
    have hcall := h.callback hl [.touched] cb.uses [] hpre (.inl ⟨nofun, rfl⟩)
      (by simpa using huses)
    refine ⟨hcall.1.trans ⟨fun hc => ⟨hc.1, fun _ => ht⟩, fun hc => ⟨hc.1, fun _ => rfl⟩⟩, hcall.2⟩
  | false =>
    have hcall := h.callback hl [.touched] cb.uses ending hpre (.inr ⟨rfl, rfl⟩)
      (by simpa using huses.trans (does_disconnect _ r))
    refine ⟨hcall.1.trans ⟨fun hc => ⟨hc.1, fun hm => ?_⟩, fun hc => ⟨hc.1, fun hm => ?_⟩⟩, hcall.2⟩
    · cases hc.2 hm
    · have htrue := hc.2 hm
      rw [ht] at htrue
      cases htrue

/-- The server with a new record, for which `OnConnected` is called. -/
def accepted (s : TcpServer CacheSize) (cache : TcpChannelCache CacheSize) : TcpServer CacheSize :=
  { s with mem := s.mem.insert s.brk cache.reset, brk := s.brk + 1, poll := s.brk :: s.poll }.emit s.brk .connected

theorem accepted_does (s : TcpServer CacheSize) (cache : TcpChannelCache CacheSize) :
    Does { s with mem := s.mem.insert s.brk cache.reset, brk := s.brk + 1, poll := s.brk :: s.poll } (s.accepted cache)
      s.brk [.connected] false :=
  does_emit _ _ _

theorem accepted_find (h : Known s) (cache : TcpChannelCache CacheSize) :
    (s.accepted cache).mem.find s.brk = some cache.reset := by
  rw [accepted, emit, OrdMap.find_insert, (h.fresh s.brk (Nat.le_refl _)).2]
  rfl

theorem accepted_history (h : Known s) (cache : TcpChannelCache CacheSize) :
    (s.accepted cache).history s.brk = [.connected] :=
  (accepted_does s cache).history.trans (congrArg (· ++ _) (h.fresh s.brk (Nat.le_refl _)).1)

theorem known_accepted (h : Known s) (cache : TcpChannelCache CacheSize) : Known (s.accepted cache) where
  live := by
    intro x hm
    by_cases hx : x = s.brk
    · exact ⟨_, hx ▸ accepted_find h cache, TcpChannelCache.fits_reset _⟩
    · obtain ⟨c, hc, hf⟩ := h.live x ((List.mem_cons.mp hm).resolve_left hx)
      exact ⟨c, (OrdMap.find_insert_ne hx _).trans hc, hf⟩
  born := by
    intro x hm
    rcases List.mem_cons.mp hm with rfl | hm
    · exact Nat.lt_succ_self _
    · exact Nat.lt_succ_of_lt (h.born x hm)
  fresh := by
    intro x hx
    have hne : x ≠ s.brk := Nat.ne_of_gt hx
    rw [(accepted_does s cache).other x hne]
    obtain ⟨hxnil, hxnone⟩ := h.fresh x (Nat.le_of_lt hx)
    exact ⟨hxnil, (OrdMap.find_insert_ne hne _).trans hxnone⟩

theorem inv_accepted (h : Inv s) (cache : TcpChannelCache CacheSize) : Inv (s.accepted cache) where
  toKnown := known_accepted h.toKnown cache
  once := by
    intro x
    by_cases hx : x = s.brk
    · rw [hx, accepted_history h.toKnown]
      exact Open.toLifecycle ⟨by decide, by decide, by decide, by decide⟩
    · rw [(accepted_does s cache).other x hx]
      exact h.once x
  open_ := by
    intro x hm
    by_cases hx : x = s.brk
    · rw [hx, accepted_history h.toKnown]
      exact ⟨by decide, by decide, by decide, by decide⟩
    · rw [(accepted_does s cache).other x hx]
      exact h.open_ x ((List.mem_cons.mp hm).resolve_left hx)

/-- A record whose `Register` failed is closed and deleted at once. -/
theorem refused_history (h : Known s) (cache : TcpChannelCache CacheSize) (cb : HandlerCall) :
    (s.OnAcceptable cache false cb).history s.brk = [.closed, .deleted] ∧
      ∀ x, x ≠ s.brk → (s.OnAcceptable cache false cb).history x = s.history x := by
  have hd := (does_emit { s with mem := s.mem.insert s.brk cache.reset, brk := s.brk + 1 } s.brk .closed).trans
    (does_emit _ s.brk .deleted)
  exact ⟨hd.history.trans (congrArg (· ++ _) (h.fresh s.brk (Nat.le_refl _)).1), hd.other⟩

theorem refused_find (cache : TcpChannelCache CacheSize) (cb : HandlerCall) {x : ChannelRec} (hx : x ≠ s.brk) :
    (s.OnAcceptable cache false cb).mem.find x = s.mem.find x :=
  (OrdMap.find_erase_ne hx).trans (OrdMap.find_insert_ne hx _)

theorem known_refused (h : Known s) (cache : TcpChannelCache CacheSize) (cb : HandlerCall) :
    Known (s.OnAcceptable cache false cb) where
  live := by
    intro x hx
    rw [refused_find cache cb (Nat.ne_of_lt (h.born x hx))]
    exact h.live x hx
  born := fun x hx => Nat.lt_succ_of_lt (h.born x hx)
  fresh := by
    intro x hx
    have hne : x ≠ s.brk := Nat.ne_of_gt hx
    rw [(refused_history h cache cb).2 x hne, refused_find cache cb hne]
    exact h.fresh x (Nat.le_of_lt hx)

theorem inv_refused (h : Inv s) (cache : TcpChannelCache CacheSize) (cb : HandlerCall) :
    Inv (s.OnAcceptable cache false cb) where
  toKnown := known_refused h.toKnown cache cb
  once := by
    intro x
    obtain ⟨hself, hother⟩ := refused_history h.toKnown cache cb
    by_cases hx : x = s.brk
    · rw [hx, hself]
      refine ⟨by decide, by decide, by decide, by decide, fun pre post heq => ?_⟩
      have hlast : [Event.closed] ++ [.deleted] = pre ++ .deleted :: post := heq
      exact (append_last (by decide) hlast).2
    · rw [hother x hx]
      exact h.once x
  open_ := by
    intro x hx
    rw [(refused_history h.toKnown cache cb).2 x (Nat.ne_of_lt (h.born x hx))]
    exact h.open_ x hx

theorem step_accept (h : Inv s) (cache : TcpChannelCache CacheSize) (registered : Bool) (cb : HandlerCall) :
    (Once (s.OnAcceptable cache registered cb) ↔ Orderly s (.accept cache registered cb)) ∧
      (Once (s.OnAcceptable cache registered cb) → Inv (s.OnAcceptable cache registered cb)) := by
  cases registered with
  | false =>
    have hinv := inv_refused h cache cb
    exact ⟨iff_of_true hinv.once nofun, fun _ => hinv⟩
  | true =>
    have hinv := inv_accepted h cache
    have huses := does_uses s.brk cb.uses (s.accepted cache)
    have hd : Does (s.accepted cache) (s.OnAcceptable cache true cb) s.brk ([] ++ (cb.uses.flatMap useEvents ++ []))
        (decide (.disconnect ∈ cb.uses) || false) := by
      rw [List.append_nil, Bool.or_false]
      exact huses
    have hcall := hinv.callback List.mem_cons_self [] cb.uses [] nofun (.inl ⟨nofun, rfl⟩) hd
    exact ⟨hcall.1.trans ⟨fun hc _ => hc.1, fun hc => ⟨hc rfl, fun _ => rfl⟩⟩, hcall.2⟩

theorem step_orderly {l : Label CacheSize} (h : Inv s) (hl : enabled s l) :
    ∃ s', s.step l = some s' ∧ (Once s' ↔ Orderly s l) ∧ (Once s' → Inv s') := by
  cases l with
  | accept cache registered cb => exact ⟨_, rfl, step_accept h cache registered cb⟩
  | readable r recv cb => exact step_readable h hl
  | errorable r cb => exact ⟨_, rfl, step_errorable h hl⟩

theorem known_new : Known ({} : TcpServer CacheSize) := ⟨nofun, nofun, fun _ _ => ⟨rfl, rfl⟩⟩

theorem inv_inductive : ((server CacheSize).guard Orderly).Inductive Inv where
  init := by
    intro s hs
    cases hs
    refine ⟨known_new, fun _ => ?_, nofun⟩
    exact Open.toLifecycle ⟨Nat.zero_le _, List.not_mem_nil, List.not_mem_nil, List.not_mem_nil⟩
  step := by
    intro s l s' h hs
    obtain ⟨s₁, hs₁, hiff, hinv⟩ := step_orderly h hs.2.1
    obtain rfl := Option.some.inj (hs₁.symm.trans hs.2.2)
    exact hinv (hiff.mpr hs.1)

end SimpleSvr.L5.TcpServer
