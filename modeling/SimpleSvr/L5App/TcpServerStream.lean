import SimpleSvr.Core.Framing
import SimpleSvr.L5App.TcpServerLife

/-!
# No byte of an accepted channel is lost or repeated

What is in the cache of a record is what came in from the position on that the
calls of `OnMessage` which returned have read to; a call that throws reads
nothing. So a handler that cuts the stream into frames gets the same frames
however `recvmsg` has split it.
-/
namespace SimpleSvr.L5.TcpServer

variable {CacheSize : UInt32}

/-- The bytes that came in with an event. -/
def Event.chunk : Event → Bytes
  | .received chunk => chunk
  | _ => []

/-- The bytes that were read with it. -/
def Event.consumed : Event → Nat
  | .returned readPosition => readPosition.toNat
  | _ => 0

/-- The frames that are complete in what is shown. -/
def Event.frames (F : Framing) : Event → List Bytes
  | .message shown => (F.split shown).1
  | _ => []

def receivedOf (h : List Event) : Bytes := h.flatMap Event.chunk

def consumedOf (h : List Event) : Nat := (h.map Event.consumed).sum

/-- The frames that a handler sees. -/
def seen (F : Framing) (h : List Event) : List Bytes := h.flatMap (Event.frames F)

/-- The cache has what came in and was not read. -/
structure Conserved (h : List Event) (c : TcpChannelCache CacheSize) : Prop where
  fits : c.Fits
  consumed : consumedOf h ≤ (receivedOf h).length
  shown : c.shown = (receivedOf h).drop (consumedOf h)

/-- Each `OnMessage` is called for a chunk, and is shown what was not read before and the chunk. -/
def Messages (h : List Event) : Prop :=
  ∀ pre shown, pre ++ [.message shown] <+: h →
    ∃ old chunk, pre = old ++ [.received chunk] ∧ shown = (receivedOf old).drop (consumedOf old) ++ chunk

/-- What `OnMessage` is shown. -/
def handed (s : TcpServer CacheSize) (r : ChannelRec) : Recv → Option Bytes
  | .fail => none
  | .bytes chunk => do
    let c ← s.mem.find r
    let c ← c.receive chunk
    some c.shown

/-- The bytes that a step receives for `r`. -/
def incoming (s : TcpServer CacheSize) (r : ChannelRec) : Label CacheSize → Bytes
  | .readable r' (.bytes chunk) _ => if r' = r ∧ ShowsMessage s r (.bytes chunk) then chunk else []
  | _ => []

/-- `OnMessage` does not disconnect `r`. -/
def Gentle (r : ChannelRec) (s : TcpServer CacheSize) : Label CacheSize → Prop
  | .readable r' recv cb => r' = r → ShowsMessage s r recv → .disconnect ∉ cb.uses
  | _ => True

/-- `OnMessage` of `r` reads the complete frames of what it is shown. -/
def Framed (F : Framing) (r : ChannelRec) (s : TcpServer CacheSize) : Label CacheSize → Prop
  | .readable r' recv cb => r' = r → ShowsMessage s r recv → .disconnect ∉ cb.uses ∧ cb.throws = false ∧
    ∀ shown ∈ s.handed r recv, (F.split shown).2 = shown.drop cb.readPosition.toNat
  | _ => True

instance (r : ChannelRec) (s : TcpServer CacheSize) : (l : Label CacheSize) → Decidable (Gentle r s l)
  | .readable .. => inferInstanceAs (Decidable (_ → _ → _))
  | .accept .. | .errorable .. => inferInstanceAs (Decidable True)

instance (F : Framing) (r : ChannelRec) (s : TcpServer CacheSize) : (l : Label CacheSize) → Decidable (Framed F r s l)
  | .readable .. => inferInstanceAs (Decidable (_ → _ → _ ∧ _ ∧ ∀ _ ∈ _, _))
  | .accept .. | .errorable .. => inferInstanceAs (Decidable True)

/-! ## Histories -/

/-- Neither bytes nor a call of `OnMessage`. -/
def Event.quiet : Event → Bool
  | .received _ | .message _ | .returned _ => false
  | _ => true

variable {h es : List Event} {uses : List Use} {F : Framing}

theorem receivedOf_append (h es : List Event) : receivedOf (h ++ es) = receivedOf h ++ receivedOf es :=
  List.flatMap_append

theorem consumedOf_append (h es : List Event) : consumedOf (h ++ es) = consumedOf h + consumedOf es := by
  rw [consumedOf, List.map_append, List.sum_append]
  rfl

theorem seen_append (F : Framing) (h es : List Event) : seen F (h ++ es) = seen F h ++ seen F es :=
  List.flatMap_append

theorem receivedOf_quiet (hes : ∀ e ∈ es, Event.quiet e = true) : receivedOf es = [] := by
  apply List.flatMap_eq_nil_iff.mpr
  intro e he
  have hq := hes e he
  cases e <;> first | rfl | cases hq

theorem seen_quiet (hes : ∀ e ∈ es, Event.quiet e = true) : seen F es = [] := by
  apply List.flatMap_eq_nil_iff.mpr
  intro e he
  have hq := hes e he
  cases e <;> first | rfl | cases hq

theorem consumedOf_quiet (hes : ∀ e ∈ es, Event.quiet e = true) : consumedOf es = 0 := by
  apply List.sum_eq_zero_iff_forall_eq_nat.mpr
  intro n hn
  obtain ⟨e, he, rfl⟩ := List.mem_map.mp hn
  have hq := hes e he
  cases e <;> first | rfl | cases hq

theorem receivedOf_append_quiet (h : List Event) (hes : ∀ e ∈ es, Event.quiet e = true) :
    receivedOf (h ++ es) = receivedOf h := by
  rw [receivedOf_append, receivedOf_quiet hes, List.append_nil]

theorem consumedOf_append_quiet (h : List Event) (hes : ∀ e ∈ es, Event.quiet e = true) :
    consumedOf (h ++ es) = consumedOf h := by
  rw [consumedOf_append, consumedOf_quiet hes, Nat.add_zero]

theorem quiet_uses : ∀ e ∈ uses.flatMap useEvents, Event.quiet e = true := by
  intro e he
  obtain ⟨use, -, hmem⟩ := List.mem_flatMap.mp he
  cases use with
  | touch => exact List.mem_singleton.mp hmem ▸ rfl
  | disconnect =>
    have hall : ∀ e ∈ ending, Event.quiet e = true := by decide
    exact hall e hmem

/-- Events that are no calls of `OnMessage`. -/
theorem Messages.append (hm : Messages h) :
    ∀ (es : List Event), (∀ shown, .message shown ∉ es) → Messages (h ++ es) := by
  intro es
  induction es using List.reverseRecOn with
  | nil =>
    intro _
    rwa [List.append_nil]
  | append_singleton es e ih =>
    intro hno pre shown hpre
    rw [← List.append_assoc] at hpre
    rcases List.prefix_concat_iff.mp hpre with heq | hpre
    · have hlast := (List.append_inj' heq rfl).2
      exact absurd (List.mem_append_right es (hlast ▸ List.mem_cons_self)) (hno shown)
    · exact ih (fun shown hs => hno shown (List.mem_append_left _ hs)) pre shown hpre

/-- A chunk and its call. -/
theorem Messages.shows (hm : Messages h) (chunk : Bytes) :
    Messages (h ++ [.received chunk] ++ [.message ((receivedOf h).drop (consumedOf h) ++ chunk)]) := by
  intro pre shown hpre
  rcases List.prefix_concat_iff.mp hpre with heq | hpre
  · obtain ⟨rfl, hlast⟩ := List.append_inj' heq rfl
    cases hlast
    exact ⟨h, chunk, rfl, rfl⟩
  · have hno : ∀ shown, Event.message shown ∉ [Event.received chunk] := by
      intro shown hs
      cases List.mem_singleton.mp hs
    exact hm.append _ hno pre shown hpre

/-! ## What a step does to the stream -/

variable {s s' : TcpServer CacheSize} {r : ChannelRec} {c c' c₂ : TcpChannelCache CacheSize} {chunk : Bytes}
  {cb : HandlerCall}

/-- The events of an `OnReadable` that calls `OnMessage`. -/
def called (chunk shown : Bytes) (cb : HandlerCall) : List Event :=
  [.touched, .received chunk, .message shown] ++ (cb.uses.flatMap useEvents ++ afterMessage cb)

theorem receivedOf_called (chunk shown : Bytes) (cb : HandlerCall) : receivedOf (called chunk shown cb) = chunk := by
  have hafter : receivedOf (afterMessage cb) = [] := by
    rw [afterMessage]
    split <;> rfl
  rw [called, receivedOf_append, receivedOf_append, receivedOf_quiet quiet_uses, hafter]
  simp [receivedOf, Event.chunk]

theorem consumedOf_called (chunk shown : Bytes) (cb : HandlerCall) :
    consumedOf (called chunk shown cb) = HandlerCall.consumed cb := by
  have hafter : consumedOf (afterMessage cb) = HandlerCall.consumed cb := by
    rw [afterMessage, HandlerCall.consumed]
    split <;> rfl
  rw [called, consumedOf_append, consumedOf_append, consumedOf_quiet quiet_uses, hafter]
  simp [consumedOf, Event.consumed]

theorem seen_called (F : Framing) (chunk shown : Bytes) (cb : HandlerCall) :
    seen F (called chunk shown cb) = (F.split shown).1 := by
  have hafter : seen F (afterMessage cb) = [] := by
    rw [afterMessage]
    split <;> rfl
  rw [called, seen_append, seen_append, seen_quiet quiet_uses, hafter]
  simp [seen, Event.frames]

/-- What a step does to the stream of a record. -/
inductive Happens (r : ChannelRec) (s s' : TcpServer CacheSize) (l : Label CacheSize) : Prop where
  | idle (es : List Event) (hes : ∀ e ∈ es, Event.quiet e = true) (hist : s'.history r = s.history r ++ es)
    (hin : incoming s r l = []) (kept : r ∈ s'.poll → r ∈ s.poll ∧ s'.mem.find r = s.mem.find r)
  /-- the record is new -/
  | new (es : List Event) (hes : ∀ e ∈ es, Event.quiet e = true) (none : s.history r = []) (hist : s'.history r = es)
    (hin : incoming s r l = []) (empty : r ∈ s'.poll → ∃ c, s'.mem.find r = some c ∧ c.Fits ∧ c.shown = [])
  | message (chunk : Bytes) (cb : HandlerCall) (c c' : TcpChannelCache CacheSize)
    (hl : l = .readable r (.bytes chunk) cb) (hr : r ∈ s.poll) (hshows : ShowsMessage s r (.bytes chunk))
    (hc : s.mem.find r = some c)
    (hrec : c.receive chunk = some c') (shown : c'.shown = c.shown ++ chunk)
    (hpos : cb.readPosition.toNat ≤ c'.shown.length) (hist : s'.history r = s.history r ++ called chunk c'.shown cb)
    (keeps : .disconnect ∉ cb.uses → Keeps s' r (c'.shown.drop (HandlerCall.consumed cb)))

theorem incoming_else {r' : ChannelRec} {recv : Recv} (h : r = r' → ¬ShowsMessage s r recv) (cb : HandlerCall) :
    incoming s r (.readable r' recv cb) = [] := by
  cases recv with
  | fail => rfl
  | bytes chunk => exact if_neg fun hm => h hm.1.symm hm.2

theorem Does.elsewhere {r' : ChannelRec} {l : Label CacheSize} {dies : Bool} (hd : Does s s' r' es dies) (hr : r ≠ r')
    (hin : incoming s r l = []) : Happens r s s' l := by
  apply Happens.idle [] nofun
  · rw [List.append_nil]
    exact hd.other r hr
  · exact hin
  · exact fun hm => ⟨(hd.polled hm).1, hd.mem r hr⟩

theorem happens_accept (h : Known s) (cache : TcpChannelCache CacheSize) (registered : Bool) (cb : HandlerCall)
    (r : ChannelRec) : Happens r s (s.OnAcceptable cache registered cb) (.accept cache registered cb) := by
  have hfresh := h.fresh s.brk (Nat.le_refl _)
  cases registered with
  | false =>
    obtain ⟨hself, hother⟩ := refused_history h cache cb
    by_cases hr : r = s.brk
    · apply Happens.new [.closed, .deleted] (by decide)
      · exact hr ▸ hfresh.1
      · exact hr ▸ hself
      · rfl
      · intro hm
        exact absurd (h.born r hm) (hr ▸ Nat.lt_irrefl _)
    · apply Happens.idle [] nofun
      · rw [List.append_nil]
        exact hother r hr
      · rfl
      · exact fun hm => ⟨hm, refused_find cache cb hr⟩
  | true =>
    have hd := does_uses s.brk cb.uses (s.accepted cache)
    by_cases hr : r = s.brk
    · subst hr
      have hquiet : ∀ e ∈ .connected :: cb.uses.flatMap useEvents, Event.quiet e = true :=
        List.forall_mem_cons.mpr ⟨rfl, quiet_uses⟩
      apply Happens.new _ hquiet hfresh.1
      · exact hd.history.trans (congrArg (· ++ _) (accepted_history h cache))
      · rfl
      · intro hm
        have hno : .disconnect ∉ cb.uses := of_decide_eq_false ((hd.polled hm).2 rfl)
        have hfind : (s.OnAcceptable cache true cb).mem.find s.brk = some cache.reset :=
          (congrArg (OrdMap.find · s.brk) (runUses_mem s.brk cb.uses _ hno)).trans (accepted_find h cache)
        exact ⟨_, hfind, TcpChannelCache.fits_reset _, TcpChannelCache.shown_reset _⟩
    · apply Happens.idle [] nofun
      · rw [List.append_nil]
        exact (hd.other r hr).trans ((accepted_does s cache).other r hr)
      · rfl
      · intro hm
        exact ⟨(List.mem_cons.mp (hd.polled hm).1).resolve_left hr, (hd.mem r hr).trans (OrdMap.find_insert_ne hr _)⟩

theorem happens_readable (h : Known s) {recv : Recv} (hl : enabled s (.readable r recv cb)) :
    ∃ s', s.OnReadable r recv cb = some s' ∧ Known s' ∧ ∀ x, Happens x s s' (.readable r recv cb) := by
  obtain ⟨c, hc, hf⟩ := h.live r hl.1
  obtain ⟨s', hs', hcase⟩ := OnReadable_cases hc hf hl.2
  refine ⟨s', hs', ?_⟩
  have helse : ∀ {x}, x ≠ r → incoming s x (.readable r recv cb) = [] := fun hx => incoming_else (absurd · hx) cb
  rcases hcase with ⟨hno, hd, hmem⟩ | ⟨hno, hd⟩ | ⟨chunk, c', rfl, hshows, hrec, hshown, hpos, hd, hkeeps⟩
  · refine ⟨h.does hd hl.1, fun x => ?_⟩
    by_cases hx : x = r
    · subst hx
      apply Happens.idle _ (by decide) hd.history (incoming_else (fun _ => hno) cb)
      intro hm
      exact ⟨hl.1, hmem ▸ rfl⟩
    · exact hd.elsewhere hx (helse hx)
  · refine ⟨h.does hd hl.1, fun x => ?_⟩
    by_cases hx : x = r
    · subst hx
      apply Happens.idle _ (by decide) hd.history (incoming_else (fun _ => hno) cb)
      intro hm
      cases (hd.polled hm).2 rfl
    · exact hd.elsewhere hx (helse hx)
  · refine ⟨h.does hd hl.1, fun x => ?_⟩
    by_cases hx : x = r
    · subst hx
      exact .message chunk cb c c' rfl hl.1 hshows hc hrec hshown hpos hd.history hkeeps
    · exact hd.elsewhere hx (helse hx)

theorem happens_errorable (h : Known s) (hl : r ∈ s.poll) (cb : HandlerCall) :
    Known (s.OnErrorable r cb) ∧ ∀ x, Happens x s (s.OnErrorable r cb) (.errorable r cb) := by
  have huses := (does_emit s r .touched).trans (does_uses r cb.uses _)
  have hend := huses.trans (does_disconnect _ r)
  have hquiet : ∀ e ∈ [.touched] ++ cb.uses.flatMap useEvents, Event.quiet e = true :=
    List.forall_mem_append.mpr ⟨by decide, quiet_uses⟩
  rw [OnErrorable]
  cases cb.throws with
  | true =>
    refine ⟨h.does huses hl, fun x => ?_⟩
    by_cases hx : x = r
    · subst hx
      apply Happens.idle _ hquiet huses.history rfl
      intro hm
      have hno : .disconnect ∉ cb.uses := of_decide_eq_false ((huses.polled hm).2 rfl)
      exact ⟨hl, congrArg (OrdMap.find · x) (runUses_mem x cb.uses _ hno)⟩
    · exact huses.elsewhere hx rfl
  | false =>
    refine ⟨h.does hend hl, fun x => ?_⟩
    by_cases hx : x = r
    · subst hx
      have hall : ∀ e ∈ [.touched] ++ cb.uses.flatMap useEvents ++ ending, Event.quiet e = true :=
        List.forall_mem_append.mpr ⟨hquiet, by decide⟩
      apply Happens.idle _ hall hend.history rfl
      intro hm
      cases (Bool.or_eq_false_iff.mp ((hend.polled hm).2 rfl)).2
    · exact hend.elsewhere hx rfl

/-- Exactly what a step receives is in the history. -/
theorem Happens.received {l : Label CacheSize} (h : Happens r s s' l) :
    receivedOf (s'.history r) = receivedOf (s.history r) ++ incoming s r l := by
  cases h with
  | idle es hes hist hin kept => rw [hist, receivedOf_append_quiet _ hes, hin, List.append_nil]
  | new es hes none hist hin empty => rw [hist, receivedOf_quiet hes, hin, none]; rfl
  | message chunk cb c c' hl hr hshows hc hrec shown hpos hist keeps =>
    have hin : incoming s r l = chunk := by
      rw [hl]
      exact if_pos ⟨rfl, hshows⟩
    rw [hist, receivedOf_append, receivedOf_called, hin]

theorem step_happens {l : Label CacheSize} (h : Known s) (hl : enabled s l) :
    ∃ s', s.step l = some s' ∧ Known s' ∧ ∀ r, Happens r s s' l := by
  cases l with
  | accept cache registered cb =>
    refine ⟨_, rfl, ?_, happens_accept h cache registered cb⟩
    cases registered with
    | false => exact known_refused h cache cb
    | true => exact (known_accepted h cache).does (does_uses s.brk cb.uses _) List.mem_cons_self
  | readable r recv cb => exact happens_readable h hl
  | errorable r cb => exact ⟨_, rfl, happens_errorable h hl cb⟩

/-! ## The invariants -/

theorem consumed_le (hpos : cb.readPosition.toNat ≤ c.shown.length) : HandlerCall.consumed cb ≤ c.shown.length := by
  rw [HandlerCall.consumed]
  split
  · exact Nat.zero_le _
  · exact hpos

theorem Conserved.quiet (hc : Conserved h c) (hes : ∀ e ∈ es, Event.quiet e = true) : Conserved (h ++ es) c where
  fits := hc.fits
  consumed := by
    rw [receivedOf_append_quiet h hes, consumedOf_append_quiet h hes]
    exact hc.consumed
  shown := by
    rw [receivedOf_append_quiet h hes, consumedOf_append_quiet h hes]
    exact hc.shown

/-- A chunk comes in behind what is left over, and the handler reads from the front. -/
theorem Conserved.called (hc : Conserved h c) (hshown : c'.shown = c.shown ++ chunk)
    (hpos : cb.readPosition.toNat ≤ c'.shown.length) (hf : c₂.Fits)
    (hleft : c₂.shown = c'.shown.drop (HandlerCall.consumed cb)) : Conserved (h ++ called chunk c'.shown cb) c₂ := by
  have hrec : receivedOf (h ++ TcpServer.called chunk c'.shown cb) = receivedOf h ++ chunk := by
    rw [receivedOf_append, receivedOf_called]
  have hcons : consumedOf (h ++ TcpServer.called chunk c'.shown cb) = consumedOf h + HandlerCall.consumed cb := by
    rw [consumedOf_append, consumedOf_called]
  have hall : c'.shown = (receivedOf h ++ chunk).drop (consumedOf h) := by
    rw [hshown, hc.shown, List.drop_append_of_le_length hc.consumed]
  refine ⟨hf, ?_, ?_⟩
  · have hle := consumed_le hpos
    have hold := hc.consumed
    rw [hall, List.length_drop] at hle
    rw [hrec, hcons]
    rw [List.length_append] at hle ⊢
    omega
  · rw [hrec, hcons, hleft, hall, List.drop_drop]

theorem Messages.called (hm : Messages h) (hshown : c'.shown = (receivedOf h).drop (consumedOf h) ++ chunk) :
    Messages (h ++ called chunk c'.shown cb) := by
  have htouch : ∀ shown, Event.message shown ∉ [Event.touched] := by
    intro shown hs
    cases List.mem_singleton.mp hs
  have hquiet : ∀ e ∈ [Event.touched], Event.quiet e = true := by decide
  have hshows := (hm.append _ htouch).shows chunk
  rw [receivedOf_append_quiet h hquiet, consumedOf_append_quiet h hquiet, ← hshown] at hshows
  have hafter : ∀ shown, Event.message shown ∉ cb.uses.flatMap useEvents ++ afterMessage cb := by
    intro shown hs
    rcases List.mem_append.mp hs with hs | hs
    · cases quiet_uses _ hs
    · rw [afterMessage] at hs
      split at hs
      · cases hs
      · cases List.mem_singleton.mp hs
  have hall := hshows.append _ hafter
  simp only [List.append_assoc] at hall
  exact hall

structure Streamed (r : ChannelRec) (s : TcpServer CacheSize) : Prop extends Known s where
  messages : Messages (s.history r)
  cache : r ∈ s.poll → ∃ c, s.mem.find r = some c ∧ Conserved (s.history r) c

theorem no_messages (hes : ∀ e ∈ es, Event.quiet e = true) (shown : Bytes) : .message shown ∉ es := by
  intro hm
  cases hes _ hm

theorem messages_nil : Messages [] := by
  intro pre shown hpre
  have hlen := hpre.length_le
  rw [List.length_append] at hlen
  cases hlen

theorem conserved_nil (hf : c.Fits) (hshown : c.shown = []) : Conserved [] c := ⟨hf, Nat.le_refl _, hshown⟩

theorem Streamed.step {l : Label CacheSize} (h : Streamed r s) (hk : Known s') (hh : Happens r s s' l)
    (hg : Gentle r s l) : Streamed r s' := by
  cases hh with
  | idle es hes hist hin kept =>
    refine ⟨hk, ?_, fun hm => ?_⟩
    · rw [hist]
      exact h.messages.append es (no_messages hes)
    · obtain ⟨hr, hfind⟩ := kept hm
      obtain ⟨c, hc, hcons⟩ := h.cache hr
      exact ⟨c, hfind.trans hc, hist ▸ hcons.quiet hes⟩
  | new es hes none hist hin empty =>
    refine ⟨hk, ?_, fun hm => ?_⟩
    · rw [hist]
      exact messages_nil.append es (no_messages hes)
    · obtain ⟨c, hc, hf, hshown⟩ := empty hm
      exact ⟨c, hc, hist ▸ (conserved_nil hf hshown).quiet hes⟩
  | message chunk cb c c' hl hr hshows hc hrec shown hpos hist keeps =>
    subst hl
    obtain ⟨c₁, hc₁, hcons⟩ := h.cache hr
    obtain rfl := Option.some.inj (hc.symm.trans hc₁)
    refine ⟨hk, ?_, fun _ => ?_⟩
    · rw [hist]
      exact h.messages.called (hcons.shown ▸ shown)
    · obtain ⟨c₂, hc₂, hf₂, hleft⟩ := keeps (hg rfl hshows)
      exact ⟨c₂, hc₂, hist ▸ hcons.called shown hpos hf₂ hleft⟩

theorem streamed_new : Streamed r ({} : TcpServer CacheSize) := ⟨known_new, messages_nil, nofun⟩

theorem streamed_inductive (r : ChannelRec) : ((server CacheSize).guard (Gentle r)).Inductive (Streamed r) where
  init := by
    intro s hs
    cases hs
    exact streamed_new
  step := by
    intro s l s' h hs
    obtain ⟨s₁, hs₁, hk, hh⟩ := step_happens h.toKnown hs.2.1
    obtain rfl := Option.some.inj (hs₁.symm.trans hs.2.2)
    exact h.step hk (hh r) hs.1

/-- The handler has seen the frames of all that came in, and the cache has the incomplete tail. -/
structure Cuts (F : Framing) (r : ChannelRec) (s : TcpServer CacheSize) : Prop extends Known s where
  seen : seen F (s.history r) = (F.split (receivedOf (s.history r))).1
  tail : r ∈ s.poll → ∃ c, s.mem.find r = some c ∧ c.shown = (F.split (receivedOf (s.history r))).2

theorem Cuts.step {l : Label CacheSize} (h : Cuts F r s) (hk : Known s') (hh : Happens r s s' l) (hg : Framed F r s l) :
    Cuts F r s' := by
  cases hh with
  | idle es hes hist hin kept =>
    have hrec : receivedOf (s'.history r) = receivedOf (s.history r) := by
      rw [hist, receivedOf_append_quiet _ hes]
    refine ⟨hk, ?_, fun hm => ?_⟩
    · rw [hrec, ← h.seen, hist, seen_append, seen_quiet hes, List.append_nil]
    · obtain ⟨hr, hfind⟩ := kept hm
      rw [hrec, hfind]
      exact h.tail hr
  | new es hes none hist hin empty =>
    refine ⟨hk, ?_, fun hm => ?_⟩
    · rw [hist, seen_quiet hes, receivedOf_quiet hes]
      rfl
    · obtain ⟨c, hc, -, hshown⟩ := empty hm
      refine ⟨c, hc, ?_⟩
      rw [hshown, hist, receivedOf_quiet hes]
      rfl
  | message chunk cb c c' hl hr hshows hc hrec shown hpos hist keeps =>
    subst hl
    obtain ⟨c₁, hc₁, htail⟩ := h.tail hr
    obtain rfl := Option.some.inj (hc.symm.trans hc₁)
    obtain ⟨hno, hthrows, hread⟩ := hg rfl hshows
    have hhanded : s.handed r (.bytes chunk) = some c'.shown := by
      simp only [handed, hc, hrec, bind, Option.bind]
    have hall : F.split (receivedOf (s'.history r)) =
        ((F.split (receivedOf (s.history r))).1 ++ (F.split c'.shown).1, (F.split c'.shown).2) := by
      rw [hist, receivedOf_append, receivedOf_called, Framing.split_append, ← htail, ← shown]
    refine ⟨hk, ?_, fun _ => ?_⟩
    · rw [hall, ← h.seen, hist, seen_append, seen_called]
    · obtain ⟨c₂, hc₂, -, hleft⟩ := keeps hno
      refine ⟨c₂, hc₂, ?_⟩
      rw [hall, hleft, hread _ hhanded, HandlerCall.consumed, hthrows]
      rfl

theorem cuts_inductive (F : Framing) (r : ChannelRec) :
    ((server CacheSize).guard (Framed F r)).Inductive (Cuts F r) where
  init := by
    intro s hs
    cases hs
    exact ⟨known_new, rfl, nofun⟩
  step := by
    intro s l s' h hs
    obtain ⟨s₁, hs₁, hk, hh⟩ := step_happens h.toKnown hs.2.1
    obtain rfl := Option.some.inj (hs₁.symm.trans hs.2.2)
    exact h.step hk (hh r) hs.1

/-! ## Runs -/

/-- While `OnMessage` does not disconnect, each call is shown what came in and was not read, the cache has
this, no access is outside it, and what came in is what `recvmsg` delivered. And wherever `OnMessage` reads
the complete frames, it sees the same frames of the same bytes. -/
theorem stream_conserved (CacheSize : UInt32) :
    (∀ (r : ChannelRec) (s : TcpServer CacheSize), ((server CacheSize).guard (Gentle r)).Reachable s →
      Messages (s.history r) ∧ (r ∈ s.poll → ∃ c, s.mem.find r = some c ∧ Conserved (s.history r) c) ∧
      ∀ l, enabled s l → ∃ s', (server CacheSize).step s l s' ∧
        receivedOf (s'.history r) = receivedOf (s.history r) ++ incoming s r l) ∧
    ∀ (F : Framing) (r₁ r₂ : ChannelRec) (s₁ s₂ : TcpServer CacheSize),
      ((server CacheSize).guard (Framed F r₁)).Reachable s₁ → ((server CacheSize).guard (Framed F r₂)).Reachable s₂ →
      receivedOf (s₁.history r₁) = receivedOf (s₂.history r₂) → seen F (s₁.history r₁) = seen F (s₂.history r₂) := by
  constructor
  · intro r s hr
    have h := (streamed_inductive r).reachable s hr
    refine ⟨h.messages, h.cache, fun l hl => ?_⟩
    obtain ⟨s', hs', -, hh⟩ := step_happens h.toKnown hl
    exact ⟨s', ⟨hl, hs'⟩, (hh r).received⟩
  · intro F r₁ r₂ s₁ s₂ hr₁ hr₂ heq
    have h₁ := (cuts_inductive F r₁).reachable s₁ hr₁
    have h₂ := (cuts_inductive F r₂).reachable s₂ hr₂
    rw [h₁.seen, h₂.seen, heq]

/-- Frames of two bytes. -/
def pairs : Framing where
  frame b := if 2 ≤ b.length then some 2 else none
  bounds := by
    intro b n hf
    split at hf
    · next hlen =>
      cases hf
      exact ⟨by decide, hlen⟩
    · cases hf
  extend := by
    intro b c n hf
    split at hf
    · next hlen =>
      rw [List.length_append, if_pos (Nat.le_add_right_of_le hlen)]
      exact hf
    · cases hf

/-- Two chunks on one channel. -/
def chunkCalls (chunk₁ chunk₂ : Bytes) (cb₁ cb₂ : HandlerCall) : List (Label 4) :=
  [.accept .fourBytes true {}, .readable 0 (.bytes chunk₁) cb₁, .readable 0 (.bytes chunk₂) cb₂]

theorem chunk_run {P : TcpServer 4 → Label 4 → Prop} [∀ s l, Decidable (P s l)] {ls : List (Label 4)} {h : List Event}
    (hrun : (ls.foldlM (LTS.checked (fun s l => P s l ∧ enabled s l) step) {}).map (fun s => s.history 0) = some h) :
    ∃ s, ((server 4).guard P).Reachable s ∧ s.history 0 = h := by
  obtain ⟨s, hs, hh⟩ := Option.map_eq_some_iff.mp hrun
  exact ⟨s, LTS.Reachable.checked_guard (fun _ _ _ => And.intro) _ (.init rfl) hs, hh⟩

/-- A handler that throws is shown the bytes again; and the second byte comes with the first, or with the third. -/
theorem stream_conserved_pairs :
    (∃ s, ((server 4).guard (Gentle 0)).Reachable s ∧ .message [1, 2, 3] ∈ s.history 0 ∧ Messages (s.history 0)) ∧
      ∃ s₁ s₂, ((server 4).guard (Framed pairs 0)).Reachable s₁ ∧ ((server 4).guard (Framed pairs 0)).Reachable s₂ ∧
        s₁.history 0 ≠ s₂.history 0 ∧ seen pairs (s₁.history 0) = [[1, 2]] ∧
        seen pairs (s₁.history 0) = seen pairs (s₂.history 0) := by
  constructor
  · obtain ⟨s, hr, hh⟩ := @chunk_run (Gentle 0) _ (chunkCalls [1, 2] [3] { throws := true } {})
      [.connected, .touched, .received [1, 2], .message [1, 2], .touched, .received [3], .message [1, 2, 3],
        .returned 0] (by decide)
    exact ⟨s, hr, by rw [hh]; decide, ((stream_conserved 4).1 0 s hr).1⟩
  · obtain ⟨s₁, hr₁, hh₁⟩ := @chunk_run (Framed pairs 0) _ (chunkCalls [1, 2] [3] { readPosition := 2 } {})
      [.connected, .touched, .received [1, 2], .message [1, 2], .returned 2, .touched, .received [3], .message [3],
        .returned 0] (by decide)
    obtain ⟨s₂, hr₂, hh₂⟩ := @chunk_run (Framed pairs 0) _ (chunkCalls [1] [2, 3] {} { readPosition := 2 })
      [.connected, .touched, .received [1], .message [1], .returned 0, .touched, .received [2, 3],
        .message [1, 2, 3], .returned 2] (by decide)
    refine ⟨s₁, s₂, hr₁, hr₂, by rw [hh₁, hh₂]; decide, by rw [hh₁]; decide, ?_⟩
    exact (stream_conserved 4).2 pairs 0 0 s₁ s₂ hr₁ hr₂ (by rw [hh₁, hh₂]; decide)

end SimpleSvr.L5.TcpServer
