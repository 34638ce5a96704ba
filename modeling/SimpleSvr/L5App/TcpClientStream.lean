import SimpleSvr.L5App.TcpClient

/-!
# No bytes cross connections

`OnReadable` sets the length of the cache after `OnMessage` returned, also when
the handler has reconnected. `Drained` excludes that something is left over
then; in a run of such steps each `OnMessage` is shown what came in on its
connection and was not read yet (`stream_run`).
-/
namespace SimpleSvr.L5.TcpClient

variable {CacheSize : UInt32}

/-- Every `OnMessage` was shown the bytes of its connection that were not read. -/
def Shown (u : Run CacheSize) : Prop := ∀ m ∈ u.messages, m.1 = m.2

def Frame.drained (u : Run CacheSize) (readPosition : UInt64) : Frame → Prop
  | .message readSize conn => conn ≠ u.conn → u.established = true → readPosition = readSize
  | _ => True

/-- A handler that returns on another connection than it was called for has read all. -/
def Drained (u : Run CacheSize) : Label → Prop
  | .ret readPosition _ _ => ∀ f ∈ u.stack.head?, Frame.drained u readPosition f
  | _ => True

instance (u : Run CacheSize) (readPosition : UInt64) : (f : Frame) → Decidable (Frame.drained u readPosition f)
  | .message .. => inferInstanceAs (Decidable (_ → _ → _))
  | .register | .update | .disconnect | .close _ => inferInstanceAs (Decidable True)

instance (u : Run CacheSize) : (l : Label) → Decidable (Drained u l)
  | .ret .. => inferInstanceAs (Decidable (∀ _ ∈ _, _))
  | .connect .. | .connectTimeout .. | .close | .disconnect | .reconnect | .writeable _ | .readable _ | .errorable
  | .timeout _ | .throw | .otherSet _ | .otherDrop _ => inferInstanceAs (Decidable True)

/-! ## The invariant -/

/-- The call of `OnMessage` on the stack, by what it was shown. -/
structure Called (u : Run CacheSize) (readSize : UInt64) (conn : Nat) : Prop where
  fits : readSize.toNat ≤ CacheSize.toNat
  le : conn ≤ u.conn
  same : conn = u.conn → readSize = u.client.Data.dwCacheAvailableSize.toUInt64
  other : conn ≠ u.conn → u.established = true → u.received = []

structure Stream (u : Run CacheSize) : Prop where
  fits : u.client.Data.Fits
  messages : Shown u
  left : u.established = true →
    u.consumed ≤ u.received.length ∧ u.client.Data.shown = u.received.drop u.consumed
  called : ∀ readSize conn, .message readSize conn ∈ u.stack → Called u readSize conn
  /-- only the outermost function is `OnReadable` -/
  bottom : ∀ readSize conn, .message readSize conn ∉ u.stack.dropLast

variable {u u' u₁ : Run CacheSize} {fd : Option Nat} {ok : Bool} {f : Frame} {rest : List Frame}

/-- A step that receives nothing: it may close the socket and change the stack above `OnReadable`. -/
theorem Stream.same (h : Stream u) (hdata : u'.client.Data = u.client.Data) (hconn : u'.conn = u.conn)
    (hest : u'.established = true → u.established = true) (hrec : u'.received = u.received)
    (hcons : u'.consumed = u.consumed) (hmsg : u'.messages = u.messages)
    (hstack : ∀ readSize conn, .message readSize conn ∈ u'.stack → .message readSize conn ∈ u.stack)
    (hbottom : ∀ readSize conn, .message readSize conn ∉ u'.stack.dropLast) : Stream u' where
  fits := hdata ▸ h.fits
  messages := by
    rw [Shown, hmsg]
    exact h.messages
  left := by
    rw [hdata, hrec, hcons]
    exact fun he => h.left (hest he)
  called := by
    intro readSize conn hm
    obtain ⟨hfits, hle, hsame, hother⟩ := h.called readSize conn (hstack readSize conn hm)
    refine ⟨hfits, hconn ▸ hle, fun hc => ?_, fun hc he => ?_⟩
    · rw [hdata]
      exact hsame (hc.trans hconn)
    · rw [hrec]
      exact hother (fun heq => hc (heq.trans hconn.symm)) (hest he)
  bottom := hbottom

/-- A function that is no `OnReadable` calls its callback. -/
theorem Stream.push (h : Stream u) (hf : ∀ readSize conn, f ≠ .message readSize conn) (readSize : UInt64) (conn : Nat) :
    (.message readSize conn ∈ f :: u.stack → .message readSize conn ∈ u.stack) ∧
      .message readSize conn ∉ (f :: u.stack).dropLast := by
  have hne : Frame.message readSize conn ≠ f := fun heq => hf readSize conn heq.symm
  refine ⟨fun hm => (List.mem_cons.mp hm).resolve_left hne, ?_⟩
  cases hst : u.stack with
  | nil => exact List.not_mem_nil
  | cons g rest =>
    rw [List.dropLast_cons_cons, List.mem_cons, or_iff_right hne, ← hst]
    exact h.bottom readSize conn

theorem Stream.pop (h : Stream u) (readSize : UInt64) (conn : Nat) :
    (.message readSize conn ∈ u.stack.tail → .message readSize conn ∈ u.stack) ∧
      .message readSize conn ∉ u.stack.tail.dropLast := by
  refine ⟨List.mem_of_mem_tail, fun hm => h.bottom readSize conn ?_⟩
  cases hst : u.stack with
  | nil =>
    rw [hst] at hm
    cases hm
  | cons g rest =>
    rw [hst, List.tail_cons] at hm
    cases rest with
    | nil => cases hm
    | cons f rest => exact List.mem_cons_of_mem _ hm

/-- The parts of a step that calls another callback. -/
theorem Stream.pushed (h : Stream u) (hf : ∀ readSize conn, f ≠ .message readSize conn)
    (hdata : u'.client.Data = u.client.Data) (hconn : u'.conn = u.conn)
    (hest : u'.established = true → u.established = true) (hrec : u'.received = u.received)
    (hcons : u'.consumed = u.consumed) (hmsg : u'.messages = u.messages) (hst : u'.stack = f :: u.stack) :
    Stream u' := by
  apply h.same hdata hconn hest hrec hcons hmsg
  · intro readSize conn hm
    exact (h.push hf readSize conn).1 (hst ▸ hm)
  · intro readSize conn hm
    exact (h.push hf readSize conn).2 (hst ▸ hm)

/-- A step that leaves the stack. -/
theorem Stream.kept (h : Stream u) (hdata : u'.client.Data = u.client.Data) (hconn : u'.conn = u.conn)
    (hest : u'.established = true → u.established = true) (hrec : u'.received = u.received)
    (hcons : u'.consumed = u.consumed) (hmsg : u'.messages = u.messages) (hst : u'.stack = u.stack) :
    Stream u' := by
  apply h.same hdata hconn hest hrec hcons hmsg
  · intro readSize conn hm
    exact hst ▸ hm
  · intro readSize conn hm
    exact h.bottom readSize conn (hst ▸ hm)

theorem stream_openSocket (h : Stream u) (hs : u.openSocket fd = some u₁) : Stream u₁ := by
  rw [Run.openSocket] at hs
  split at hs
  · cases hs
    exact h
  · obtain ⟨fd, -, rfl⟩ := Option.map_eq_some_iff.mp hs
    exact h.kept rfl rfl id rfl rfl rfl rfl

/-- On a new connection nothing came in yet. -/
theorem stream_establish (h : Stream u) : Stream u.establish where
  fits := TcpChannelCache.fits_reset _
  messages := h.messages
  left := fun _ => ⟨Nat.le_refl _, TcpChannelCache.shown_reset _⟩
  called := by
    intro readSize conn hm
    obtain ⟨hfits, hle, -, -⟩ := h.called readSize conn hm
    refine ⟨hfits, Nat.le_succ_of_le hle, fun hc => ?_, fun _ _ => rfl⟩
    exact absurd hc (Nat.ne_of_lt (Nat.lt_succ_of_le hle))
  bottom := h.bottom

theorem stream_connect (h : Stream u) (fd : Option Nat) (ok : Bool) : Stream (u.connect fd ok) := by
  rw [Run.connect]
  cases hs : u.openSocket fd with
  | none => exact h
  | some u₁ =>
    have h₁ := stream_openSocket h hs
    cases ok with
    | false => exact h₁
    | true => exact (stream_establish h₁).pushed (f := .register) (fun _ _ => nofun) rfl rfl id rfl rfl rfl rfl

theorem stream_connectTimeout (h : Stream u) (fd : Option Nat) (ok : Bool) (timerId : UInt32) :
    Stream (u.connectTimeout fd ok timerId) := by
  rw [Run.connectTimeout]
  cases hs : u.openSocket fd with
  | none => exact h
  | some u₁ =>
    have h₁ := stream_openSocket h hs
    cases ok with
    | false => exact h₁
    | true => exact (stream_establish h₁).kept rfl rfl id rfl rfl rfl rfl

theorem stream_close (h : Stream u) : Stream u.close := h.kept rfl rfl nofun rfl rfl rfl rfl

theorem stream_disconnect (h : Stream u) (reconnect : Bool) : Stream (u.disconnect reconnect) := by
  rw [Run.disconnect, Run.clearTimer]
  split
  · exact h.pushed (f := .close reconnect) (fun _ _ => nofun) rfl rfl id rfl rfl rfl rfl
  · exact h.pushed (f := .close reconnect) (fun _ _ => nofun) rfl rfl id rfl rfl rfl rfl

theorem stream_onWriteable (h : Stream u) (ok : Bool) : Stream (u.onWriteable ok) := by
  cases ok with
  | false => exact h.pushed (f := .disconnect) (fun _ _ => nofun) rfl rfl id rfl rfl rfl rfl
  | true => exact h.pushed (f := .update) (fun _ _ => nofun) rfl rfl id rfl rfl rfl rfl

/-- The run after `OnMessage` was called with the cache `c`. -/
def Run.shown (u : Run CacheSize) (c : TcpChannelCache CacheSize) (chunk : Bytes) : Run CacheSize :=
  { u with
    client := { u.client with Data := c }
    received := u.received ++ chunk
    messages := u.messages ++ [(c.shown, (u.received ++ chunk).drop u.consumed)]
    stack := .message c.message.availableReadSize u.conn :: u.stack }

/-- The cases of `OnReadable`. -/
theorem onReadable_cases {recv : Recv} (hs : u.onReadable recv = some u') :
    u' = u ∨ u' = u.disconnect false ∨ ∃ chunk c, recv = .bytes chunk ∧ chunk ≠ [] ∧
      u.client.Data.receive chunk = some c ∧ u' = u.shown c chunk := by
  unfold Run.onReadable at hs
  split at hs
  · cases hs
    exact .inr (.inl rfl)
  · split at hs
    · cases hs
      exact .inl rfl
    · cases hs
      exact .inr (.inl rfl)
    · next chunk hne =>
      obtain ⟨c, hc, hs⟩ := Option.bind_eq_some_iff.mp hs
      cases hs
      exact .inr (.inr ⟨chunk, c, rfl, hne, hc, rfl⟩)

theorem stream_shown {chunk : Bytes} {c : TcpChannelCache CacheSize} (h : Stream u) (hst : u.stack = [])
    (hest : u.established = true) (hroom : (chunk.length : Int) ≤ u.client.Data.dwRemainSize)
    (hc : u.client.Data.receive chunk = some c) : Stream (u.shown c chunk) := by
  obtain ⟨c', hc', hfits, hshown⟩ := TcpChannelCache.receive_spec h.fits hroom
  obtain rfl := Option.some.inj (hc'.symm.trans hc)
  obtain ⟨hcons, hleft⟩ := h.left hest
  have hexp : c'.shown = (u.received ++ chunk).drop u.consumed := by
    rw [hshown, hleft, List.drop_append_of_le_length hcons]
  constructor
  · exact hfits
  · intro m hm
    rcases List.mem_append.mp hm with hm | hm
    · exact h.messages m hm
    · rw [List.mem_singleton.mp hm]
      exact hexp
  · refine fun _ => ⟨Nat.le_trans hcons ?_, hexp⟩
    exact (List.prefix_append u.received chunk).length_le
  · intro readSize conn hm
    rw [Run.shown, hst] at hm
    cases List.mem_singleton.mp hm
    refine ⟨?_, Nat.le_refl _, fun _ => rfl, fun hne => absurd rfl hne⟩
    exact Nat.le_trans (Nat.le_of_eq (UInt32.toNat_toUInt64 _)) hfits
  · intro readSize conn hm
    rw [Run.shown, hst] at hm
    cases hm

/-- The run after `OnMessage` returned. -/
def Run.left (u : Run CacheSize) (c : TcpChannelCache CacheSize) (conn : Nat) (readPosition : UInt64) : Run CacheSize :=
  { u with
    client := { u.client with Data := c }
    consumed := if conn = u.conn then u.consumed + readPosition.toNat else u.consumed }

/-- `OnMessage` returns, from the bottom of the stack. -/
theorem stream_left {readSize readPosition : UInt64} {conn : Nat} (h : Stream u)
    (hst : u.stack = .message readSize conn :: rest) (hpos : readPosition ≤ readSize)
    (hd : conn ≠ u.conn → u.established = true → readPosition = readSize) :
    ∃ c, u.client.Data.leave readSize readPosition = some c ∧
      Stream ({ u with stack := rest }.left c conn readPosition) := by
  obtain ⟨hfit, hle, hsame, hother⟩ := h.called readSize conn (hst ▸ List.mem_cons_self)
  obtain rfl : rest = [] := by
    cases rest with
    | nil => rfl
    | cons f rest => exact absurd (hst ▸ List.mem_cons_self) (h.bottom readSize conn)
  have hstream {c : TcpChannelCache CacheSize} (hf : c.Fits)
      (hl : u.established = true →
        (if conn = u.conn then u.consumed + readPosition.toNat else u.consumed) ≤ u.received.length ∧
        c.shown = u.received.drop (if conn = u.conn then u.consumed + readPosition.toNat else u.consumed)) :
      Stream ({ u with stack := [] }.left c conn readPosition) :=
    ⟨hf, h.messages, hl, fun _ _ hm => absurd hm List.not_mem_nil, fun _ _ => List.not_mem_nil⟩
  by_cases hc : conn = u.conn
  · obtain rfl := hsame hc
    obtain ⟨c, he, hf, hshown⟩ := TcpChannelCache.leave_spec h.fits hpos
    refine ⟨c, he, hstream hf fun hest => ?_⟩
    obtain ⟨hcons, hleft⟩ := h.left hest
    have hread : readPosition.toNat ≤ u.client.Data.shown.length := by
      rw [TcpChannelCache.length_shown h.fits, ← UInt32.toNat_toUInt64]
      exact UInt64.le_iff_toNat_le.mp hpos
    rw [hleft, List.length_drop] at hread
    rw [if_pos hc, hshown, hleft, List.drop_drop]
    exact ⟨by omega, rfl⟩
  · obtain ⟨c, he, hf, -, hshown⟩ := TcpChannelCache.leave_eq (c := u.client.Data) hfit hpos
    refine ⟨c, he, hstream hf fun hest => ?_⟩
    -- all was read, and nothing came in on the connection that is new
    have hnil : c.shown = [] := by
      rw [hshown, hd hc hest]
      exact List.drop_of_length_le (List.length_take_le _ _)
    obtain ⟨hcons, -⟩ := h.left hest
    rw [if_neg hc, hnil, hother hc hest]
    exact ⟨hother hc hest ▸ hcons, List.drop_nil.symm⟩

theorem stream_pop (h : Stream u) : Stream { u with stack := u.stack.tail } :=
  h.same rfl rfl id rfl rfl rfl (fun readSize conn => (h.pop readSize conn).1)
    (fun readSize conn => (h.pop readSize conn).2)

theorem resume_message {readSize readPosition : UInt64} {conn : Nat} {c : TcpChannelCache CacheSize}
    (hc : u.client.Data.leave readSize readPosition = some c) (fd : Option Nat) (ok : Bool) :
    u.resume readPosition fd ok (.message readSize conn) = some (u.left c conn readPosition) := by
  simp only [Run.resume, hc]
  rfl

theorem stream_resume {readPosition : UInt64} (h : Stream u) (hst : u.stack = f :: rest)
    (ha : Frame.allows readPosition f) (hd : Drained u (.ret readPosition fd ok))
    (hs : { u with stack := rest }.resume readPosition fd ok f = some u') : Stream u' := by
  have hpop : Stream { u with stack := rest } := by
    have htail := stream_pop h
    rwa [hst] at htail
  cases f with
  | register =>
    cases hs
    exact hpop
  | update =>
    cases hs
    exact hpop
  | disconnect =>
    cases hs
    exact stream_disconnect hpop false
  | close reconnect =>
    cases reconnect with
    | false =>
      cases hs
      exact stream_close hpop
    | true =>
      cases hs
      exact stream_connect (stream_close hpop) fd ok
  | message readSize conn =>
    have hread : conn ≠ u.conn → u.established = true → readPosition = readSize :=
      hd (.message readSize conn) (hst ▸ rfl)
    obtain ⟨c, hc, hleft⟩ := stream_left h hst ha hread
    obtain rfl := Option.some.inj ((resume_message (u := { u with stack := rest }) hc fd ok).symm.trans hs)
    exact hleft

theorem stream_step {l : Label} (h : Stream u) (hd : Drained u l) (hl : enabled u l) (hs : u.step l = some u') :
    Stream u' := by
  cases l with
  | connect fd ok =>
    cases hs
    exact stream_connect h fd ok
  | connectTimeout fd ok timerId =>
    cases hs
    exact stream_connectTimeout h fd ok timerId
  | close =>
    cases hs
    exact stream_close h
  | disconnect =>
    cases hs
    exact stream_disconnect h false
  | reconnect =>
    cases hs
    exact stream_disconnect h true
  | writeable ok =>
    cases hs
    exact stream_onWriteable h ok
  | readable recv =>
    rcases onReadable_cases hs with rfl | rfl | ⟨chunk, c, rfl, -, hc, rfl⟩
    · exact h
    · exact stream_disconnect h false
    · exact stream_shown h hl.1 hl.2.1 hl.2.2 hc
  | errorable =>
    cases hs
    exact h.pushed (f := .disconnect) (fun _ _ => nofun) rfl rfl id rfl rfl rfl rfl
  | timeout timerId =>
    cases hs
    exact h.pushed (f := .disconnect) (fun _ _ => nofun) rfl rfl id rfl rfl rfl rfl
  | ret readPosition fd ok =>
    cases hst : u.stack with
    | nil => exact absurd hst hl.1
    | cons f rest =>
      rw [Run.step, hst] at hs
      exact stream_resume h hst (hl.2 f (hst ▸ rfl)) hd hs
  | throw =>
    cases hs
    exact stream_pop h
  | otherSet timerId =>
    cases hs
    exact h.kept rfl rfl id rfl rfl rfl rfl
  | otherDrop timerId =>
    cases hs
    exact h.kept rfl rfl id rfl rfl rfl rfl

theorem stream_inductive : ((client CacheSize).guard Drained).Inductive Stream where
  init := by
    intro u hu
    obtain ⟨cache, rfl⟩ := hu
    exact ⟨TcpChannelCache.fits_reset _, nofun, nofun, nofun, fun _ _ => List.not_mem_nil⟩
  step := by
    intro u l u' h hs
    exact stream_step h hs.1 hs.2.1 hs.2.2

/-- What a handler did not read before it returned on another connection is shown there. -/
theorem not_shown {readPosition : UInt64} {fd : Option Nat} {ok : Bool} {recv : Recv} {u'' : Run CacheSize}
    (h : Stream u) (hd : ¬Drained u (.ret readPosition fd ok))
    (hs : (client CacheSize).step u (.ret readPosition fd ok) u')
    (hr : (client CacheSize).step u' (.readable recv) u'') (hm : u''.messages ≠ u'.messages) : ¬Shown u'' := by
  obtain ⟨readSize, conn, hhead, hne, hest, hpos⟩ : ∃ readSize conn, u.stack.head? = some (.message readSize conn) ∧
      conn ≠ u.conn ∧ u.established = true ∧ readPosition ≠ readSize := by
    obtain ⟨f, hhead, hf⟩ : ∃ f ∈ u.stack.head?, ¬Frame.drained u readPosition f := by
      simpa only [Drained, not_forall, exists_prop] using hd
    cases f with
    | message readSize conn =>
      simp only [Frame.drained, Classical.not_imp] at hf
      exact ⟨readSize, conn, hhead, hf⟩
    | register | update | disconnect | close _ => exact absurd trivial hf
  obtain ⟨rest, hst⟩ := List.head?_eq_some_iff.mp hhead
  have hle : readPosition ≤ readSize := hs.1.2 _ hhead
  obtain ⟨hfit, -, -, hother⟩ := h.called readSize conn (hst ▸ List.mem_cons_self)
  obtain ⟨c, hc, hfits, havail, -⟩ := TcpChannelCache.leave_eq (c := u.client.Data) hfit hle
  have hs' := hs.2
  rw [Run.step, hst] at hs'
  obtain rfl := Option.some.inj ((resume_message (u := { u with stack := rest }) hc fd ok).symm.trans hs')
  rcases onReadable_cases hr.2 with rfl | rfl | ⟨chunk, c', rfl, -, hc', rfl⟩
  · exact absurd rfl hm
  · refine absurd ?_ hm
    rw [Run.disconnect, Run.clearTimer]
    split <;> rfl
  · -- the message is longer than what came in on the connection
    obtain ⟨c₁, hc₁, -, hshown⟩ := TcpChannelCache.receive_spec hfits hr.1.2.2
    obtain rfl := Option.some.inj (hc₁.symm.trans hc')
    intro hall
    have heq := hall _ (List.mem_append_right _ (List.mem_singleton_self _))
    have hlen := congrArg List.length heq
    have hlong := TcpChannelCache.length_shown hfits
    have hlt : readPosition.toNat < readSize.toNat :=
      Nat.lt_of_le_of_ne (UInt64.le_iff_toNat_le.mp hle) fun heq => hpos (UInt64.toNat_inj.mp heq)
    simp only [Run.left, hother hne hest, List.nil_append, List.length_drop, hshown, List.length_append, hlong,
      havail] at hlen
    omega

/-- In a run of drained steps every `OnMessage` is shown the bytes of its connection; and after a
step that is not drained the next is shown more. -/
theorem stream_run {u : Run CacheSize} (hr : ((client CacheSize).guard Drained).Reachable u) :
    Shown u ∧ ∀ readPosition fd ok recv u' u'', ¬Drained u (.ret readPosition fd ok) →
      (client CacheSize).step u (.ret readPosition fd ok) u' → (client CacheSize).step u' (.readable recv) u'' →
      u''.messages ≠ u'.messages → ¬Shown u'' := by
  have h := stream_inductive.reachable u hr
  exact ⟨h.messages, fun _ _ _ _ _ _ hd hs hm hne => not_shown h hd hs hm hne⟩

/-- The handler reconnects and returns; `readPosition` is what it read of the three bytes. -/
def reconnectCalls (readPosition : UInt64) : List Label :=
  [.connect (some 5) true, .ret 0 none false, .readable (.bytes [1, 2, 3]), .reconnect, .ret 0 (some 6) true,
    .ret 0 none false, .ret readPosition none false, .readable (.bytes [4])]

theorem stream_run_drained : ∃ u, ((client 4).guard Drained).Reachable u ∧
    u.messages = [([1, 2, 3], [1, 2, 3]), ([4], [4])] ∧ Shown u := by
  have hrun : ((reconnectCalls 3).foldlM (LTS.checked (fun u l => Drained u l ∧ enabled u l) Run.step) start).map
      (fun u => u.messages) =
      some [([1, 2, 3], [1, 2, 3]), ([4], [4])] := by decide
  obtain ⟨u, hu, hm⟩ := Option.map_eq_some_iff.mp hrun
  have hr : ((client 4).guard Drained).Reachable u :=
    LTS.Reachable.checked_guard (fun _ _ _ => And.intro) _ (.init ⟨_, rfl⟩) hu
  exact ⟨u, hr, hm, (stream_run hr).1⟩

/-- The handler read one byte: the other two are shown before the byte of the new connection. -/
theorem bytes_cross : ∃ u, (client 4).Reachable u ∧ u.messages = [([1, 2, 3], [1, 2, 3]), ([2, 3, 4], [4])] ∧
    ¬Shown u := by
  have hrun : ((reconnectCalls 1).foldlM (LTS.checked enabled Run.step) start).map (fun u => u.messages) =
      some [([1, 2, 3], [1, 2, 3]), ([2, 3, 4], [4])] := by decide
  obtain ⟨u, hu, hm⟩ := Option.map_eq_some_iff.mp hrun
  refine ⟨u, LTS.Reachable.checked (fun _ _ _ => And.intro) _ (.init ⟨_, rfl⟩) hu, hm, fun hall => ?_⟩
  have heq := hall ([2, 3, 4], [4]) (hm ▸ List.mem_cons_of_mem _ (List.mem_singleton_self _))
  cases heq

end SimpleSvr.L5.TcpClient
