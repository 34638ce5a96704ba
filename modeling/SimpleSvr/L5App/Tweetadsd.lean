import SimpleSvr.L5App.Channel
import SimpleSvr.L5App.TcpServerStream

/-!
# A service on the server (`examples/tweetadsd.cc`)

`tweetadsd` answers a request, which is the 8 bytes of a tweet's id, with the id
and the ads that a hash table in shared memory has for it. Each call of
`OnMessage` takes one request from the front of the package cache; when there is
no whole one, `>>` throws and the bytes stay.

`answers_in_order`: what was sent on a connection is the replies to the first
requests that came in on it, in order and each once, when `sendmsg` takes a reply
whole or fails; and it is the replies to all of them when the client waits for
each. A client that does not wait is answered later or never: only a chunk that
comes in calls `OnMessage`.

The hash table is not part of the repository; its lookup is a parameter. `OnMessage`
reads as many ads of an entry as the entry says it has, and nothing checks that it
has room for no more than ten (`Bounded`). The timer that `OnMessage` sets does
nothing and is left out, and so are the lines it and `OnDisconnected` log.
-/
namespace SimpleSvr.L5.Tweetadsd
open SimpleSvr.L1
open TcpServer (receivedOf consumedOf HandlerCall.consumed)

/-- mirrors examples/tweetadsd.cc:36-40 -/
structure TweetADS where
  adnum : UInt16
  adbuffer : List UInt64
  size : adbuffer.length = 10

/-- `g_HashTable.Hash`; `none` is a null pointer. -/
abbrev HashTable := UInt64 → Option TweetADS

/-- What is written to `out`.
mirrors examples/tweetadsd.cc:69-82 -/
def answer (table : HashTable) (tweetid : UInt64) : List Val :=
  .uint64 tweetid ::
    match table tweetid with
    | none => [.uint16 0]
    | some value => .uint16 value.adnum :: (value.adbuffer.take value.adnum.toNat).map .uint64

/-- `adbuffer[i]` is read for each `i` below `adnum`: from 10 on that is outside the array.
mirrors examples/tweetadsd.cc:79-81 -/
def overruns (table : HashTable) (tweetid : UInt64) : Bool :=
  (table tweetid).any fun value => value.adbuffer.length < value.adnum.toNat

/-- No entry says that it has more ads than there is room for. -/
def Bounded (table : HashTable) : Prop := ∀ tweetid value, table tweetid = some value → value.adnum.toNat ≤ 10

/-- What `OnMessage` does with its channel and its buffer, and what the socket takes. `none` is an access
outside a buffer or an array.
mirrors examples/tweetadsd.cc:58-86 -/
def OnMessage (table : HashTable) (io : IOBuffer) (sendmsg : Outcome) : Option (HandlerCall × Bytes) :=
  match io.getUInt64 with
  | .error .fault => none
  | .error _ => some ({ uses := [.touch], throws := true }, [])
  | .ok (io, tweetid) =>
    if overruns table tweetid then none
    else
      match (IOBuffer.new (List.replicate 65535 0) 65535 0).insertAll (answer table tweetid) with
      | (_, some .fault) => none
      | (_, some _) => some ({ uses := [.touch], throws := true }, [])
      | (out, none) =>
        let (_, sent, throws) := out.send sendmsg
        some ({ uses := [.touch, .touch], throws, readPosition := io.readPosition }, sent)

/-- The server, and what was sent on each channel. -/
structure Service (CacheSize : UInt32) where
  server : TcpServer CacheSize := {}
  sent : ChannelRec → Bytes := fun _ => []

inductive Label (CacheSize : UInt32) where
  | accept (cache : TcpChannelCache CacheSize) (registered : Bool)
  | readable (r : ChannelRec) (recv : Recv) (sendmsg : Outcome)
  | errorable (r : ChannelRec)

variable {CacheSize : UInt32} {table : HashTable}

/-- The `in` of `OnMessage`. -/
def incoming (s : TcpServer CacheSize) (r : ChannelRec) : Recv → Option IOBuffer
  | .fail => none
  | .bytes chunk => do
    let c ← s.mem.find r
    let c ← c.receive chunk
    some c.message

/-- The call of `OnMessage`, if there is one. -/
def handle (table : HashTable) (s : TcpServer CacheSize) (r : ChannelRec) (recv : Recv) (sendmsg : Outcome) :
    Option (HandlerCall × Bytes) :=
  if TcpServer.ShowsMessage s r recv then (incoming s r recv).bind fun io => OnMessage table io sendmsg
  else some ({}, [])

namespace Service

def step (table : HashTable) (s : Service CacheSize) : Label CacheSize → Option (Service CacheSize)
  | .accept cache registered =>
    (s.server.step (.accept cache registered { uses := [.touch] })).map fun server => { s with server }
  | .readable r recv sendmsg =>
    (handle table s.server r recv sendmsg).bind fun call =>
      (s.server.step (.readable r recv call.1)).map fun server =>
        { server, sent := Function.update s.sent r (s.sent r ++ call.2) }
  | .errorable r => (s.server.step (.errorable r {})).map fun server => { s with server }

/-- `recvmsg` gets no more than it is given space for. -/
def takes (s : Service CacheSize) : Label CacheSize → Prop
  | .accept .. => True
  | .readable r (.bytes chunk) _ =>
    r ∈ s.server.poll ∧ ∀ c ∈ s.server.mem.find r, (chunk.length : Int) ≤ c.dwRemainSize
  | .readable r .fail _ | .errorable r => r ∈ s.server.poll

end Service

def service (CacheSize : UInt32) (table : HashTable) : LTS (Service CacheSize) (Label CacheSize) where
  init s := s = {}
  step s l s' := s.takes l ∧ s.step table l = some s'

/-- `sendmsg` takes the reply whole, or fails. -/
def Whole (_ : Service CacheSize) : Label CacheSize → Prop
  | .readable _ _ sendmsg => sendmsg = .fail ∨ sendmsg = .full
  | _ => True

/-- The client of `r` has at most one request on the way, and takes the reply. -/
def Waits (r : ChannelRec) (s : Service CacheSize) : Label CacheSize → Prop
  | .readable r' recv sendmsg =>
    r' = r → sendmsg = .full ∧ ∀ shown ∈ s.server.handed r recv, shown.length < 16
  | _ => True

/-- The `i`th request of the bytes that came in. -/
def request (received : Bytes) (i : Nat) : UInt64 := UInt64.ofNat (ofBe ((received.drop (8 * i)).take 8))

/-- The replies to the first `k` of them. -/
def replies (table : HashTable) (received : Bytes) (k : Nat) : Bytes :=
  (List.range k).flatMap fun i => encodeAll (answer table (request received i))

/-! ## OnMessage -/

theorem length_ads (ads : List UInt64) : (encodeAll (ads.map .uint64)).length = 8 * ads.length := by
  induction ads with
  | nil => rfl
  | cons ad ads ih =>
    have had : (Val.uint64 ad).encode.length = 8 := Val.length_encode_int nofun
    rw [List.map_cons, encodeAll_cons, List.length_append, ih, had, List.length_cons, Nat.mul_succ, Nat.add_comm]

theorem length_answer (table : HashTable) (tweetid : UInt64) :
    0 < (encodeAll (answer table tweetid)).length ∧ (encodeAll (answer table tweetid)).length ≤ 90 := by
  have hid : (Val.uint64 tweetid).encode.length = 8 := Val.length_encode_int nofun
  have hnum : ∀ adnum, (Val.uint16 adnum).encode.length = 2 := fun adnum => Val.length_encode_int nofun
  unfold answer
  cases table tweetid with
  | none =>
    dsimp only
    rw [encodeAll_cons, encodeAll_cons, List.length_append, List.length_append, hid, hnum]
    decide
  | some value =>
    have hads := length_ads (value.adbuffer.take value.adnum.toNat)
    dsimp only
    rw [encodeAll_cons, encodeAll_cons, List.length_append, List.length_append, hid, hnum, hads, List.length_take,
      value.size]
    omega

theorem overruns_eq_true {value : TweetADS} {tweetid : UInt64} (h : table tweetid = some value) :
    overruns table tweetid = true ↔ 10 < value.adnum.toNat := by
  simp [overruns, h, value.size]

theorem Bounded.within (h : Bounded table) (tweetid : UInt64) : overruns table tweetid = false := by
  cases hv : table tweetid with
  | none => simp [overruns, hv]
  | some value =>
    rw [← Bool.not_eq_true, overruns_eq_true hv]
    exact Nat.not_lt.mpr (h tweetid value hv)

/-- `channel << out` with the answer in `out`. -/
theorem send_writing {pre rest : Bytes} (hpre : pre ≠ []) (hs : pre.length < 2 ^ 64) (sendmsg : Outcome) :
    ∃ out, (IOBuffer.writing pre rest).send sendmsg =
      match sendmsg.amount pre.length with
      | none => (out, [], true)
      | some n => (out, (pre ++ rest).take n, false) := by
  have hpos : (UInt64.ofNat pre.length).toNat = pre.length := IOBuffer.toNat_ofNat_lt hs
  have hzero : UInt64.ofNat pre.length ≠ 0 := fun h0 => by
    rw [h0] at hpos
    exact hpre (List.eq_nil_of_length_eq_zero hpos.symm)
  unfold IOBuffer.send
  rw [if_neg (show (IOBuffer.writing pre rest).writePosition ≠ 0 from hzero)]
  rw [show (IOBuffer.writing pre rest).writePosition.toNat = pre.length from hpos]
  cases sendmsg.amount pre.length with
  | none => exact ⟨_, rfl⟩
  | some n => exact ⟨_, rfl⟩

theorem getUInt64_reading {pre rest extra : Bytes} (hs : pre.length + rest.length < 2 ^ 63) (h : 8 ≤ rest.length) :
    (IOBuffer.reading pre rest extra).getUInt64 =
      .ok (IOBuffer.reading (pre ++ rest.take 8) (rest.drop 8) extra, UInt64.ofNat (ofBe (rest.take 8))) := by
  have hlen : (rest.take 8).length = 8 := by rw [List.length_take]; omega
  have hget := @IOBuffer.get_reading pre (rest.drop 8) extra (rest.take 8) 8
    (by rw [List.take_append_drop]; omega) hlen
  rw [List.take_append_drop] at hget
  rw [IOBuffer.getUInt64_eq, hget]
  rfl

/-- Less than a request is in the cache. -/
theorem onMessage_short {shown extra : Bytes} (h : shown.length < 8) (sendmsg : Outcome) :
    OnMessage table (IOBuffer.reading [] shown extra) sendmsg = some ({ uses := [.touch], throws := true }, []) := by
  have hget : (IOBuffer.reading [] shown extra).get 8 = .error .noSpaceToRead :=
    IOBuffer.get_short h (by decide)
  unfold OnMessage
  rw [IOBuffer.getUInt64_eq, hget]
  rfl

/-- The first request of what is shown is for an entry that says it has more than its ten ads. -/
theorem onMessage_overruns {shown extra : Bytes} {value : TweetADS} (h : 8 ≤ shown.length)
    (hs : shown.length < 2 ^ 63) (hv : table (request shown 0) = some value)
    (hnum : 10 < value.adnum.toNat) (sendmsg : Outcome) :
    OnMessage table (IOBuffer.reading [] shown extra) sendmsg = none := by
  unfold OnMessage
  rw [getUInt64_reading (by rw [List.length_nil]; omega) h]
  exact if_pos ((overruns_eq_true hv).mpr hnum)

/-- The first request of what is shown is answered. -/
theorem onMessage_long (hb : Bounded table) {shown extra : Bytes} (h : 8 ≤ shown.length) (hs : shown.length < 2 ^ 63)
    (sendmsg : Outcome) :
    OnMessage table (IOBuffer.reading [] shown extra) sendmsg =
      match sendmsg.amount (encodeAll (answer table (request shown 0))).length with
      | none => some ({ uses := [.touch, .touch], throws := true, readPosition := 8 }, [])
      | some n => some ({ uses := [.touch, .touch], readPosition := 8 },
          (encodeAll (answer table (request shown 0)) ++
            List.replicate (65535 - (encodeAll (answer table (request shown 0))).length) 0).take n) := by
  have hanswer := length_answer table (request shown 0)
  have hinsert := @IOBuffer.insertAll_writing [] (List.replicate 65535 0) (answer table (request shown 0))
    (by rw [List.length_replicate]; decide) (by rw [List.length_replicate]; omega)
  have hnew : IOBuffer.new (List.replicate 65535 0) 65535 0 = IOBuffer.writing [] (List.replicate 65535 0) := by
    rw [← IOBuffer.new_writing, List.length_replicate]
    rfl
  obtain ⟨out, hsend⟩ := @send_writing (encodeAll (answer table (request shown 0)))
    ((List.replicate 65535 0).drop (encodeAll (answer table (request shown 0))).length)
    (List.ne_nil_of_length_pos hanswer.1) (by omega) sendmsg
  have hpos : (IOBuffer.reading ([] ++ shown.take 8) (shown.drop 8) extra).readPosition = 8 := by
    show UInt64.ofNat ([] ++ shown.take 8).length = 8
    rw [List.nil_append, List.length_take, Nat.min_eq_left h]
    rfl
  unfold OnMessage
  rw [getUInt64_reading (by rw [List.length_nil]; omega) h]
  dsimp only
  rw [hnew, show UInt64.ofNat (ofBe (shown.take 8)) = request shown 0 from rfl, hb.within,
    if_neg Bool.false_ne_true, hinsert]
  dsimp only
  rw [List.nil_append, hsend, hpos]
  cases sendmsg.amount (encodeAll (answer table (request shown 0))).length with
  | none => rfl
  | some n =>
    dsimp only
    rw [List.drop_replicate]

/-! ## A step -/

variable {s s' : Service CacheSize} {r : ChannelRec} {c c' : TcpChannelCache CacheSize} {chunk : Bytes}
  {sendmsg : Outcome} {l : Label CacheSize}

theorem message_reading (h : c.Fits) :
    c.message = IOBuffer.reading [] c.shown (c.cPackageCache.drop c.dwCacheAvailableSize.toNat) := by
  have hlen := TcpChannelCache.length_shown h
  have havail : UInt64.ofNat c.shown.length = c.dwCacheAvailableSize.toUInt64 := by
    rw [hlen, ← UInt64.toNat_inj, IOBuffer.toNat_ofNat_lt (by have := c.dwCacheAvailableSize.toNat_lt; omega)]
    rfl
  rw [← IOBuffer.new_reading, havail, TcpChannelCache.shown, List.take_append_drop]
  rfl

/-- The call that `OnMessage` makes of what it is shown, and what it sends. -/
structure Handles (table : HashTable) (shown : Bytes) (sendmsg : Outcome) (cb : HandlerCall) (sent : Bytes) : Prop where
  gentle : .disconnect ∉ cb.uses
  reads : cb.readPosition.toNat ≤ shown.length
  /-- a reply is sent for the request that was read, when `sendmsg` takes all or fails -/
  replies : sendmsg = .fail ∨ sendmsg = .full →
    (HandlerCall.consumed cb = 0 ∧ sent = [] ∧ (sendmsg = .full → shown.length < 8)) ∨
      (HandlerCall.consumed cb = 8 ∧ 8 ≤ shown.length ∧ sent = encodeAll (answer table (request shown 0)))

theorem onMessage_handles (hb : Bounded table) {shown extra : Bytes} (hs : shown.length < 2 ^ 63) (sendmsg : Outcome) :
    ∃ cb sent, OnMessage table (IOBuffer.reading [] shown extra) sendmsg = some (cb, sent) ∧
      Handles table shown sendmsg cb sent := by
  by_cases h : 8 ≤ shown.length
  · rw [onMessage_long hb h hs]
    cases hamount : sendmsg.amount (encodeAll (answer table (request shown 0))).length with
    | none =>
      refine ⟨_, _, rfl, by decide, h, fun _ => .inl ⟨rfl, rfl, fun hfull => ?_⟩⟩
      rw [hfull] at hamount
      cases hamount
    | some n =>
      refine ⟨_, _, rfl, by decide, h, fun hwhole => .inr ⟨rfl, h, ?_⟩⟩
      rcases hwhole with rfl | rfl
      · cases hamount
      · cases hamount
        exact List.take_left
  · rw [onMessage_short (Nat.lt_of_not_le h)]
    exact ⟨_, _, rfl, by decide, Nat.zero_le _, fun _ => .inl ⟨rfl, rfl, fun _ => Nat.lt_of_not_le h⟩⟩

/-- What a step does to the stream of a record, and to what was sent on it. -/
inductive Serves (table : HashTable) (r : ChannelRec) (s s' : Service CacheSize) (l : Label CacheSize) : Prop where
  | idle (es : List Event) (hes : ∀ e ∈ es, TcpServer.Event.quiet e = true)
    (hist : s'.server.history r = s.server.history r ++ es) (sent : s'.sent r = s.sent r)
  | message (chunk : Bytes) (sendmsg : Outcome) (cb : HandlerCall) (sent : Bytes) (c c' : TcpChannelCache CacheSize)
    (hl : l = .readable r (.bytes chunk) sendmsg) (hr : r ∈ s.server.poll) (hc : s.server.mem.find r = some c)
    (hrec : c.receive chunk = some c') (shown : c'.shown = c.shown ++ chunk)
    (handles : Handles table c'.shown sendmsg cb sent)
    (hist : s'.server.history r = s.server.history r ++ TcpServer.called chunk c'.shown cb)
    (hsent : s'.sent r = s.sent r ++ sent)

/-- The step is one of the server, and none of its callbacks disconnects. -/
def OfServer (s s' : Service CacheSize) : Prop :=
  ∃ l, TcpServer.enabled s.server l ∧ s.server.step l = some s'.server ∧ ∀ r, TcpServer.Gentle r s.server l

theorem serves_happens {server : TcpServer CacheSize} {l' : TcpServer.Label CacheSize}
    (h : TcpServer.Happens r s.server server l') (hl : ∀ r recv cb, l' ≠ .readable r recv cb) :
    Serves table r s { s with server } l := by
  cases h with
  | idle es hes hist => exact .idle es hes hist rfl
  | new es hes none hist => exact .idle es hes (by rw [none]; exact hist) rfl
  | message chunk cb c c' hl' => exact absurd hl' (hl _ _ _)

theorem serves_accept (h : TcpServer.Known s.server) (cache : TcpChannelCache CacheSize) (registered : Bool) :
    ∃ s', s.step table (.accept cache registered) = some s' ∧ OfServer s s' ∧
      ∀ r, Serves table r s s' (.accept cache registered) := by
  have hl : TcpServer.enabled s.server (.accept cache registered { uses := [.touch] }) := trivial
  obtain ⟨server, hs, -, hh⟩ := TcpServer.step_happens h hl
  exact ⟨{ s with server }, by rw [Service.step, hs]; rfl, ⟨_, hl, hs, fun _ => trivial⟩,
    fun r => serves_happens (hh r) nofun⟩

theorem serves_errorable (h : TcpServer.Known s.server) (hr : r ∈ s.server.poll) :
    ∃ s', s.step table (.errorable r) = some s' ∧ OfServer s s' ∧ ∀ x, Serves table x s s' (.errorable r) := by
  have hl : TcpServer.enabled s.server (.errorable r {}) := hr
  obtain ⟨server, hs, -, hh⟩ := TcpServer.step_happens h hl
  exact ⟨{ s with server }, by rw [Service.step, hs]; rfl, ⟨_, hl, hs, fun _ => trivial⟩,
    fun x => serves_happens (hh x) nofun⟩

/-- Nothing is shown: the socket has nothing, the peer is gone or the cache is full. -/
theorem serves_unshown {recv : Recv} (h : TcpServer.Known s.server) (hl : s.takes (.readable r recv sendmsg))
    (hno : ¬TcpServer.ShowsMessage s.server r recv) :
    ∃ s', s.step table (.readable r recv sendmsg) = some s' ∧ OfServer s s' ∧
      ∀ x, Serves table x s s' (.readable r recv sendmsg) := by
  have henabled : TcpServer.enabled s.server (.readable r recv {}) := by
    cases recv with
    | fail => exact ⟨hl, trivial⟩
    | bytes chunk => exact ⟨hl.1, fun c hc => ⟨hl.2 c hc, Nat.zero_le _⟩⟩
  obtain ⟨server, hs, -, hh⟩ := TcpServer.step_happens h henabled
  have hsent : Function.update s.sent r (s.sent r ++ []) = s.sent := by rw [List.append_nil, Function.update_eq_self]
  refine ⟨⟨server, s.sent⟩, ?_, ⟨_, henabled, hs, fun x _ _ => List.not_mem_nil⟩, fun x => ?_⟩
  · rw [Service.step, handle, if_neg hno, Option.bind_some, hs, Option.map_some, hsent]
  · cases hh x with
    | idle es hes hist => exact .idle es hes hist rfl
    | new es hes none hist => exact .idle es hes (by rw [none]; exact hist) rfl
    | message chunk cb c c' hl' hr hshows =>
      cases hl'
      exact absurd hshows hno

theorem handle_shown (hc : s.server.mem.find r = some c) (hrec : c.receive chunk = some c') (hf : c'.Fits)
    (hshows : TcpServer.ShowsMessage s.server r (.bytes chunk)) (sendmsg : Outcome) :
    handle table s.server r (.bytes chunk) sendmsg =
      OnMessage table (IOBuffer.reading [] c'.shown (c'.cPackageCache.drop c'.dwCacheAvailableSize.toNat)) sendmsg := by
  have hin : incoming s.server r (.bytes chunk) = some c'.message := by
    simp only [incoming, hc, hrec, bind, Option.bind]
  rw [handle, if_pos hshows, hin, Option.bind_some, message_reading hf]

theorem serves_shown (hb : Bounded table) (h : TcpServer.Known s.server)
    (hl : s.takes (.readable r (.bytes chunk) sendmsg))
    (hshows : TcpServer.ShowsMessage s.server r (.bytes chunk)) :
    ∃ s', s.step table (.readable r (.bytes chunk) sendmsg) = some s' ∧ OfServer s s' ∧
      ∀ x, Serves table x s s' (.readable r (.bytes chunk) sendmsg) := by
  obtain ⟨c, hc, hf⟩ := h.live r hl.1
  have hroom := hl.2 c hc
  obtain ⟨c', hrec, hf', hshown⟩ := TcpChannelCache.receive_spec hf hroom
  have hlen : c'.shown.length = c.dwCacheAvailableSize.toNat + chunk.length := by
    rw [hshown, List.length_append, TcpChannelCache.length_shown hf]
  have hmax : c'.shown.length < 2 ^ 63 := by
    have hfits := TcpChannelCache.length_shown hf'
    have := c'.dwCacheAvailableSize.toNat_lt
    omega
  obtain ⟨cb, sent, hcall, hhandles⟩ := @onMessage_handles table hb c'.shown
    (c'.cPackageCache.drop c'.dwCacheAvailableSize.toNat) hmax sendmsg
  have hhandle := (handle_shown hc hrec hf' hshows sendmsg).trans hcall
  have henabled : TcpServer.enabled s.server (.readable r (.bytes chunk) cb) := by
    refine ⟨hl.1, fun c₁ hc₁ => ?_⟩
    obtain rfl := Option.some.inj (hc.symm.trans hc₁)
    exact ⟨hroom, hlen ▸ hhandles.reads⟩
  obtain ⟨server, hs, hcase⟩ := TcpServer.OnReadable_cases hc hf henabled.2
  refine ⟨⟨server, Function.update s.sent r (s.sent r ++ sent)⟩, ?_,
    ⟨_, henabled, hs, fun _ _ _ => hhandles.gentle⟩, fun x => ?_⟩
  · rw [Service.step, hhandle, Option.bind_some, TcpServer.step, hs, Option.map_some]
  · rcases hcase with ⟨hno, -, -⟩ | ⟨hno, -⟩ | ⟨chunk₁, c₁, heq, -, hrec₁, -, -, hd, -⟩
    · exact absurd hshows hno
    · exact absurd hshows hno
    · cases heq
      obtain rfl := Option.some.inj (hrec.symm.trans hrec₁)
      by_cases hx : x = r
      · subst hx
        exact .message chunk sendmsg cb sent c c' rfl hl.1 hc hrec hshown hhandles hd.history (Function.update_self ..)
      · have hhist : server.history x = s.server.history x ++ [] := by rw [List.append_nil, hd.other x hx]
        exact .idle [] (fun _ he => absurd he List.not_mem_nil) hhist (Function.update_of_ne hx _ _)

theorem serves_readable (hb : Bounded table) {recv : Recv} (h : TcpServer.Known s.server)
    (hl : s.takes (.readable r recv sendmsg)) :
    ∃ s', s.step table (.readable r recv sendmsg) = some s' ∧ OfServer s s' ∧
      ∀ x, Serves table x s s' (.readable r recv sendmsg) := by
  by_cases hshows : TcpServer.ShowsMessage s.server r recv
  · cases recv with
    | fail => exact hshows.elim
    | bytes chunk => exact serves_shown hb h hl hshows
  · exact serves_unshown h hl hshows

theorem step_serves (hb : Bounded table) (h : TcpServer.Known s.server) (hl : s.takes l) :
    ∃ s', s.step table l = some s' ∧ OfServer s s' ∧ ∀ r, Serves table r s s' l := by
  cases l with
  | accept cache registered => exact serves_accept h cache registered
  | readable r recv sendmsg => exact serves_readable hb h hl
  | errorable r => exact serves_errorable h hl

/-! ## Replies -/

variable {received : Bytes} {i k : Nat}

theorem request_append (h : 8 * i + 8 ≤ received.length) (more : Bytes) :
    request (received ++ more) i = request received i := by
  have hlen : 8 ≤ (received.drop (8 * i)).length := by
    rw [List.length_drop]
    omega
  rw [request, List.drop_append_of_le_length (by omega), List.take_append_of_le_length hlen, request]

/-- The first request of what was not answered. -/
theorem request_drop (received : Bytes) (k : Nat) : request (received.drop (8 * k)) 0 = request received k := by
  rw [request, request, Nat.mul_zero, List.drop_zero]

theorem replies_append (h : 8 * k ≤ received.length) (more : Bytes) :
    replies table (received ++ more) k = replies table received k := by
  apply List.flatMap_congr
  intro i hi
  have hlt := List.mem_range.mp hi
  rw [request_append (by omega)]

theorem replies_succ (table : HashTable) (received : Bytes) (k : Nat) :
    replies table received (k + 1) = replies table received k ++ encodeAll (answer table (request received k)) := by
  rw [replies, List.range_succ, List.flatMap_append, List.flatMap_singleton]
  rfl

/-! ## Runs -/

/-- How often `OnMessage` was called. -/
def calls (h : List Event) : Nat := h.countP fun e => e matches .message _

theorem calls_append (h es : List Event) : calls (h ++ es) = calls h + calls es := List.countP_append

theorem calls_called (chunk shown : Bytes) (cb : HandlerCall) : 0 < calls (TcpServer.called chunk shown cb) :=
  List.countP_pos_iff.mpr ⟨.message shown, by simp [TcpServer.called], rfl⟩

/-- The first `k` requests of `r` were read and answered, at most one for each call. -/
structure Answered (table : HashTable) (r : ChannelRec) (s : Service CacheSize) (k : Nat) : Prop where
  read : consumedOf (s.server.history r) = 8 * k
  came : 8 * k ≤ (receivedOf (s.server.history r)).length
  called : k ≤ calls (s.server.history r)
  sent : s.sent r = replies table (receivedOf (s.server.history r)) k

theorem Answered.idle {es : List Event} (h : Answered table r s k) (hes : ∀ e ∈ es, TcpServer.Event.quiet e = true)
    (hist : s'.server.history r = s.server.history r ++ es) (sent : s'.sent r = s.sent r) : Answered table r s' k where
  read := by rw [hist, TcpServer.consumedOf_append_quiet _ hes, h.read]
  came := by
    rw [hist, TcpServer.receivedOf_append_quiet _ hes]
    exact h.came
  called := by
    rw [hist, calls_append]
    exact Nat.le_add_right_of_le h.called
  sent := by rw [hist, TcpServer.receivedOf_append_quiet _ hes, sent, h.sent]

theorem Answered.message {cb : HandlerCall} {sent : Bytes} (h : Answered table r s k)
    (hc : TcpServer.Conserved (s.server.history r) c) (shown : c'.shown = c.shown ++ chunk)
    (handles : Handles table c'.shown sendmsg cb sent) (whole : sendmsg = .fail ∨ sendmsg = .full)
    (hist : s'.server.history r = s.server.history r ++ TcpServer.called chunk c'.shown cb)
    (hsent : s'.sent r = s.sent r ++ sent) : ∃ k, Answered table r s' k := by
  have hreceived : receivedOf (s'.server.history r) = receivedOf (s.server.history r) ++ chunk := by
    rw [hist, TcpServer.receivedOf_append, TcpServer.receivedOf_called]
  have hconsumed : consumedOf (s'.server.history r) = 8 * k + HandlerCall.consumed cb := by
    rw [hist, TcpServer.consumedOf_append, TcpServer.consumedOf_called, h.read]
  have hcalls : k + 1 ≤ calls (s'.server.history r) := by
    rw [hist, calls_append]
    exact Nat.add_le_add h.called (calls_called _ _ _)
  have hleft : c'.shown = (receivedOf (s'.server.history r)).drop (8 * k) := by
    rw [shown, hc.shown, h.read, hreceived, List.drop_append_of_le_length h.came]
  have hkept : replies table (receivedOf (s'.server.history r)) k = s.sent r := by
    rw [hreceived, replies_append h.came, h.sent]
  rcases handles.replies whole with ⟨hzero, rfl, -⟩ | ⟨height, hlen, rfl⟩
  · refine ⟨k, ⟨by rw [hconsumed, hzero, Nat.add_zero], ?_, Nat.le_of_succ_le hcalls, ?_⟩⟩
    · rw [hreceived, List.length_append]
      exact Nat.le_add_right_of_le h.came
    · rw [hsent, List.append_nil, hkept]
  · refine ⟨k + 1, ⟨by rw [hconsumed, height, Nat.mul_succ], ?_, hcalls, ?_⟩⟩
    · rw [hleft, List.length_drop] at hlen
      omega
    · rw [replies_succ, hkept, hsent, hleft, request_drop]

structure Serving (table : HashTable) (r : ChannelRec) (s : Service CacheSize) : Prop
    extends TcpServer.Streamed r s.server where
  answered : ∃ k, Answered table r s k

/-- Nothing that was received waits for an answer. -/
structure Prompt (table : HashTable) (r : ChannelRec) (s : Service CacheSize) : Prop extends Serving table r s where
  prompt : (receivedOf (s.server.history r)).length < consumedOf (s.server.history r) + 8

theorem streamed_ofServer (h : TcpServer.Streamed r s.server) (ho : OfServer s s') :
    TcpServer.Streamed r s'.server := by
  obtain ⟨l, hl, hs, hgentle⟩ := ho
  obtain ⟨server, hs', hk, hh⟩ := TcpServer.step_happens h.toKnown hl
  obtain rfl := Option.some.inj (hs'.symm.trans hs)
  exact h.step hk (hh r) (hgentle r)

theorem Serving.step (h : Serving table r s) (ho : OfServer s s') (hs : Serves table r s s' l) (hw : Whole s l) :
    Serving table r s' := by
  obtain ⟨k, hk⟩ := h.answered
  refine ⟨streamed_ofServer h.toStreamed ho, ?_⟩
  cases hs with
  | idle es hes hist sent => exact ⟨k, hk.idle hes hist sent⟩
  | message chunk sendmsg cb sent c c' hl hr hc hrec shown handles hist hsent =>
    subst hl
    obtain ⟨c₁, hc₁, hcons⟩ := h.cache hr
    obtain rfl := Option.some.inj (hc.symm.trans hc₁)
    exact hk.message hcons shown handles hw hist hsent

theorem Prompt.step (h : Prompt table r s) (ho : OfServer s s') (hs : Serves table r s s' l) (hw : Whole s l)
    (hwaits : Waits r s l) : Prompt table r s' := by
  refine ⟨h.toServing.step ho hs hw, ?_⟩
  have hprompt := h.prompt
  cases hs with
  | idle es hes hist sent =>
    rw [hist, TcpServer.receivedOf_append_quiet _ hes, TcpServer.consumedOf_append_quiet _ hes]
    exact hprompt
  | message chunk sendmsg cb sent c c' hl hr hc hrec shown handles hist hsent =>
    subst hl
    obtain ⟨c₁, hc₁, hcons⟩ := h.cache hr
    obtain rfl := Option.some.inj (hc.symm.trans hc₁)
    have hhanded : s.server.handed r (.bytes chunk) = some c'.shown := by
      simp only [TcpServer.handed, hc, hrec, bind, Option.bind]
    obtain ⟨hfull, hlt⟩ := hwaits rfl
    have hlt := hlt _ hhanded
    have hle := hcons.consumed
    have hlen : c'.shown.length = (receivedOf (s.server.history r)).length -
        consumedOf (s.server.history r) + chunk.length := by
      rw [shown, hcons.shown, List.length_append, List.length_drop]
    rw [hist, TcpServer.receivedOf_append, TcpServer.receivedOf_called, TcpServer.consumedOf_append,
      TcpServer.consumedOf_called, List.length_append]
    rcases handles.replies hw with ⟨hzero, -, hshort⟩ | ⟨height, hlong, -⟩
    · have hshort := hshort hfull
      omega
    · omega

theorem serving_inductive (hb : Bounded table) (r : ChannelRec) :
    ((service CacheSize table).guard Whole).Inductive (Serving table r) where
  init := by
    intro s hs
    cases hs
    exact ⟨TcpServer.streamed_new, 0, rfl, Nat.le_refl _, Nat.le_refl _, rfl⟩
  step := by
    intro s l s' h hs
    obtain ⟨s₁, hs₁, ho, hserves⟩ := step_serves hb h.toKnown hs.2.1
    obtain rfl := Option.some.inj (hs₁.symm.trans hs.2.2)
    exact h.step ho (hserves r) hs.1

theorem prompt_inductive (hb : Bounded table) (r : ChannelRec) :
    ((service CacheSize table).guard fun s l => Whole s l ∧ Waits r s l).Inductive (Prompt table r) where
  init := by
    intro s hs
    refine ⟨(serving_inductive hb r).init s hs, ?_⟩
    cases hs
    exact Nat.zero_lt_succ 7
  step := by
    intro s l s' h hs
    obtain ⟨s₁, hs₁, ho, hserves⟩ := step_serves hb h.toKnown hs.2.1
    obtain rfl := Option.some.inj (hs₁.symm.trans hs.2.2)
    exact h.step ho (hserves r) hs.1.1 hs.1.2

/-- On each connection the first requests that came in are answered, in order and each once, and at most one for
each call of `OnMessage`; the cache has the rest, and no access is outside a buffer. Where the client waits for
the reply, all that came in whole are answered. -/
theorem answers_in_order (CacheSize : UInt32) (table : HashTable) (hb : Bounded table) :
    (∀ s : Service CacheSize, ((service CacheSize table).guard Whole).Reachable s →
      (∀ r, ∃ k, s.sent r = replies table (receivedOf (s.server.history r)) k ∧
        8 * k ≤ (receivedOf (s.server.history r)).length ∧ k ≤ calls (s.server.history r) ∧
        (r ∈ s.server.poll → ∃ c, s.server.mem.find r = some c ∧
          c.shown = (receivedOf (s.server.history r)).drop (8 * k))) ∧
      ∀ l, s.takes l → ∃ s', (service CacheSize table).step s l s') ∧
    ∀ (r : ChannelRec) (s : Service CacheSize),
      ((service CacheSize table).guard fun s l => Whole s l ∧ Waits r s l).Reachable s →
      s.sent r = replies table (receivedOf (s.server.history r))
        ((receivedOf (s.server.history r)).length / 8) := by
  constructor
  · intro s hr
    constructor
    · intro r
      have h := (serving_inductive hb r).reachable s hr
      obtain ⟨k, hk⟩ := h.answered
      refine ⟨k, hk.sent, hk.came, hk.called, fun hm => ?_⟩
      obtain ⟨c, hc, hcons⟩ := h.cache hm
      exact ⟨c, hc, hk.read ▸ hcons.shown⟩
    · intro l hl
      have h := (serving_inductive hb 0).reachable s hr
      obtain ⟨s', hs', -⟩ := step_serves hb h.toKnown hl
      exact ⟨s', hl, hs'⟩
  · intro r s hr
    have h := (prompt_inductive hb r).reachable s hr
    obtain ⟨k, hk⟩ := h.answered
    have hprompt := h.prompt
    have hcame := hk.came
    rw [hk.read] at hprompt
    have hall : (receivedOf (s.server.history r)).length / 8 = k := by omega
    rw [hall, hk.sent]

/-- The id 7, which has two ads, and a server that has accepted a client. -/
def seven : Bytes := [0, 0, 0, 0, 0, 0, 0, 7]

def twoAds : HashTable := fun tweetid => if tweetid = 7 then some ⟨2, [21, 22, 0, 0, 0, 0, 0, 0, 0, 0], rfl⟩ else none

theorem twoAds_bounded : Bounded twoAds := by
  intro tweetid value h
  unfold twoAds at h
  split at h
  · cases h
    decide
  · cases h

def oneClient : Service 16 where
  server := TcpServer.OnAcceptable {} ⟨0, List.replicate 16 0, rfl⟩ true { uses := [.touch] }

theorem answers_in_order_seven :
    ∃ s : Service 16, receivedOf (s.server.history 0) = seven ∧
      ((service 16 twoAds).guard fun s l => Whole s l ∧ Waits 0 s l).Reachable s ∧
      s.sent 0 = [0, 0, 0, 0, 0, 0, 0, 7, 0, 2, 0, 0, 0, 0, 0, 0, 0, 21, 0, 0, 0, 0, 0, 0, 0, 22] := by
  obtain ⟨c', hrec, hf, hshown⟩ := @TcpChannelCache.receive_spec 16 ⟨0, List.replicate 16 0, rfl⟩ seven
    (Nat.zero_le _) (by decide)
  have hseven : c'.shown = seven := hshown
  have hcall := @onMessage_long twoAds twoAds_bounded c'.shown (c'.cPackageCache.drop c'.dwCacheAvailableSize.toNat)
    (by rw [hseven]; decide) (by rw [hseven]; decide) .full
  obtain ⟨sent, hhandle⟩ : ∃ sent, handle twoAds oneClient.server 0 (.bytes seven) .full =
      some ({ uses := [.touch, .touch], readPosition := 8 }, sent) :=
    ⟨_, (handle_shown rfl hrec hf ⟨by decide, by decide⟩ .full).trans hcall⟩
  obtain ⟨server, hs, hh⟩ := Option.map_eq_some_iff.mp (show
    (oneClient.server.step (.readable 0 (.bytes seven) { uses := [.touch, .touch], readPosition := 8 })).map
      (fun server => receivedOf (server.history 0)) = some seven by decide)
  have haccept : (service 16 twoAds).step {} (.accept ⟨0, List.replicate 16 0, rfl⟩ true) oneClient :=
    ⟨trivial, rfl⟩
  have hreadable : (service 16 twoAds).step oneClient (.readable 0 (.bytes seven) .full)
      ⟨server, Function.update oneClient.sent 0 (oneClient.sent 0 ++ sent)⟩ := by
    refine ⟨⟨by decide, by decide⟩, ?_⟩
    rw [Service.step, hhandle, Option.bind_some, hs]
    rfl
  have hwaits : Waits 0 oneClient (.readable 0 (.bytes seven) .full) := fun _ => ⟨rfl, by decide⟩
  have hfirst : ((service 16 twoAds).guard fun s l => Whole s l ∧ Waits 0 s l).Reachable oneClient :=
    .allowed (.init rfl) haccept ⟨trivial, trivial⟩
  have hr := hfirst.allowed hreadable ⟨.inr rfl, hwaits⟩
  have hsent := (answers_in_order 16 twoAds twoAds_bounded).2 0 _ hr
  rw [hh] at hsent
  have hreply : replies twoAds seven (seven.length / 8) =
      [0, 0, 0, 0, 0, 0, 0, 7, 0, 2, 0, 0, 0, 0, 0, 0, 0, 21, 0, 0, 0, 0, 0, 0, 0, 22] := by decide
  exact ⟨_, hh, hr, hsent.trans hreply⟩

end SimpleSvr.L5.Tweetadsd
