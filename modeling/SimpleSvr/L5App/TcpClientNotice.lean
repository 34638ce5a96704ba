import SimpleSvr.L5App.TcpClient
import Mathlib.Data.List.Infix

/-!
# Disconnect notifications

`Disconnect` calls `OnDisconnected` whether or not the client was ever told
that it is connected. `Notices` adds to the client of `TcpClient` what else
reaches `Disconnect`: the `Connect` that waits while the pool has not started,
`Erase` and the idle timer of a `ConnectionPool`, and the destructor of its
record.

`connects` and `disconnects` are tables of calls, events and their outcomes:
which of them complete a connection attempt, and which lead to `Disconnect`.
`up` follows them, and knows nothing of the callbacks. `Due` is the condition
that nothing leads to `Disconnect` while `up` is false; in the runs that keep
it, and in no others, the two callbacks match at every moment
(`notices_matched`).

A record is deleted while `Disconnect` waits for its callback, which may use the
client in between: `deletion` is what the pool goes on with, and how many
callbacks were running when it called.
-/
namespace SimpleSvr.L5.TcpClient

variable {CacheSize : UInt32}

inductive Notice where
  | connected
  | disconnected
  deriving DecidableEq, Repr

/-! ## Matching -/

/-- As many disconnects as connects at most, and a connect between two of them. Newest first. -/
def Matched (log : List Notice) : Prop :=
  log.count .disconnected ≤ log.count .connected ∧
    ∀ post mid pre, log = post ++ .disconnected :: (mid ++ .disconnected :: pre) → .connected ∈ mid

/-- What comes before each disconnect is a connect. -/
def Paired : List Notice → Prop
  | [] => True
  | .connected :: log => Paired log
  | .disconnected :: log => log.head? = some .connected ∧ Paired log

theorem Paired.tail : ∀ {n : Notice} {l : List Notice}, Paired (n :: l) → Paired l
  | .connected, _, h => h
  | .disconnected, _, h => h.2

theorem Paired.count : ∀ {l : List Notice}, Paired l → l.count .disconnected ≤ l.count .connected
  | [], _ => Nat.le_refl _
  | .connected :: l, h => by
    have := Paired.count h.tail
    simp only [List.count_cons_self, List.count_cons_of_ne (show Notice.connected ≠ .disconnected by decide)]
    omega
  | [.disconnected], h => nomatch h.1
  | .disconnected :: .disconnected :: l, h => nomatch h.1
  | .disconnected :: .connected :: l, h => by
    have := Paired.count h.tail.tail
    simp only [List.count_cons_self, List.count_cons_of_ne (show Notice.connected ≠ .disconnected by decide),
      List.count_cons_of_ne (show Notice.disconnected ≠ .connected by decide)]
    omega

theorem Paired.suffix : ∀ {post l : List Notice}, Paired (post ++ l) → Paired l
  | [], _, h => h
  | _ :: _, _, h => Paired.suffix h.tail

theorem Paired.between {log post mid pre : List Notice} (h : Paired log)
    (e : log = post ++ .disconnected :: (mid ++ .disconnected :: pre)) : .connected ∈ mid := by
  subst e
  have hhead := h.suffix.1
  cases mid with
  | nil => cases hhead
  | cons n mid =>
    cases hhead
    exact List.mem_cons_self

/-- The log was matched at every moment. -/
theorem paired_iff {log : List Notice} : Paired log ↔ ∀ t, t <:+ log → Matched t := by
  constructor
  · intro h t hsuffix
    obtain ⟨post, rfl⟩ := hsuffix
    exact ⟨h.suffix.count, fun _ _ _ e => h.suffix.between e⟩
  · intro h
    induction log with
    | nil => trivial
    | cons n log ih =>
      have hlog := ih fun t ht => h t (ht.trans (List.suffix_cons n log))
      obtain ⟨hcount, hbetween⟩ := h _ (List.suffix_refl _)
      cases n with
      | connected => exact hlog
      | disconnected =>
        refine ⟨?_, hlog⟩
        rcases log with - | ⟨_ | _, log⟩
        · simp at hcount
        · rfl
        · exact absurd (hbetween [] [] log rfl) List.not_mem_nil

/-! ## The callbacks of a client -/

/-- The callback that a step of the client calls, where it is one of the two. -/
def Run.noticed (u : Run CacheSize) : Label → Option Notice
  | .connect fd ok => if ok = true ∧ (u.openSocket fd).isSome then some .connected else none
  | .disconnect | .reconnect => some .disconnected
  | .writeable ok => if ok then some .connected else none
  | .readable recv =>
    if u.client.Data.dwRemainSize ≤ 0 then some .disconnected
    else
      match recv with
      | .bytes [] => some .disconnected
      | _ => none
  | .ret _ fd ok =>
    match u.stack with
    | .disconnect :: _ => some .disconnected
    | .close true :: _ => if ok = true ∧ fd.isSome then some .connected else none
    | _ => none
  | _ => none

/-- The callback that runs in a frame. -/
def Frame.notice : Frame → Option Notice
  | .register | .update => some .connected
  | .close _ => some .disconnected
  | .disconnect | .message .. => none

/-- A step calls a callback, whose frame it puts on the stack, or none. -/
def Calls (u u' : Run CacheSize) (l : Label) : Prop :=
  (u.noticed l = none ∧ (u'.stack = u.stack ∨ u'.stack = u.stack.tail)) ∨
    ∃ f, u.noticed l = Frame.notice f ∧ (u'.stack = f :: u.stack ∨ u'.stack = f :: u.stack.tail)

variable {u u' u₁ : Run CacheSize} {fd : Option Nat} {ok : Bool}

theorem openSocket_stack (h : u.openSocket fd = some u₁) : u₁.stack = u.stack := by
  rw [Run.openSocket] at h
  split at h
  · cases h
    rfl
  · obtain ⟨fd, -, rfl⟩ := Option.map_eq_some_iff.mp h
    rfl

/-- What `Connect` does to the stack. -/
theorem connect_stack (u : Run CacheSize) (fd : Option Nat) (ok : Bool) :
    (u.connect fd ok).stack =
      if ok = true ∧ (u.openSocket fd).isSome then .register :: u.stack else u.stack := by
  unfold Run.connect
  cases h : u.openSocket fd with
  | none => simp
  | some u₁ => cases ok <;> simp [Run.establish, openSocket_stack h]

theorem readable_calls {recv : Recv} (hs : u.onReadable recv = some u') : Calls u u' (.readable recv) := by
  unfold Run.onReadable at hs
  split at hs
  · next hfull =>
    cases hs
    exact .inr ⟨.close false, if_pos hfull, .inl rfl⟩
  · next hroom =>
    rcases recv with - | ⟨- | ⟨b, chunk⟩⟩
    · cases hs
      exact .inl ⟨if_neg hroom, .inl rfl⟩
    · cases hs
      exact .inr ⟨.close false, if_neg hroom, .inl rfl⟩
    · obtain ⟨c, -, hs⟩ := Option.bind_eq_some_iff.mp hs
      cases hs
      exact .inr ⟨.message c.message.availableReadSize u.conn, if_neg hroom, .inl rfl⟩

theorem ret_calls {f : Frame} {rest : List Frame} {readPosition : UInt64} (hst : u.stack = f :: rest)
    (hs : { u with stack := rest }.resume readPosition fd ok f = some u') :
    Calls u u' (.ret readPosition fd ok) := by
  have htail : u.stack.tail = rest := by rw [hst, List.tail_cons]
  cases f with
  | register =>
    cases hs
    exact .inl ⟨by simp [Run.noticed, hst], .inr htail.symm⟩
  | update =>
    cases hs
    exact .inl ⟨by simp [Run.noticed, hst], .inr htail.symm⟩
  | disconnect =>
    cases hs
    exact .inr ⟨.close false, by simp [Run.noticed, Frame.notice, hst], .inr (by rw [htail]; rfl)⟩
  | message readSize conn =>
    obtain ⟨c, -, hs⟩ := Option.bind_eq_some_iff.mp hs
    cases hs
    exact .inl ⟨by simp [Run.noticed, hst], .inr htail.symm⟩
  | close reconnect =>
    cases reconnect with
    | false =>
      cases hs
      exact .inl ⟨by simp [Run.noticed, hst], .inr htail.symm⟩
    | true =>
      cases hs
      have hopen : ({ u with stack := rest }.close.openSocket fd).isSome = fd.isSome := Option.isSome_map
      have hstack := connect_stack { u with stack := rest }.close fd ok
      rw [hopen] at hstack
      by_cases hc : ok = true ∧ fd.isSome
      · rw [if_pos hc] at hstack
        exact .inr ⟨.register, by simp [Run.noticed, Frame.notice, hst, hc], .inr (by rw [htail]; exact hstack)⟩
      · rw [if_neg hc] at hstack
        exact .inl ⟨by simp [Run.noticed, hst, hc], .inr (by rw [htail]; exact hstack)⟩

/-- `noticed` names the callback of the frame that the step leaves. -/
theorem step_calls {l : Label} (hs : u.step l = some u') : Calls u u' l := by
  cases l with
  | connect fd ok =>
    cases hs
    have hstack := connect_stack u fd ok
    by_cases hc : ok = true ∧ (u.openSocket fd).isSome
    · rw [if_pos hc] at hstack
      exact .inr ⟨.register, if_pos hc, .inl hstack⟩
    · rw [if_neg hc] at hstack
      exact .inl ⟨if_neg hc, .inl hstack⟩
  | connectTimeout fd ok timerId =>
    cases hs
    refine .inl ⟨rfl, .inl ?_⟩
    unfold Run.connectTimeout
    cases h : u.openSocket fd with
    | none => rfl
    | some u₁ =>
      have hst := openSocket_stack h
      cases ok <;> exact hst
  | close =>
    cases hs
    exact .inl ⟨rfl, .inl rfl⟩
  | disconnect =>
    cases hs
    exact .inr ⟨.close false, rfl, .inl rfl⟩
  | reconnect =>
    cases hs
    exact .inr ⟨.close true, rfl, .inl rfl⟩
  | writeable ok =>
    cases hs
    cases ok with
    | false => exact .inr ⟨.disconnect, rfl, .inl rfl⟩
    | true => exact .inr ⟨.update, rfl, .inl rfl⟩
  | readable recv => exact readable_calls hs
  | errorable =>
    cases hs
    exact .inr ⟨.disconnect, rfl, .inl rfl⟩
  | timeout timerId =>
    cases hs
    exact .inr ⟨.disconnect, rfl, .inl rfl⟩
  | ret readPosition fd ok =>
    cases hst : u.stack with
    | nil =>
      rw [Run.step, hst] at hs
      cases hs
      exact .inl ⟨by simp [Run.noticed, hst], .inl rfl⟩
    | cons f rest =>
      rw [Run.step, hst] at hs
      exact ret_calls hst hs
  | throw =>
    cases hs
    exact .inl ⟨rfl, .inr rfl⟩
  | otherSet timerId =>
    cases hs
    exact .inl ⟨rfl, .inl rfl⟩
  | otherDrop timerId =>
    cases hs
    exact .inl ⟨rfl, .inl rfl⟩

/-! ## With a pool -/

/-- What the pool waits for while a record is deleted: the `Disconnect` of `Erase`, or that of the destructor. -/
inductive Deletion where
  | erase
  | destructor
  deriving DecidableEq, Repr

/-- A client by itself, or the one in a record of a `ConnectionPool`. -/
structure Notices (CacheSize : UInt32) where
  run : Run CacheSize
  owned : Bool
  /-- `Pool::IsStartup` -/
  started : Bool
  deletion : Option (Deletion × Nat) := none
  deleted : Bool := false
  /-- a connection attempt was completed, and nothing led to `Disconnect` since -/
  up : Bool := false
  log : List Notice := []

inductive Act where
  | client (l : Label)
  /-- `Connect(addr, timeout)` before the pool starts; `iRet` is what `Wait` returns, and
  `errinfo` whether the socket has an error -/
  | connectWait (fd : Option Nat) (ok : Bool) (iRet : Int) (errinfo : Bool)
  | startup
  | erase (established : Bool)
  | expire

namespace Notices

/-- mirrors include/TcpClient.hpp:68-134 -/
def connectWait (s : Notices CacheSize) (fd : Option Nat) (ok : Bool) (iRet : Int) (errinfo : Bool) :
    Notices CacheSize :=
  match s.run.openSocket fd with
  | none => s
  | some u =>
    if ok then
      let u := u.establish
      if iRet = -1 then { s with run := u }
      else if iRet = 0 ∨ errinfo then
        -- `OnConnectTimout`, then `Disconnect`
        { s with run := { u with stack := .disconnect :: u.stack } }
      else
        -- nothing is left to do after `OnConnected`
        { s with
          run := { u with connected := true, stack := .register :: u.stack }
          log := .connected :: s.log }
    else { s with run := u }

/-- `Disconnect`, called by the pool. -/
def disconnect (s : Notices CacheSize) (d : Deletion) (depth : Nat) : Notices CacheSize :=
  { s with run := s.run.disconnect false, deletion := some (d, depth), log := .disconnected :: s.log }

/-- `stClient.IsConnected()`; `established` is what `getsockopt` tells.
mirrors include/TcpClient.hpp:258-273 -/
def isConnected (s : Notices CacheSize) (established : Bool) : Bool := s.run.client.Socket.isSome && established

/-- `delete pConnInfo` calls the destructor of the record.
mirrors include/ConnectionPool.hpp:53-56, 228-238 -/
def erase (s : Notices CacheSize) (established : Bool) : Notices CacheSize :=
  s.disconnect (if s.isConnected established then .erase else .destructor) s.run.stack.length

/-- The callback that runs innermost is the `OnDisconnected` that the pool waits for. -/
def waited (s : Notices CacheSize) : Option (Deletion × Nat) :=
  s.deletion.filter fun d => s.run.stack.length = d.2 + 1

/-- `Disconnect` is back in the pool. -/
def resume (s : Notices CacheSize) : Deletion × Nat → Notices CacheSize
  | (.erase, depth) => s.disconnect .destructor depth
  | (.destructor, _) => { s with deletion := none, deleted := true }

/-- An exception leaves `Disconnect`. `Erase` passes it on, and the record stays. -/
def unwind (s : Notices CacheSize) : Deletion → Notices CacheSize
  | .erase => { s with deletion := none }
  | .destructor => { s with deletion := none, deleted := true }

/-- The client made the step `l` to `u`. The function that `waited` is about ends with `close`, which calls nothing. -/
def moved (s : Notices CacheSize) (u : Run CacheSize) (l : Label) : Notices CacheSize :=
  match l, s.waited with
  | .ret .., some d => { s with run := u }.resume d
  | .throw, some d => { s with run := u }.unwind d.1
  | _, _ => { s with run := u, log := (s.run.noticed l).toList ++ s.log }

/-- A socket is there, or `socket` gives one. -/
def hasSocket (s : Notices CacheSize) (fd : Option Nat) : Bool := s.run.client.Socket.isSome || fd.isSome

/-- The outcomes that complete an attempt: a `connect` that is successful, for the `Connect` that waits also a
`Wait` that ends with the socket writable and no error on it, and a writable event with no error on the socket.
The `Connect` of `Reconnect` is made when its `Disconnect` is back, with a new socket. -/
def connects (s : Notices CacheSize) : Act → Bool
  | .client (.connect fd ok) => ok && s.hasSocket fd
  | .client (.writeable ok) => ok
  | .client (.ret _ fd ok) =>
    match s.waited, s.run.stack with
    | none, .close true :: _ => ok && fd.isSome
    | _, _ => false
  | .connectWait fd ok iRet errinfo => ok && s.hasSocket fd && iRet ≠ -1 && iRet ≠ 0 && !errinfo
  | _ => false

/-- What leads to `Disconnect`: a call of it or of `Reconnect`, a readable event that finds the cache full or
the end of the stream, the return of `OnError` or `OnConnectTimout`, `Erase` and idle expiry, and the destructor
of the record when the `Disconnect` of `Erase` is back. -/
def disconnects (s : Notices CacheSize) : Act → Bool
  | .client .disconnect | .client .reconnect | .erase _ | .expire => true
  | .client (.readable (.bytes [])) => true
  | .client (.readable _) => s.run.client.Data.dwRemainSize ≤ 0
  | .client (.ret ..) =>
    match s.waited, s.run.stack with
    | some (.erase, _), _ => true
    | none, .disconnect :: _ => true
    | _, _ => false
  | _ => false

/-- What the code does; `up` is left to `step`. -/
def act (s : Notices CacheSize) : Act → Option (Notices CacheSize)
  | .client l => (s.run.step l).map fun u => s.moved u l
  | .connectWait fd ok iRet errinfo => some (s.connectWait fd ok iRet errinfo)
  | .startup => some { s with started := true }
  | .erase established => some (s.erase established)
  | .expire => some (s.disconnect .destructor 0)

def step (s : Notices CacheSize) (a : Act) : Option (Notices CacheSize) :=
  (s.act a).map fun s' => { s' with up := s.connects a || s.up && !s.disconnects a }

/-- Events, timers and `SetTimeout` need a pool that has started; the pool deletes a record once. -/
def enabled (s : Notices CacheSize) (a : Act) : Prop :=
  s.deleted = false ∧
    match a with
    | .client l => TcpClient.enabled s.run l ∧
      match l with
      | .connectTimeout .. | .writeable _ | .readable _ | .errorable | .timeout _ => s.started = true
      | _ => True
    | .connectWait .. => s.started = false
    | .startup => s.started = false
    | .erase _ => s.owned = true ∧ s.deletion = none
    | .expire => s.owned = true ∧ s.started = true ∧ s.deletion = none ∧ s.run.stack = []

instance (s : Notices CacheSize) : (a : Act) → Decidable (enabled s a)
  | .client (.connectTimeout ..) | .client (.writeable _) | .client (.readable _) | .client .errorable
  | .client (.timeout _) => inferInstanceAs (Decidable (_ ∧ _ ∧ _ = true))
  | .client (.connect ..) | .client .close | .client .disconnect | .client .reconnect | .client (.ret ..)
  | .client .throw | .client (.otherSet _) | .client (.otherDrop _) => inferInstanceAs (Decidable (_ ∧ _ ∧ True))
  | .connectWait .. | .startup | .erase _ | .expire => inferInstanceAs (Decidable (_ ∧ _))

def notices (CacheSize : UInt32) : LTS (Notices CacheSize) Act where
  init s := ∃ cache owned started, s = { run := { client := new cache }, owned, started }
  step s a s' := enabled s a ∧ s.step a = some s'

/-- `Disconnect` is reached only while a connection that was made is up. -/
def Due (s : Notices CacheSize) (a : Act) : Prop := s.disconnects a = true → s.up = true

variable {s s' : Notices CacheSize}

/-! ## One step -/

/-- Which callback a step calls is told by the two tables. -/
inductive Logged (s s' : Notices CacheSize) (connects disconnects : Bool) : Prop
  | same (h : s'.log = s.log) (hc : connects = false) (hd : disconnects = false)
  | connected (h : s'.log = .connected :: s.log) (hc : connects = true) (hd : disconnects = false)
  | disconnected (h : s'.log = .disconnected :: s.log) (hc : connects = false) (hd : disconnects = true)

theorem openSocket_isSome (s : Notices CacheSize) (fd : Option Nat) :
    (s.run.openSocket fd).isSome = s.hasSocket fd := by
  unfold Run.openSocket hasSocket
  cases s.run.client.Socket with
  | none => exact Option.isSome_map
  | some _ => rfl

theorem noticed_logged {o : Option Notice} {c d : Bool} (h : s'.log = o.toList ++ s.log)
    (hc : c = decide (o = some .connected)) (hd : d = decide (o = some .disconnected)) : Logged s s' c d := by
  rcases o with - | ⟨- | -⟩
  · exact .same h hc hd
  · exact .connected h hc hd
  · exact .disconnected h hc hd

/-- The callback of a step of the client is in the tables, where the pool does not wait for it. -/
theorem tables_noticed {l : Label} (hw : ∀ readPosition fd ok, l = .ret readPosition fd ok → s.waited = none) :
    s.connects (.client l) = decide (s.run.noticed l = some .connected) ∧
      s.disconnects (.client l) = decide (s.run.noticed l = some .disconnected) := by
  cases l with
  | connect fd ok =>
    have hsocket := s.openSocket_isSome fd
    simp only [connects, disconnects, Run.noticed, hsocket]
    cases ok <;> cases s.hasSocket fd <;> exact ⟨rfl, rfl⟩
  | writeable ok => cases ok <;> exact ⟨rfl, rfl⟩
  | readable recv =>
    by_cases hfull : s.run.client.Data.dwRemainSize ≤ 0
    · rcases recv with - | ⟨- | ⟨b, chunk⟩⟩ <;> simp [connects, disconnects, Run.noticed, hfull]
    · rcases recv with - | ⟨- | ⟨b, chunk⟩⟩ <;> simp [connects, disconnects, Run.noticed, hfull]
  | ret readPosition fd ok =>
    have hwait := hw _ _ _ rfl
    unfold connects disconnects Run.noticed
    cases s.run.stack with
    | nil => simp [hwait]
    | cons f rest =>
      rcases f with - | - | - | ⟨- | -⟩ | -
      case close.true => cases ok <;> cases fd <;> simp [hwait]
      all_goals simp [hwait]
  | _ => exact ⟨rfl, rfl⟩

theorem moved_logged (s : Notices CacheSize) (u : Run CacheSize) (l : Label) :
    Logged s (s.moved u l) (s.connects (.client l)) (s.disconnects (.client l)) := by
  unfold moved
  split
  · next d hw =>
    -- the pool goes on: `Erase` deletes the record, which disconnects once more
    obtain ⟨- | -, depth⟩ := d
    · exact .disconnected rfl (by simp [connects, hw]) (by simp [disconnects, hw])
    · exact .same rfl (by simp [connects, hw]) (by simp [disconnects, hw])
  · next d hw =>
    obtain ⟨- | -, depth⟩ := d
    · exact .same rfl rfl rfl
    · exact .same rfl rfl rfl
  · next hret _ =>
    obtain ⟨hc, hd⟩ := @tables_noticed _ s _ fun readPosition fd ok hl => by
      cases hw : s.waited with
      | none => rfl
      | some d => exact (hret _ _ _ _ hl hw).elim
    exact noticed_logged rfl hc hd

theorem connectWait_logged (s : Notices CacheSize) (fd : Option Nat) (ok : Bool) (iRet : Int) (errinfo : Bool) :
    Logged s (s.connectWait fd ok iRet errinfo) (s.connects (.connectWait fd ok iRet errinfo)) false := by
  have hsocket := s.openSocket_isSome fd
  simp only [connects, ← hsocket]
  unfold connectWait
  cases s.run.openSocket fd with
  | none => exact .same rfl (by simp) rfl
  | some u =>
    cases ok with
    | false => exact .same rfl (by simp) rfl
    | true =>
      by_cases hfail : iRet = -1
      · simp only [hfail]
        exact .same rfl (by simp) rfl
      · by_cases htimeout : iRet = 0 ∨ errinfo
        · simp only [if_neg hfail, if_pos htimeout]
          exact .same rfl (by rcases htimeout with h | h <;> simp [h]) rfl
        · simp only [if_neg hfail, if_neg htimeout]
          obtain ⟨h0, herr⟩ := not_or.mp htimeout
          exact .connected rfl (by simp [hfail, h0, herr]) rfl

theorem act_logged {a : Act} (hs : s.act a = some s') : Logged s s' (s.connects a) (s.disconnects a) := by
  cases a with
  | client l =>
    obtain ⟨u, -, rfl⟩ := Option.map_eq_some_iff.mp hs
    exact moved_logged s u l
  | connectWait fd ok iRet errinfo =>
    cases hs
    exact connectWait_logged s fd ok iRet errinfo
  | startup =>
    cases hs
    exact .same rfl rfl rfl
  | erase established =>
    cases hs
    exact .disconnected rfl rfl rfl
  | expire =>
    cases hs
    exact .disconnected rfl rfl rfl

/-- `up` follows the tables, and the newest notification follows the callbacks. -/
def Follows (s : Notices CacheSize) : Prop := s.up = true ↔ s.log.head? = some .connected

theorem step_spec {a : Act} (hs : s.step a = some s') :
    Logged s s' (s.connects a) (s.disconnects a) ∧ s'.up = (s.connects a || s.up && !s.disconnects a) := by
  obtain ⟨s₁, h₁, rfl⟩ := Option.map_eq_some_iff.mp hs
  refine ⟨?_, rfl⟩
  cases act_logged h₁ with
  | same h hc hd => exact .same h hc hd
  | connected h hc hd => exact .connected h hc hd
  | disconnected h hc hd => exact .disconnected h hc hd

theorem step_follows {a : Act} (hf : s.Follows) (hs : s.step a = some s') : s'.Follows := by
  obtain ⟨hlog, hup⟩ := step_spec hs
  unfold Follows at hf ⊢
  rw [hup]
  cases hlog with
  | same h hc hd => simpa [h, hc, hd] using hf
  | connected h hc hd => simp [h, hc]
  | disconnected h hc hd => simp [h, hc, hd]

theorem follows_reachable (hr : (notices CacheSize).Reachable s) : s.Follows := by
  induction hr with
  | init h0 =>
    obtain ⟨cache, owned, started, rfl⟩ := h0
    exact ⟨nofun, nofun⟩
  | step _ hs ih => exact step_follows ih hs.2

theorem step_paired {a : Act} (hf : s.Follows) (hs : s.step a = some s') :
    Paired s'.log ↔ Paired s.log ∧ s.Due a := by
  unfold Due
  rw [show s.up = true ↔ s.log.head? = some .connected from hf]
  cases (step_spec hs).1 with
  | same h hc hd =>
    rw [h, hd]
    exact (and_iff_left nofun).symm
  | connected h hc hd =>
    rw [h, hd]
    exact (and_iff_left nofun).symm
  | disconnected h hc hd =>
    rw [h, hd]
    exact ⟨fun hp => ⟨hp.2, fun _ => hp.1⟩, fun hp => ⟨hp.2 rfl, hp.1⟩⟩

/-! ## Runs -/

/-- A run whose calls of `Disconnect` are all due is one in which the notifications
matched at every moment, and there are no others. -/
theorem notices_matched (s : Notices CacheSize) :
    ((notices CacheSize).guard Due).Reachable s ↔
      (notices CacheSize).Reachable s ∧ ∀ t, t <:+ s.log → Matched t := by
  have h0 : ∀ s, (notices CacheSize).init s → Paired s.log := by
    intro s hs
    obtain ⟨cache, owned, started, rfl⟩ := hs
    trivial
  rw [← paired_iff]
  exact LTS.guard_reachable h0 (fun _ _ _ hr hs => step_paired (follows_reachable hr) hs.2) s

/-- Connected, and erased: `Erase` disconnects, and so does the destructor. -/
def erasedCalls : List Act := [.client (.connect (some 5) true), .client (.ret 0 none false), .erase true,
  .client (.ret 0 none false), .client (.ret 0 none false)]

/-- An attempt that times out. -/
def timedOutCalls : List Act := [.client (.connectTimeout (some 5) true 1), .client (.timeout 1),
  .client (.ret 0 none false)]

/-- A client in a record of a pool that has started. -/
def record : Notices 4 := { run := TcpClient.start, owned := true, started := true }

theorem record_reachable {calls : List Act} {s : Notices 4}
    (e : calls.foldlM (LTS.checked enabled step) record = some s) : (notices 4).Reachable s :=
  LTS.Reachable.checked (fun _ _ _ => And.intro) _ (.init ⟨_, true, true, rfl⟩) e

/-- The attempt was never connected, and the client that was is told twice that it is not. -/
theorem notices_unmatched :
    (∃ s, (notices 4).Reachable s ∧ s.log = [.disconnected] ∧ ¬Matched s.log) ∧
    ∃ s, (notices 4).Reachable s ∧ s.log = [.disconnected, .disconnected, .connected] ∧ ¬Matched s.log := by
  constructor
  · have hrun : (timedOutCalls.foldlM (LTS.checked enabled step) record).map log = some [.disconnected] := by decide
    obtain ⟨s, e, hlog⟩ := Option.map_eq_some_iff.mp hrun
    refine ⟨s, record_reachable e, hlog, fun h => ?_⟩
    rw [hlog] at h
    exact absurd h.1 (by decide)
  · have hrun : (erasedCalls.foldlM (LTS.checked enabled step) record).map log =
        some [.disconnected, .disconnected, .connected] := by decide
    obtain ⟨s, e, hlog⟩ := Option.map_eq_some_iff.mp hrun
    refine ⟨s, record_reachable e, hlog, fun h => ?_⟩
    exact List.not_mem_nil (h.2 [] [] [.connected] hlog)

end Notices
end SimpleSvr.L5.TcpClient
