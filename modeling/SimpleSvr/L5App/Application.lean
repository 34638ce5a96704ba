import Mathlib.Data.List.Nodup
import Mathlib.Data.List.Count

/-!
# Starting the servers of an application (`Application.hpp`, `Pool.cc`)

`RegisterTcpServer` notes a server for `Startup`, which runs the callbacks in
order and gives up at the first that fails. The note is a static object of the
template, one for each server class: a second server of the class overwrites
the pointer of the first, and the callback of the class is run twice.
`startup_complete`: every server is registered with the scheduler once exactly
when no two of them are of one class.

A descriptor that is in the epoll set already is refused (`EEXIST`).
-/
namespace SimpleSvr.L5

/-- A section of the configuration; what is not there reads as the empty string. -/
structure Section where
  port : String := ""
  ip : String := ""
  deriving DecidableEq, Repr

/-- The server objects of a program: their classes (`ServerImplT`), their listening sockets, and
the configuration. -/
structure Setup where
  Server : Type
  Class : Type
  classOf : Server → Class
  socket : Server → Int
  Get : String → Section

/-- A call of `RegisterTcpServer`. -/
structure RegisterCall (S : Setup) where
  server : S.Server
  szConfigName : String

/-- `m_pServer` is of the static `TcpServerStartup` of a class, and a callback is `OnStartup` of
that object; `registered` are the interfaces in the epoll set.
mirrors include/Application.hpp:283-308, include/Pool.hpp:77-80 -/
structure Application (S : Setup) where
  m_pServer : S.Class → Option S.Server := fun _ => none
  m_StartupCallbackList : List S.Class := []
  m_bStartup : Bool := false
  registered : List S.Server := []

namespace Application

variable {S : Setup}

/-- mirrors include/EventScheduler.hpp:97-107 -/
def register (a : Application S) (pService : S.Server) : Application S × Int :=
  if S.socket pService ∈ a.registered.map S.socket then (a, -1)
  else ({ a with registered := a.registered ++ [pService] }, 0)

/-- mirrors include/Application.hpp:299-303 -/
def onStartup (a : Application S) (c : S.Class) : Application S × Bool :=
  match a.m_pServer c with
  | none => (a, false)    -- not reached: `Register` sets the pointer before it makes the callback
  | some pServer => ((a.register pServer).1, (a.register pServer).2 = 0)

/-- mirrors src/Pool.cc:63-69 -/
def runCallbacks : List S.Class → Application S → Application S × Bool
  | [], a => (a, true)
  | c :: cs, a => if (a.onStartup c).2 then runCallbacks cs (a.onStartup c).1 else ((a.onStartup c).1, false)

/-- `ProcessPool::Startup` in one process, up to `Dispatch`; `createPoll` is what `CreateScheduler` returned.
mirrors src/Pool.cc:56-72 -/
def startup (a : Application S) (createPoll : Int) : Application S × Int :=
  if createPoll = -1 then (a, -1)
  else
    let r := runCallbacks a.m_StartupCallbackList { a with m_bStartup := true }
    (r.1, if r.2 then 0 else -1)

variable {a : Application S}

/-! ## Starting -/

theorem onStartup_again {c : S.Class} {o : S.Server} (ho : a.m_pServer c = some o)
    (hin : S.socket o ∈ a.registered.map S.socket) : a.onStartup c = (a, false) := by
  unfold onStartup register
  simp only [ho, if_pos hin]
  rfl

theorem onStartup_new {c : S.Class} {o : S.Server} (ho : a.m_pServer c = some o)
    (hin : S.socket o ∉ a.registered.map S.socket) :
    a.onStartup c = ({ a with registered := a.registered ++ [o] }, true) := by
  unfold onStartup register
  simp only [ho, if_neg hin]
  rfl

/-- The callbacks succeed as long as each registers a new descriptor. -/
theorem runCallbacks_iff (cs : List S.Class) {a : Application S} (hsome : ∀ c ∈ cs, (a.m_pServer c).isSome)
    (hd : (a.registered.map S.socket).Nodup) :
    (runCallbacks cs a).2 = true ↔ ((a.registered ++ cs.filterMap a.m_pServer).map S.socket).Nodup := by
  induction cs generalizing a with
  | nil => simpa [runCallbacks] using hd
  | cons c cs ih =>
    obtain ⟨o, ho⟩ := Option.isSome_iff_exists.mp (hsome c List.mem_cons_self)
    rw [List.filterMap_cons_some ho, runCallbacks]
    by_cases hin : S.socket o ∈ a.registered.map S.socket
    · rw [onStartup_again ho hin]
      refine ⟨nofun, fun hnodup => ?_⟩
      rw [List.map_append] at hnodup
      exact absurd rfl ((List.nodup_append.mp hnodup).2.2 _ hin _ List.mem_cons_self)
    · have hd' : ((a.registered ++ [o]).map S.socket).Nodup := by
        rw [List.map_append]
        refine List.nodup_append.mpr ⟨hd, List.nodup_singleton _, fun x hx y hy => ?_⟩
        rintro rfl
        exact hin (List.mem_singleton.mp hy ▸ hx)
      have hrest := @ih { a with registered := a.registered ++ [o] }
        (fun c hc => hsome c (List.mem_cons_of_mem _ hc)) hd'
      rw [onStartup_new ho hin, if_pos rfl, hrest, List.append_assoc]
      rfl

theorem runCallbacks_registered (cs : List S.Class) {a : Application S} (h : (runCallbacks cs a).2 = true) :
    (runCallbacks cs a).1.registered = a.registered ++ cs.filterMap a.m_pServer := by
  induction cs generalizing a with
  | nil => exact (List.append_nil _).symm
  | cons c cs ih =>
    rw [runCallbacks] at h ⊢
    cases ho : a.m_pServer c with
    | none => simp [onStartup, ho] at h
    | some o =>
      by_cases hin : S.socket o ∈ a.registered.map S.socket
      · simp [onStartup_again ho hin] at h
      · rw [onStartup_new ho hin, if_pos rfl] at h ⊢
        rw [ih h, List.filterMap_cons_some ho, List.append_assoc]
        rfl

/-- A list with a repetition has one after any map that is defined on it. -/
theorem nodup_of_filterMap {α β : Type} {f : α → Option β} {l : List α} (hsome : ∀ x ∈ l, (f x).isSome)
    (h : (l.filterMap f).Nodup) : l.Nodup := by
  induction l with
  | nil => exact .nil
  | cons x l ih =>
    obtain ⟨y, hy⟩ := Option.isSome_iff_exists.mp (hsome x List.mem_cons_self)
    rw [List.filterMap_cons_some hy, List.nodup_cons] at h
    refine List.nodup_cons.mpr ⟨fun hx => h.1 (List.mem_filterMap.mpr ⟨x, hx, hy⟩), ?_⟩
    exact ih (fun z hz => hsome z (List.mem_cons_of_mem _ hz)) h.2

/-! ## Registering -/

variable {calls : List (RegisterCall S)} {call : RegisterCall S} {l : List S.Server}

/-- The servers `l` are registered for startup; the pointer of a class is to one of them. -/
structure Noted (a : Application S) (l : List S.Server) : Prop where
  callbacks : a.m_StartupCallbackList = l.map S.classOf
  held : ∀ o ∈ l, ∃ o' ∈ l, S.classOf o' = S.classOf o ∧ a.m_pServer (S.classOf o) = some o'
  early : a.m_bStartup = false
  none : a.registered = []

theorem Noted.isSome (h : Noted a l) : ∀ c ∈ l.map S.classOf, (a.m_pServer c).isSome := by
  intro c hc
  obtain ⟨o, ho, rfl⟩ := List.mem_map.mp hc
  obtain ⟨o', -, -, hptr⟩ := h.held o ho
  rw [hptr]
  rfl

/-- Where the classes are different, each pointer is the server's own. -/
theorem Noted.filterMap_eq (h : Noted a l) (hc : (l.map S.classOf).Nodup) :
    (l.map S.classOf).filterMap a.m_pServer = l := by
  rw [List.filterMap_map]
  refine (List.filterMap_congr fun o ho => ?_).trans List.filterMap_some
  obtain ⟨o', ho', hcls, hptr⟩ := h.held o ho
  rw [Function.comp_apply, hptr, List.inj_on_of_nodup_map hc ho' ho hcls]

variable [DecidableEq S.Class]

/-- mirrors include/Application.hpp:288-297 -/
def startupRegister (a : Application S) (pServer : S.Server) : Application S :=
  let a := { a with m_pServer := fun c => if c = S.classOf pServer then some pServer else a.m_pServer c }
  if a.m_bStartup then (a.onStartup (S.classOf pServer)).1
  else { a with m_StartupCallbackList := a.m_StartupCallbackList ++ [S.classOf pServer] }

/-- The section of a call has a port and an address. -/
def Configured (call : RegisterCall S) : Prop := (S.Get call.szConfigName).port ≠ "" ∧ (S.Get call.szConfigName).ip ≠ ""

instance (call : RegisterCall S) : Decidable (Configured call) := inferInstanceAs (Decidable (_ ∧ _))

/-- `listen` is what `Listen` returned.
mirrors include/Application.hpp:68-87 -/
def registerTcpServer (a : Application S) (call : RegisterCall S) (listen : Int) : Application S × Bool :=
  if (S.Get call.szConfigName).port = "" ∨ (S.Get call.szConfigName).ip = "" then (a, false)
  else if listen ≠ 0 then (a, false)
  else (a.startupRegister call.server, true)

/-- Calls of `RegisterTcpServer` whose `Listen` succeeds. -/
def registerAll (a : Application S) (calls : List (RegisterCall S)) : Application S :=
  calls.foldl (fun a call => (a.registerTcpServer call 0).1) a

/-- The servers whose registration returned true. -/
def servers (calls : List (RegisterCall S)) : List S.Server := (calls.filter (Configured ·)).map RegisterCall.server

theorem registerTcpServer_not (h : ¬Configured call) : (a.registerTcpServer call 0).1 = a := by
  unfold registerTcpServer
  rw [if_pos (by simpa [Configured, or_iff_not_imp_left] using h)]

theorem registerTcpServer_configured (h : Configured call) (hs : a.m_bStartup = false) :
    (a.registerTcpServer call 0).1 = { a with
      m_pServer := fun c => if c = S.classOf call.server then some call.server else a.m_pServer c
      m_StartupCallbackList := a.m_StartupCallbackList ++ [S.classOf call.server] } := by
  unfold registerTcpServer
  rw [if_neg (not_or.mpr h), if_neg (by decide)]
  simp [startupRegister, hs]

theorem noted_call (h : Noted a l) (call : RegisterCall S) :
    Noted (a.registerTcpServer call 0).1 (l ++ if Configured call then [call.server] else []) := by
  by_cases hc : Configured call
  · rw [registerTcpServer_configured hc h.early, if_pos hc]
    refine ⟨by simp [h.callbacks], fun o ho => ?_, h.early, h.none⟩
    by_cases heq : S.classOf o = S.classOf call.server
    · exact ⟨call.server, by simp, heq.symm, by simp [heq]⟩
    · rcases List.mem_append.mp ho with ho | ho
      · obtain ⟨o', ho', hcls, hptr⟩ := h.held o ho
        exact ⟨o', List.mem_append_left _ ho', hcls, by simp [heq, hptr]⟩
      · rw [List.mem_singleton.mp ho] at heq
        exact absurd rfl heq
  · rw [registerTcpServer_not hc, if_neg hc, List.append_nil]
    exact h

theorem noted_calls (h : Noted a l) (calls : List (RegisterCall S)) :
    Noted (a.registerAll calls) (l ++ servers calls) := by
  induction calls generalizing a l with
  | nil =>
    rw [show l ++ servers [] = l from List.append_nil l]
    exact h
  | cons call calls ih =>
    have hrest := ih (noted_call h call)
    by_cases hc : Configured call
    · simpa [registerAll, servers, hc] using hrest
    · simpa [registerAll, servers, hc] using hrest

theorem noted_registerAll (calls : List (RegisterCall S)) : Noted (registerAll {} calls) (servers calls) := by
  have hnone : Noted ({} : Application S) [] := ⟨rfl, fun _ ho => absurd ho List.not_mem_nil, rfl, rfl⟩
  exact noted_calls hnone calls

/-! ## Both -/

variable [DecidableEq S.Server]

/-- All callbacks succeed and every server is registered once, exactly when no two servers are of
one class. -/
theorem startup_complete (calls : List (RegisterCall S)) (hs : ((servers calls).map S.socket).Nodup) :
    (((registerAll {} calls).startup 0).2 = 0 ∧
      ∀ o ∈ servers calls, ((registerAll {} calls).startup 0).1.registered.count o = 1) ↔
    ((servers calls).map S.classOf).Nodup := by
  have h := noted_registerAll calls
  let b : Application S := { registerAll {} calls with m_bStartup := true }
  have hnone : b.registered = [] := h.none
  have hrun := runCallbacks_iff ((servers calls).map S.classOf) (a := b) h.isSome (by simp [hnone])
  have hreg := @runCallbacks_registered S ((servers calls).map S.classOf) b
  have hstart : (registerAll {} calls).startup 0 = ((runCallbacks ((servers calls).map S.classOf) b).1,
      if (runCallbacks ((servers calls).map S.classOf) b).2 then 0 else -1) := by
    rw [← h.callbacks]
    rfl
  rw [hnone, List.nil_append] at hrun hreg
  rw [hstart]
  constructor
  · intro hstart
    obtain ⟨hret, -⟩ := hstart
    apply nodup_of_filterMap h.isSome
    apply List.Nodup.of_map S.socket
    apply hrun.mp
    by_contra hfail
    simp [hfail] at hret
  · intro hc
    have heq : ((servers calls).map S.classOf).filterMap b.m_pServer = servers calls := h.filterMap_eq hc
    rw [heq] at hrun hreg
    have hok := hrun.mpr hs
    refine ⟨if_pos hok, fun o ho => ?_⟩
    rw [hreg hok]
    exact List.count_eq_one_of_mem (List.Nodup.of_map S.socket hs) ho

/-! ## Two servers -/

/-- Servers 0 and 1 are of one class, server 2 is of another; each has its section. -/
def threeServers : Setup where
  Server := Fin 3
  Class := Bool
  classOf := fun o => o = 2
  socket := fun o => o.val + 3
  Get := fun name => if name = "" then {} else ⟨name, "0.0.0.0"⟩

instance : DecidableEq threeServers.Class := inferInstanceAs (DecidableEq Bool)
instance : DecidableEq threeServers.Server := inferInstanceAs (DecidableEq (Fin 3))

/-- Two servers of the given numbers, on ports 80 and 81. -/
def twoCalls (o o' : Fin 3) : List (RegisterCall threeServers) := [⟨o, "80"⟩, ⟨o', "81"⟩]

/-- Of different classes: both are started. -/
theorem startup_complete_two : ((registerAll {} (twoCalls 0 2)).startup 0).2 = 0 ∧
    ∀ o ∈ servers (twoCalls 0 2), ((registerAll {} (twoCalls 0 2)).startup 0).1.registered.count o = 1 :=
  (startup_complete (twoCalls 0 2) (by decide)).mpr (by decide)

/-- Of one class: the second is registered, the callback fails when it is run again, and the first
is never registered. -/
theorem startup_loses_server : ((servers (twoCalls 0 1)).map threeServers.socket).Nodup ∧
    ((registerAll {} (twoCalls 0 1)).startup 0).2 = -1 ∧
    ((registerAll {} (twoCalls 0 1)).startup 0).1.registered = [(1 : Fin 3)] :=
  ⟨by decide, by decide, rfl⟩

end Application
end SimpleSvr.L5
