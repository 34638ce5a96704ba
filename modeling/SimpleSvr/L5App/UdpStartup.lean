import SimpleSvr.Core.Bytes
import Mathlib.Data.List.Perm.Basic
import Mathlib.Data.List.Nodup
import Mathlib.Data.List.Range
import Mathlib.Logic.Function.Basic

/-!
# UDP ports of the workers (`Application.hpp`, `Pool.cc`)

`UdpServerStartup::OnStartup` adds the worker's id to the port it was registered
with and converts the sum to network order, in place. Forked workers each
convert a copy of their own; threads share one object, so the second one adds
its id to a port that is in network order already.

`ports_iff`: the worker with id `i` listens on the port `i` above the configured
one for processes, for one thread, and for two where the bytes happen to fit;
but where that is 0, which asks for any port.
-/
namespace SimpleSvr.L5

inductive Pool where
  | processes
  | threads
  deriving DecidableEq

namespace UdpServerStartup

/-- The byte swap of a little-endian host; `ntohs` is the same. -/
def htons (x : UInt16) : UInt16 := UInt16.ofNat (x.toNat % 256 * 256 + x.toNat / 256)

/-- `m_Data.sin_port` in every address space; the ports that sockets of the program are bound to, and
each worker's. -/
structure Startup where
  m_Data : Nat → UInt16
  taken : List UInt16
  listening : Nat → Option UInt16

/-- The address space of a worker. -/
def space : Pool → Nat → Nat
  | .processes, id => id
  | .threads, _ => 0

/-- `atoi` leaves the port in host order; a fork copies it.
mirrors include/Application.hpp:50-66 -/
def RegisterUdpServer (port : Nat) : Startup :=
  { m_Data := fun _ => UInt16.ofNat port, taken := [], listening := fun _ => none }

/-- The port that a socket is bound to: none that is in use, and for 0 what the kernel picks. -/
def bind (pick : List UInt16 → Option UInt16) (taken : List UInt16) (port : UInt16) : Option UInt16 :=
  if port = 0 then pick taken
  else if port ∈ taken then none
  else some port

/-- mirrors include/UdpServer.hpp:27-39 -/
def Listen (pick : List UInt16 → Option UInt16) (s : Startup) (id : Nat) (sin_port : UInt16) : Startup :=
  match bind pick s.taken (htons sin_port) with
  | none => s
  | some port => { s with
    taken := port :: s.taken
    listening := Function.update s.listening id (some port) }

/-- The callback in the worker with this id.
mirrors include/Application.hpp:267-275 -/
def OnStartup (pick : List UInt16 → Option UInt16) (pool : Pool) (s : Startup) (id : Nat) : Startup :=
  let sin_port := htons (s.m_Data (space pool id) + UInt16.ofNat id)
  Listen pick { s with m_Data := Function.update s.m_Data (space pool id) sin_port } id sin_port

/-- The workers run the callback one after the other. -/
def run (pick : List UInt16 → Option UInt16) (pool : Pool) (port : Nat) (order : List Nat) : Startup :=
  order.foldl (OnStartup pick pool) (RegisterUdpServer port)

/-- The kernel picks free ports, if any. -/
def Picks (pick : List UInt16 → Option UInt16) : Prop := ∀ taken, ∀ port ∈ pick taken, port ≠ 0 ∧ port ∉ taken

/-- Every worker listens on its own port, whatever the kernel picks for others. -/
def OwnPorts (pool : Pool) (port n : Nat) (order : List Nat) : Prop :=
  ∀ pick, Picks pick → ∀ id < n, (run pick pool port order).listening id = some (UInt16.ofNat (port + id))

/-! ## One callback -/

theorem toNat_htons (x : UInt16) : (htons x).toNat = x.toNat % 256 * 256 + x.toNat / 256 := by
  have hx := x.toNat_lt
  rw [htons, UInt16.toNat_ofNat']
  omega

theorem htons_htons (x : UInt16) : htons (htons x) = x := by
  have hx := x.toNat_lt
  rw [← UInt16.toNat_inj, toNat_htons, toNat_htons]
  omega

theorem htons_injective : Function.Injective htons := fun x y h => by
  rw [← htons_htons x, h, htons_htons]

variable {pick : List UInt16 → Option UInt16} {pool : Pool} {s : Startup} {id : Nat}

/-- The port that the callback asks for. -/
def asked (pool : Pool) (s : Startup) (id : Nat) : UInt16 := s.m_Data (space pool id) + UInt16.ofNat id

/-- What the callback changes: the port in its address space, and what the kernel notes of a socket that
it could bind. -/
theorem onStartup_eq (pick : List UInt16 → Option UInt16) (pool : Pool) (s : Startup) (id : Nat) :
    OnStartup pick pool s id =
      { m_Data := Function.update s.m_Data (space pool id) (htons (asked pool s id))
        taken := (bind pick s.taken (asked pool s id)).toList ++ s.taken
        listening := (bind pick s.taken (asked pool s id)).elim s.listening fun port =>
          Function.update s.listening id (some port) } := by
  have hswap : htons (htons (s.m_Data (space pool id) + UInt16.ofNat id)) = asked pool s id := htons_htons _
  unfold OnStartup Listen
  simp only [hswap]
  cases bind pick s.taken (asked pool s id) with
  | none => rfl
  | some port => rfl

theorem onStartup_data (pick : List UInt16 → Option UInt16) (pool : Pool) (s : Startup) (id : Nat) :
    (OnStartup pick pool s id).m_Data = Function.update s.m_Data (space pool id) (htons (asked pool s id)) := by
  rw [onStartup_eq]

theorem onStartup_free (h0 : asked pool s id ≠ 0) (h : asked pool s id ∉ s.taken) :
    (OnStartup pick pool s id).taken = asked pool s id :: s.taken ∧
      (OnStartup pick pool s id).listening = Function.update s.listening id (some (asked pool s id)) := by
  have hbind : bind pick s.taken (asked pool s id) = some (asked pool s id) := by
    rw [bind, if_neg h0, if_neg h]
  rw [onStartup_eq, hbind]
  exact ⟨rfl, rfl⟩

theorem onStartup_ne {id' : Nat} (h : id' ≠ id) :
    (OnStartup pick pool s id).listening id' = s.listening id' := by
  rw [onStartup_eq]
  cases bind pick s.taken (asked pool s id) with
  | none => rfl
  | some port => exact Function.update_of_ne h _ _

/-- A worker that does not run again keeps its port. -/
theorem foldl_listening {order : List Nat} (h : id ∉ order) :
    (order.foldl (OnStartup pick pool) s).listening id = s.listening id := by
  induction order generalizing s with
  | nil => rfl
  | cons id' order ih =>
    rw [List.mem_cons, not_or] at h
    rw [List.foldl_cons, ih h.2, onStartup_ne h.1]

/-! ## A kernel without free ports -/

def noneFree : List UInt16 → Option UInt16 := fun _ => none

theorem picks_noneFree : Picks noneFree := fun _ _ => nofun

/-- A worker listens on the port it asks for or not at all. -/
theorem onStartup_self (h : s.listening id = none) {port : UInt16}
    (hl : (OnStartup noneFree pool s id).listening id = some port) : asked pool s id = port ∧ port ≠ 0 := by
  rw [onStartup_eq] at hl
  cases hb : bind noneFree s.taken (asked pool s id) with
  | none =>
    rw [hb, Option.elim_none, h] at hl
    cases hl
  | some bound =>
    have hself : Function.update s.listening id (some bound) id = some port := by rwa [hb] at hl
    rw [Function.update_self] at hself
    obtain rfl : bound = port := Option.some.inj hself
    rw [bind, noneFree] at hb
    simp only [Option.ite_none_left_eq_some, Option.some.injEq] at hb
    obtain ⟨h0, -, heq⟩ := hb
    exact ⟨heq, heq ▸ h0⟩

/-- What a worker asked for that listens. -/
theorem run_self {before after : List Nat} (hb : id ∉ before) (ha : id ∉ after) {port : Nat} {p : UInt16}
    (hl : (run noneFree pool port (before ++ id :: after)).listening id = some p) :
    asked pool (run noneFree pool port before) id = p ∧ p ≠ 0 := by
  have hnone : (run noneFree pool port before).listening id = none := by
    rw [run, foldl_listening hb]
    rfl
  rw [run, List.foldl_append, List.foldl_cons, foldl_listening ha] at hl
  exact onStartup_self hnone hl

/-! ## Processes -/

theorem ofNat_add_inj {port a b n : Nat} (hn : port + n ≤ 65535) (ha : a < n) (hb : b < n)
    (h : UInt16.ofNat (port + a) = UInt16.ofNat (port + b)) : a = b := by
  have hnat := congrArg UInt16.toNat h
  rw [UInt16.toNat_ofNat', UInt16.toNat_ofNat'] at hnat
  omega

theorem ofNat_add_ne_zero {port a n : Nat} (hp : port ≠ 0) (hn : port + n ≤ 65535) (ha : a < n) :
    UInt16.ofNat (port + a) ≠ 0 := by
  intro h
  have hnat := congrArg UInt16.toNat h
  rw [UInt16.toNat_ofNat', UInt16.toNat_zero] at hnat
  omega

/-- The workers that have run listen on their ports, the others have their copy still. -/
structure Forked (port n : Nat) (ran : List Nat) (s : Startup) : Prop where
  copies : ∀ id, id ∉ ran → s.m_Data id = UInt16.ofNat port
  taken : ∀ x ∈ s.taken, ∃ id ∈ ran, x = UInt16.ofNat (port + id)
  listening : ∀ id ∈ ran, s.listening id = some (UInt16.ofNat (port + id))

theorem forked_step {port n : Nat} {ran : List Nat} (hp : port ≠ 0) (hn : port + n ≤ 65535)
    (hran : ∀ id ∈ ran, id < n) (h : Forked port n ran s) (hid : id < n) (hnew : id ∉ ran) :
    Forked port n (id :: ran) (OnStartup pick .processes s id) := by
  have hask : asked .processes s id = UInt16.ofNat (port + id) := by
    rw [UInt16.ofNat_add, ← h.copies id hnew]
    rfl
  have hfree : asked .processes s id ∉ s.taken := by
    intro hmem
    obtain ⟨id', hmem', heq⟩ := h.taken _ hmem
    rw [hask] at heq
    exact hnew (ofNat_add_inj hn hid (hran id' hmem') heq ▸ hmem')
  obtain ⟨htaken, hlisten⟩ := @onStartup_free pick _ _ _ (hask ▸ ofNat_add_ne_zero hp hn hid) hfree
  refine ⟨fun id' hid' => ?_, fun x hx => ?_, fun id' hid' => ?_⟩
  · rw [List.mem_cons, not_or] at hid'
    rw [onStartup_data]
    exact (Function.update_of_ne hid'.1 _ _).trans (h.copies id' hid'.2)
  · rw [htaken] at hx
    rcases List.mem_cons.mp hx with rfl | hx
    · exact ⟨id, List.mem_cons_self, hask⟩
    · obtain ⟨id', hid', heq⟩ := h.taken x hx
      exact ⟨id', List.mem_cons_of_mem _ hid', heq⟩
  · rw [hlisten]
    by_cases heq : id' = id
    · rw [heq, Function.update_self, hask]
    · rw [Function.update_of_ne heq]
      exact h.listening id' ((List.mem_cons.mp hid').resolve_left heq)

theorem forked_run {port n : Nat} (hp : port ≠ 0) (hn : port + n ≤ 65535) {order ran : List Nat}
    (hnodup : order.Nodup) (hlt : ∀ id ∈ order, id < n) (hran : ∀ id ∈ ran, id < n)
    (hdisj : ∀ id ∈ order, id ∉ ran) (h : Forked port n ran s) :
    Forked port n (order.reverse ++ ran) (order.foldl (OnStartup pick .processes) s) := by
  induction order generalizing ran s with
  | nil => exact h
  | cons id order ih =>
    rw [List.nodup_cons] at hnodup
    rw [List.forall_mem_cons] at hlt hdisj
    have hran' : ∀ id' ∈ id :: ran, id' < n := List.forall_mem_cons.mpr ⟨hlt.1, hran⟩
    have hdisj' : ∀ id' ∈ order, id' ∉ id :: ran := by
      intro id' hid' hmem
      rcases List.mem_cons.mp hmem with rfl | hmem
      · exact hnodup.1 hid'
      · exact hdisj.2 id' hid' hmem
    rw [List.foldl_cons, List.reverse_cons, List.append_assoc]
    exact ih hnodup.2 hlt.2 hran' hdisj' (forked_step hp hn hran h hlt.1 hdisj.1)

variable {port n : Nat} {order : List Nat}

theorem ownPorts_processes (hp : port ≠ 0) (hn : port + n ≤ 65535) (ho : order.Perm (List.range n)) :
    OwnPorts .processes port n order := by
  have hstart : Forked port n [] (RegisterUdpServer port) := ⟨fun _ _ => rfl, nofun, nofun⟩
  have hlt : ∀ id ∈ order, id < n := fun id hid => List.mem_range.mp (ho.mem_iff.mp hid)
  intro pick _ id hid
  have hrun := @forked_run pick _ _ _ hp hn _ _ (ho.nodup_iff.mpr List.nodup_range) hlt
    (List.forall_mem_nil _) (fun _ _ => List.not_mem_nil) hstart
  exact hrun.listening id (List.mem_append_left _ (List.mem_reverse.mpr (ho.mem_iff.mpr (List.mem_range.mpr hid))))

/-! ## Threads -/

theorem asked_first (port w₀ : Nat) : asked .threads (RegisterUdpServer port) w₀ = UInt16.ofNat (port + w₀) :=
  (UInt16.ofNat_add _ _).symm

/-- The next thread adds its id to what the last one left. -/
theorem asked_next (s : Startup) (w₀ w₁ : Nat) :
    asked .threads (OnStartup pick .threads s w₀) w₁ = htons (asked .threads s w₀) + UInt16.ofNat w₁ := by
  rw [asked, onStartup_data]
  rfl

theorem ownPorts_one (hp : port ≠ 0) (hn : port + 1 ≤ 65535) : OwnPorts .threads port 1 [0] := by
  intro pick _ id hid
  obtain rfl : id = 0 := by omega
  have hne : asked .threads (RegisterUdpServer port) 0 ≠ 0 := asked_first port 0 ▸ ofNat_add_ne_zero hp hn hid
  have hlisten := (@onStartup_free pick .threads (RegisterUdpServer port) 0 hne List.not_mem_nil).2
  rw [run, List.foldl_cons, List.foldl_nil, hlisten, Function.update_self, asked_first]

/-- What the second thread needs: that the first left the port as it was. -/
theorem swap_of_second {w₀ w₁ : Nat} {rest : List Nat} (hne : w₁ ≠ w₀) (hrest : w₁ ∉ rest)
    (h : (run noneFree .threads port (w₀ :: w₁ :: rest)).listening w₁ = some (UInt16.ofNat (port + w₁))) :
    htons (UInt16.ofNat (port + w₀)) = UInt16.ofNat port := by
  have hask := (@run_self .threads w₁ [w₀] rest (List.mem_singleton.not.mpr hne) hrest _ _ h).1
  rw [run, List.foldl_cons, List.foldl_nil, asked_next, asked_first, UInt16.ofNat_add port w₁] at hask
  exact (UInt16.add_left_inj _).mp hask

/-- What the third needs: that the second did, too. -/
theorem swap_of_third {w₀ w₁ w₂ : Nat} {rest : List Nat} (h₂₀ : w₂ ≠ w₀) (h₂₁ : w₂ ≠ w₁) (hrest : w₂ ∉ rest)
    (hswap : htons (UInt16.ofNat (port + w₀)) = UInt16.ofNat port)
    (h : (run noneFree .threads port (w₀ :: w₁ :: w₂ :: rest)).listening w₂ = some (UInt16.ofNat (port + w₂))) :
    htons (UInt16.ofNat (port + w₁)) = UInt16.ofNat port := by
  have hmem : w₂ ∉ [w₀, w₁] := by simp [h₂₀, h₂₁]
  have hask := (@run_self .threads w₂ [w₀, w₁] rest hmem hrest _ _ h).1
  rw [run, List.foldl_cons, List.foldl_cons, List.foldl_nil, asked_next, asked_next, asked_first, hswap,
    ← UInt16.ofNat_add, UInt16.ofNat_add port w₂] at hask
  exact (UInt16.add_left_inj _).mp hask

theorem ownPorts_two {w₀ w₁ : Nat} (hp : port ≠ 0) (hn : port + 2 ≤ 65535) (ho : [w₀, w₁].Perm (List.range 2)) :
    OwnPorts .threads port 2 [w₀, w₁] ↔ htons (UInt16.ofNat (port + w₀)) = UInt16.ofNat port := by
  have hnodup : [w₀, w₁].Nodup := ho.nodup_iff.mpr List.nodup_range
  have hne : w₁ ≠ w₀ := fun he => (List.nodup_cons.mp hnodup).1 (he ▸ List.mem_cons_self)
  have h₀ : w₀ < 2 := List.mem_range.mp (ho.mem_iff.mp List.mem_cons_self)
  have h₁ : w₁ < 2 := List.mem_range.mp (ho.mem_iff.mp (List.mem_cons_of_mem _ List.mem_cons_self))
  constructor
  · intro h
    exact swap_of_second hne List.not_mem_nil (h _ picks_noneFree w₁ h₁)
  · intro hswap pick _ id hid
    have hask₀ := asked_first port w₀
    have hne₀ : asked .threads (RegisterUdpServer port) w₀ ≠ 0 := hask₀ ▸ ofNat_add_ne_zero hp hn h₀
    obtain ⟨htaken₀, hlisten₀⟩ := @onStartup_free pick .threads (RegisterUdpServer port) w₀ hne₀ List.not_mem_nil
    have hask₁ : asked .threads (OnStartup pick .threads (RegisterUdpServer port) w₀) w₁ =
        UInt16.ofNat (port + w₁) := by
      rw [asked_next, hask₀, hswap, UInt16.ofNat_add]
    have hfree : asked .threads (OnStartup pick .threads (RegisterUdpServer port) w₀) w₁ ∉
        (OnStartup pick .threads (RegisterUdpServer port) w₀).taken := by
      rw [hask₁, htaken₀, hask₀]
      intro hmem
      exact hne (ofNat_add_inj hn h₁ h₀ (List.mem_singleton.mp hmem))
    obtain ⟨-, hlisten₁⟩ := @onStartup_free pick _ _ _ (hask₁ ▸ ofNat_add_ne_zero hp hn h₁) hfree
    have hmem := ho.mem_iff.mpr (List.mem_range.mpr hid)
    simp only [List.mem_cons, List.not_mem_nil, or_false] at hmem
    rw [run, List.foldl_cons, List.foldl_cons, List.foldl_nil, hlisten₁]
    rcases hmem with rfl | rfl
    · rw [Function.update_of_ne (Ne.symm hne), hlisten₀, Function.update_self, hask₀]
    · rw [Function.update_self, hask₁]

/-- The second and the third would need the swap of two ports to be the same. -/
theorem not_ownPorts_three {w₀ w₁ w₂ : Nat} {rest : List Nat} (hn : port + n ≤ 65535)
    (ho : (w₀ :: w₁ :: w₂ :: rest).Perm (List.range n)) :
    ¬OwnPorts .threads port n (w₀ :: w₁ :: w₂ :: rest) := by
  intro h
  have hlt : ∀ id ∈ w₀ :: w₁ :: w₂ :: rest, id < n := fun id hid => List.mem_range.mp (ho.mem_iff.mp hid)
  have hnodup : (w₀ :: w₁ :: w₂ :: rest).Nodup := ho.nodup_iff.mpr List.nodup_range
  simp only [List.nodup_cons, List.mem_cons, not_or] at hnodup
  obtain ⟨⟨h₀₁, h₀₂, -⟩, ⟨h₁₂, h₁⟩, h₂, -⟩ := hnodup
  simp only [List.forall_mem_cons] at hlt
  obtain ⟨hw₀, hw₁, hw₂, -⟩ := hlt
  have hrest : w₁ ∉ w₂ :: rest := by simp [h₁₂, h₁]
  have hown := h _ picks_noneFree
  have hswap := swap_of_second (Ne.symm h₀₁) hrest (hown w₁ hw₁)
  have hswap' := swap_of_third (Ne.symm h₀₂) (Ne.symm h₁₂) h₂ hswap (hown w₂ hw₂)
  exact h₀₁ (ofNat_add_inj hn hw₀ hw₁ (htons_injective (hswap.trans hswap'.symm)))

/-- No worker listens on port 0. -/
theorem not_ownPorts_zero (hn : n ≠ 0) (ho : order.Perm (List.range n)) : ¬OwnPorts pool 0 n order := by
  intro h
  have hmem : 0 ∈ order := ho.mem_iff.mpr (List.mem_range.mpr (Nat.pos_of_ne_zero hn))
  obtain ⟨before, after, rfl⟩ := List.append_of_mem hmem
  have hnodup : (before ++ 0 :: after).Nodup := ho.nodup_iff.mpr List.nodup_range
  have hsplit := List.nodup_append.mp hnodup
  have hbefore : 0 ∉ before := fun hb => hsplit.2.2 0 hb 0 List.mem_cons_self rfl
  have hafter : 0 ∉ after := (List.nodup_cons.mp hsplit.2.1).1
  exact (run_self hbefore hafter (h _ picks_noneFree 0 (Nat.pos_of_ne_zero hn))).2 rfl

/-- When every worker has its own port. -/
theorem ports_iff (pool : Pool) (hn : port + n ≤ 65535) (ho : order.Perm (List.range n)) :
    OwnPorts pool port n order ↔ n = 0 ∨ port ≠ 0 ∧ (pool = .processes ∨ n = 1 ∨
      n = 2 ∧ ∀ first ∈ order.head?, htons (UInt16.ofNat (port + first)) = UInt16.ofNat port) := by
  have hlen : order.length = n := by rw [ho.length_eq, List.length_range]
  by_cases h0 : n = 0
  · subst h0
    exact iff_of_true (fun _ _ id hid => absurd hid (Nat.not_lt_zero id)) (.inl rfl)
  by_cases hp : port = 0
  · subst hp
    exact iff_of_false (not_ownPorts_zero h0 ho) fun hc => hc.elim h0 fun hc => hc.1 rfl
  rw [or_iff_right h0, and_iff_right hp]
  cases pool with
  | processes => exact iff_of_true (ownPorts_processes hp hn ho) (.inl rfl)
  | threads =>
    rw [or_iff_right Pool.noConfusion]
    match order, hlen, ho with
    | [], hlen, _ => exact absurd hlen.symm h0
    | [w₀], hlen, ho =>
      obtain rfl : n = 1 := hlen.symm
      rw [List.perm_singleton.mp ho]
      exact iff_of_true (ownPorts_one hp hn) (.inl rfl)
    | [w₀, w₁], hlen, ho =>
      obtain rfl : n = 2 := hlen.symm
      rw [ownPorts_two hp hn ho]
      simp
    | w₀ :: w₁ :: w₂ :: rest, hlen, ho =>
      have hlen : n = rest.length + 3 := hlen.symm
      refine iff_of_false (not_ownPorts_three hn ho) ?_
      rintro (h | ⟨h, -⟩)
      · omega
      · omega

/-- Three forked workers from port 8080. -/
theorem ports_of_processes : OwnPorts .processes 8080 3 [1, 0, 2] :=
  (ports_iff .processes (by decide) (by decide)).mpr (.inr ⟨by decide, .inl rfl⟩)

/-- Two threads from port 8080: the second listens on 36896, whatever the kernel picks for port 0. -/
theorem second_thread_elsewhere : ¬OwnPorts .threads 8080 2 [0, 1] ∧
    ∀ pick, (run pick .threads 8080 [0, 1]).listening 1 = some 36896 := by
  have helsewhere : ∀ pick, (run pick .threads 8080 [0, 1]).listening 1 = some 36896 := by
    intro pick
    have htaken : (OnStartup pick .threads (RegisterUdpServer 8080) 0).taken = [8080] :=
      (onStartup_free (by decide) List.not_mem_nil).1
    have hask : asked .threads (OnStartup pick .threads (RegisterUdpServer 8080) 0) 1 = 36896 := by
      rw [asked_next, asked_first]
      decide
    have hfree : asked .threads (OnStartup pick .threads (RegisterUdpServer 8080) 0) 1 ∉
        (OnStartup pick .threads (RegisterUdpServer 8080) 0).taken := by
      rw [hask, htaken]
      decide
    rw [run, List.foldl_cons, List.foldl_cons, List.foldl_nil, (onStartup_free (hask ▸ by decide) hfree).2,
      Function.update_self, hask]
  refine ⟨fun h => ?_, helsewhere⟩
  have hown := h _ picks_noneFree 1 (by decide)
  rw [helsewhere] at hown
  exact absurd hown (by decide)

end UdpServerStartup
end SimpleSvr.L5
