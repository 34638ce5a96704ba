import SimpleSvr.Core.LTS
import SimpleSvr.Core.DList
import Mathlib.Algebra.Ring.Nat

/-!
# The five-level timing wheel (`Timer.hpp`)

`TimerBase` keeps its pending items in 256 + 4·64 buckets, each the head of an
intrusive doubly linked list, and an id → item map beside them. `SetTimeout`,
`Update` and `Clear` edit one bucket; `CheckTimer` advances the base
`m_LastTimeval` tick by tick: it cascades the coarser vectors when the base is
aligned, cuts the bucket of the tick from `m_Vector1` and walks the cut list,
invoking and deleting its items. Callbacks run inside that walk and may call
the timer again.

Items live in a heap `mem`; `new` hands out the next address and no address is
handed out twice, so a dangling pointer never aliases a newer item. Every read
or write through an item pointer goes through `mem`, and `none` is an access
to an item that is not live (a use after free or a double delete), or a walk
that did not end within its bound. `log` is a ghost trace of what happened,
newest event first.

Not modelled: `Dump`, `PrintVector`, `GetTimer` (they change nothing), the text
logged when a callback throws, and the branches taken when
`InternalAddTimerItem` returns non-zero (it always returns 0).
-/
namespace SimpleSvr.L2.Timer

/-- Address of a `TimerItem`. -/
abbrev Addr := Nat

/-- Address of a bucket: `&m_Vector1[i]`, or `&m_Vector{n+2}[i]`. -/
inductive Bucket where
  | vector1 (i : Fin 256)
  | vectorN (n : Fin 4) (i : Fin 64)
  deriving DecidableEq, Repr

/-- What `gettimeofday` stores. -/
structure Timeval where
  tvSec : Int
  tvUsec : Int
  deriving DecidableEq, Repr

/-- `F` is what a `boost::function` holds, `D` the item's data.
mirrors include/Timer.hpp:26-77 -/
structure TimerItem (F D : Type) where
  prevItem : Option Addr := none
  nextItem : Option Addr := none
  base : Option Bucket := none
  timerId : UInt32 := 0
  timeval : UInt64 := 0
  callback : F
  data : D

/-- Ghost events. `linked a t L`: `InternalAddTimerItem` filed `a` with expiry
`t` while the base was `L`; `invoked a k`: its callback ran in the iteration
that processes tick `k`. -/
inductive Event where
  | linked (a : Addr) (t L : UInt64)
  | invoked (a : Addr) (tick : UInt64)
  | updated (a : Addr)
  | cleared (a : Addr)
  | freed (a : Addr)
  deriving DecidableEq, Repr

/-- `brk` counts the items allocated so far, one for each `SetTimeout`.
mirrors include/Timer.hpp:113-131 -/
structure TimerBase (F D : Type) where
  lastTimerId : UInt32
  lastTimeval : UInt64
  vector : Bucket → Option Addr
  timerDataMap : UInt32 → Option Addr
  mem : Addr → Option (TimerItem F D)
  brk : Addr
  log : List Event

/-- The timer calls a callback can make, with the clock each one reads. -/
inductive Op (F D : Type) where
  | setTimeout (callback : F) (timeout : Int) (data : D) (tv : Timeval)
  | update (timerId : UInt32) (timeout : Int) (tv : Timeval)
  | clear (timerId : UInt32)

/-- The timer calls a callback makes before it returns or throws (`catch(...)`
treats both alike). They may depend on everything that happened so far. -/
abbrev Env (F D : Type) := F → D → TimerBase F D → List (Op F D)

variable {F D : Type}

/-! ## Memory -/

def TimerBase.emit (s : TimerBase F D) (e : Event) : TimerBase F D := { s with log := e :: s.log }

def TimerBase.setVector (s : TimerBase F D) (b : Bucket) (h : Option Addr) : TimerBase F D :=
  { s with vector := fun b' => if b' = b then h else s.vector b' }

def TimerBase.eraseId (s : TimerBase F D) (id : UInt32) : TimerBase F D :=
  { s with timerDataMap := fun i => if i = id then none else s.timerDataMap i }

def TimerBase.poke (s : TimerBase F D) (a : Addr) (v : Option (TimerItem F D)) : TimerBase F D :=
  { s with mem := fun x => if x = a then v else s.mem x }

/-- Write through an item pointer. -/
def TimerBase.modify (s : TimerBase F D) (a : Addr) (f : TimerItem F D → TimerItem F D) :
    Option (TimerBase F D) :=
  (s.mem a).map fun it => s.poke a (some (f it))

/-- `delete pItem`. -/
def TimerBase.delete (s : TimerBase F D) (a : Addr) : Option (TimerBase F D) :=
  (s.mem a).map fun _ => (s.poke a none).emit (.freed a)

/-! ## Clock and slots -/

/-- `GetTimeval` on the clock reading `tv`.
mirrors include/Timer.hpp:133-139 -/
def getTimeval (interval : Int) (tv : Timeval) : UInt64 :=
  UInt64.ofInt ((tv.tvSec * 1000 + tv.tvUsec.tdiv 1000).tdiv interval)

/-- `GetTimeval() + (timeout / Interval)`. -/
def expiry (interval : Int) (timeout : Int) (tv : Timeval) : UInt64 :=
  getTimeval interval tv + UInt64.ofInt (timeout.tdiv interval)

theorem and_lt (x : UInt64) (k : Nat) (hk : k < 64) :
    (x &&& UInt64.ofNat (2 ^ k - 1)).toNat = x.toNat % 2 ^ k := by
  have h : 2 ^ k ≤ 2 ^ 63 := Nat.pow_le_pow_right (by decide) (by omega)
  rw [UInt64.toNat_and, UInt64.toNat_ofNat', Nat.mod_eq_of_lt (by omega),
    Nat.and_two_pow_sub_one_eq_mod]

theorem tvr_val (tv : UInt64) : (tv &&& 0xFF).toNat = tv.toNat % 256 := and_lt tv 8 (by decide)

theorem tvn_val (tv : UInt64) : (tv &&& 0x3F).toNat = tv.toNat % 64 := and_lt tv 6 (by decide)

/-- `tv & TVR_MASK` -/
def tvr (tv : UInt64) : Fin 256 :=
  ⟨(tv &&& 0xFF).toNat, by rw [tvr_val]; exact Nat.mod_lt _ (by decide)⟩

/-- `TVR_BITS + n*TVN_BITS` -/
def tvnShift (n : Fin 4) : UInt64 := 8 + 6 * UInt64.ofNat n.val

/-- `(tv >> (TVR_BITS + n*TVN_BITS)) & TVN_MASK` -/
def tvn (n : Fin 4) (tv : UInt64) : Fin 64 :=
  ⟨(tv >>> tvnShift n &&& 0x3F).toNat, by rw [tvn_val]; exact Nat.mod_lt _ (by decide)⟩

/-- `MAX_TVAL` -/
def maxTval : UInt64 := 0xFFFFFFFF

/-- The bucket `InternalAddTimerItem` chooses for expiry `t` at base `last`
(the bounds are `1 << 8`, `1 << 14`, `1 << 20` and `1 << 26`).
mirrors include/Timer.hpp:143-173 -/
def bucketOf (last t : UInt64) : Bucket :=
  let idx := t - last
  if t < last then .vector1 (tvr last)        -- already timeout item
  else if idx < 0x100 then .vector1 (tvr t)
  else if idx < 0x4000 then .vectorN 0 (tvn 0 t)
  else if idx < 0x100000 then .vectorN 1 (tvn 1 t)
  else if idx < 0x4000000 then .vectorN 2 (tvn 2 t)
  else
    let tv := if idx > maxTval then maxTval + last else t
    .vectorN 3 (tvn 3 tv)

/-! ## Linking and unlinking -/

/-- mirrors include/Timer.hpp:141-186 -/
def internalAddTimerItem (s : TimerBase F D) (a : Addr) : Option (TimerBase F D) := do
  let it ← s.mem a
  let b := bucketOf s.lastTimeval it.timeval
  let s ← s.modify a fun it => { it with base := some b }
  let s := s.emit (.linked a it.timeval s.lastTimeval)
  match s.vector b with
  | none => some (s.setVector b (some a))
  | some h =>
    let s ← s.modify a fun it => { it with nextItem := some h }
    let s ← s.modify h fun it => { it with prevItem := some a }
    some (s.setVector b (some a))

/-- `if(NextItem) NextItem->PrevItem = PrevItem;` -/
def unlinkNext (s : TimerBase F D) (it : TimerItem F D) : Option (TimerBase F D) :=
  match it.nextItem with
  | some n => s.modify n fun x => { x with prevItem := it.prevItem }
  | none => some s

/-- `if(PrevItem) PrevItem->NextItem = NextItem; else Base[0] = NextItem;`
(a null `Base` is an invalid access). -/
def unlinkPrev (s : TimerBase F D) (it : TimerItem F D) : Option (TimerBase F D) :=
  match it.prevItem with
  | some p => s.modify p fun x => { x with nextItem := it.nextItem }
  | none => it.base.map fun b => s.setVector b it.nextItem

/-- The pointer swing at the head of `Update` and `Clear`.
mirrors include/Timer.hpp:253-260,283-290 -/
def unlink (s : TimerBase F D) (a : Addr) : Option (TimerBase F D) := do
  let it ← s.mem a
  let s ← unlinkNext s it
  let it ← s.mem a
  unlinkPrev s it

/-- `PrevItem = NULL; NextItem = NULL; Base = NULL;` -/
def TimerItem.detached (it : TimerItem F D) : TimerItem F D :=
  { it with prevItem := none, nextItem := none, base := none }

/-- mirrors include/Timer.hpp:247-273 -/
def update (interval : Int) (s : TimerBase F D) (timerId : UInt32) (timeout : Int)
    (tv : Timeval) : Option (TimerBase F D) :=
  match s.timerDataMap timerId with
  | none => some s
  | some a => do
    let s ← unlink s a
    let s ← s.modify a fun it => { it.detached with timeval := expiry interval timeout tv }
    internalAddTimerItem (s.emit (.updated a)) a

/-- mirrors include/Timer.hpp:275-295 -/
def clear (s : TimerBase F D) (timerId : UInt32) : Option (TimerBase F D) :=
  match s.timerDataMap timerId with
  | none => some s
  | some a => do
    let s ← unlink s a
    let s ← (s.emit (.cleared a)).delete a
    some (s.eraseId timerId)

/-- `m_TimerDataMap.insert`: an existing key is left alone. -/
def insertId (s : TimerBase F D) (id : UInt32) (a : Addr) : TimerBase F D :=
  match s.timerDataMap id with
  | some _ => s
  | none => { s with timerDataMap := fun i => if i = id then some a else s.timerDataMap i }

/-- The new timer and the id it returns.
mirrors include/Timer.hpp:377-396,427-445 -/
def setTimeout (interval : Int) (s : TimerBase F D) (callback : F) (timeout : Int) (data : D)
    (tv : Timeval) : Option (TimerBase F D × UInt32) := do
  let id := s.lastTimerId + 1
  let a := s.brk
  let it : TimerItem F D :=
    { timerId := id, timeval := expiry interval timeout tv, callback := callback, data := data }
  let s := { s with lastTimerId := id, brk := a + 1 }.poke a (some it)
  let s ← internalAddTimerItem s a
  some (insertId s id a, id)

def applyOp (interval : Int) (s : TimerBase F D) : Op F D → Option (TimerBase F D)
  | .setTimeout callback timeout data tv => (setTimeout interval s callback timeout data tv).map (·.1)
  | .update timerId timeout tv => update interval s timerId timeout tv
  | .clear timerId => clear s timerId

/-! ## Advancing the wheel -/

/-- The walk of `cascade` over the list it cut.
mirrors include/Timer.hpp:192-202 -/
def cascadeList : Nat → TimerBase F D → Option Addr → Option (TimerBase F D)
  | _, s, none => some s
  | 0, _, some _ => none
  | n + 1, s, some a => do
    let it ← s.mem a
    let s ← s.modify a TimerItem.detached
    let s ← internalAddTimerItem s a
    cascadeList n s it.nextItem

/-- mirrors include/Timer.hpp:188-204 -/
def cascade (s : TimerBase F D) (n : Fin 4) (index : Fin 64) : Option (TimerBase F D × Bool) := do
  let head := s.vector (.vectorN n index)
  let s ← cascadeList s.brk (s.setVector (.vectorN n index) none) head
  some (s, index != 0)

/-- The `&&` chain over the vectors `ns`: stop at the first cascade that
returns true (what the last one returns is not read).
mirrors include/Timer.hpp:305-310 -/
def cascades (s : TimerBase F D) : List (Fin 4) → Option (TimerBase F D)
  | [] => some s
  | n :: ns => do
    let (s', more) ← cascade s n (tvn n s.lastTimeval)
    if more then some s' else cascades s' ns

/-- The calls a callback makes. -/
def runCalls (interval : Int) : TimerBase F D → List (Op F D) → Option (TimerBase F D)
  | s, [] => some s
  | s, op :: ops => do runCalls interval (← applyOp interval s op) ops

/-- `Invoke()` under `catch(...)`.
mirrors include/Timer.hpp:322-330 -/
def invoke (interval : Int) (env : Env F D) (s : TimerBase F D) (a : Addr) :
    Option (TimerBase F D) := do
  let it ← s.mem a
  runCalls interval s (env it.callback it.data s)

/-- The walk over the list cut from `m_Vector1`, in the iteration of tick
`tick`.
mirrors include/Timer.hpp:316-336 -/
def drain (interval : Int) (env : Env F D) (tick : UInt64) :
    Nat → TimerBase F D → Option Addr → Option (TimerBase F D)
  | _, s, none => some s
  | 0, _, some _ => none
  | n + 1, s, some a => do
    let it ← s.mem a
    let s ← invoke interval env ((s.eraseId it.timerId).emit (.invoked a tick)) a
    let it ← s.mem a
    let s ← s.delete a
    drain interval env tick n s it.nextItem

/-- One iteration up to the walk: cascade, `++m_LastTimeval`, cut the bucket.
mirrors include/Timer.hpp:302-315 -/
def detach (s : TimerBase F D) : Option (TimerBase F D × Option Addr) := do
  let index := tvr s.lastTimeval
  let s ← if index = 0 then cascades s [0, 1, 2, 3] else some s
  let s := { s with lastTimeval := s.lastTimeval + 1 }
  some (s.setVector (.vector1 index) none, s.vector (.vector1 index))

/-- The body of `CheckTimer`'s loop. -/
def tick (interval : Int) (env : Env F D) (s : TimerBase F D) : Option (TimerBase F D) := do
  let (s', head) ← detach s
  drain interval env s.lastTimeval s'.brk s' head

/-- `while(m_LastTimeval < now)`, at most `n` times. -/
def checkLoop (interval : Int) (env : Env F D) (now : UInt64) :
    Nat → TimerBase F D → Option (TimerBase F D)
  | 0, s => if s.lastTimeval < now then none else some s
  | n + 1, s => if s.lastTimeval < now then do checkLoop interval env now n (← tick interval env s)
      else some s

/-- mirrors include/Timer.hpp:297-338 -/
def checkTimer (interval : Int) (env : Env F D) (s : TimerBase F D) (tv : Timeval) :
    Option (TimerBase F D) :=
  let now := getTimeval interval tv
  checkLoop interval env now (now.toNat - s.lastTimeval.toNat) s

/-! ## Runs -/

/-- The constructor, on the clock reading `tv`.
mirrors include/Timer.hpp:235-245 -/
def construct (interval : Int) (tv : Timeval) : TimerBase F D where
  lastTimerId := 0
  lastTimeval := getTimeval interval tv
  vector := fun _ => none
  timerDataMap := fun _ => none
  mem := fun _ => none
  brk := 0
  log := []

/-- A call from outside the callbacks. -/
inductive Call (F D : Type) where
  | op (o : Op F D)
  | checkTimer (tv : Timeval)

def call (interval : Int) (env : Env F D) (s : TimerBase F D) : Call F D → Option (TimerBase F D)
  | .op o => applyOp interval s o
  | .checkTimer tv => checkTimer interval env s tv

/-- The clock readings that move the base stay within 2^63 ticks. -/
def InRange (interval : Int) (tv : Timeval) : Prop := (getTimeval interval tv).toNat ≤ 2 ^ 63

instance (interval : Int) (tv : Timeval) : Decidable (InRange interval tv) :=
  inferInstanceAs (Decidable (_ ≤ _))

def Call.InRange (interval : Int) : Call F D → Prop
  | .op _ => True
  | .checkTimer tv => Timer.InRange interval tv

instance (interval : Int) : DecidablePred (Call.InRange (F := F) (D := D) interval)
  | .op _ => inferInstanceAs (Decidable True)
  | .checkTimer tv => inferInstanceAs (Decidable (InRange interval tv))

/-- Any sequence of calls on one timer, with callbacks as `env` says. -/
def lts (interval : Int) (env : Env F D) : LTS (TimerBase F D) (Call F D) where
  init s := ∃ tv, InRange interval tv ∧ s = construct interval tv
  step s c s' := c.InRange interval ∧ call interval env s c = some s'

end SimpleSvr.L2.Timer
