import Uki.List.Heap
import Uki.Long

/-!
# The timer wheel of `timer.c`: its data and the client operations

The wheel lives in one memory: a heap of list nodes (the bucket heads of
`tv1` … `tv5`, the two list heads the worker keeps on its stack, and the
`entry` of every timer), the other fields of the timers, and the fields of
`uki_tvec_base`. `N` is the number of timer objects of the program.

A result `none` is a failed `BUG_ON` or a fault.
-/

set_option linter.style.nameCheck false

namespace Uki

def TVN_BITS : Nat := 4
def TVR_BITS : Nat := 6
def TVN_SIZE : Nat := 1 <<< TVN_BITS
def TVR_SIZE : Nat := 1 <<< TVR_BITS
def TVN_MASK : Nat := TVN_SIZE - 1
def TVR_MASK : Nat := TVR_SIZE - 1

/-- The five vectors of `struct tvec_base`. -/
inductive Tv where
  | tv1 | tv2 | tv3 | tv4 | tv5
deriving DecidableEq, Repr

/-- A list head: `tv->vec + i`, or one of the heads on the worker's stack, the
`work_list` of `__run_timers` and the `tv_list` of `cascade`. -/
inductive Head where
  | vec (tv : Tv) (i : Nat)
  | workList
  | tvList
deriving DecidableEq, Repr

/-- A `struct list_head` of the wheel. -/
inductive Node (N : Nat) where
  | entry (t : Fin N)
  | head (b : Head)
deriving DecidableEq, Repr

/-- `timer->base`. There is one base; the low bit of the pointer is the
deferrable flag. -/
structure BasePtr where
  deferrable : Bool

/-- The fields of `struct timer_list` besides `entry`. -/
structure TimerList (m : LongModel) where
  expires : ULong m
  /-- `NULL`, or the callback. -/
  function : Option Nat
  data : ULong m
  base : BasePtr

/-- Who runs the code that takes the lock. -/
inductive Thread where
  | worker
  | client (n : Nat)
deriving DecidableEq, Repr

/-- The fields of `struct tvec_base` besides the bucket heads. -/
structure TvecBase (m : LongModel) where
  lock : Option Thread
  timerJiffies : ULong m
  nextTimer : ULong m

structure World (m : LongModel) (N : Nat) where
  heap : Heap (Node N)
  timer : Fin N → TimerList m
  base : TvecBase m
  jiffies : ULong m

variable {m : LongModel} {N : Nat}

namespace World

def setTimer (w : World m N) (t : Fin N) (x : TimerList m) : World m N :=
  { w with timer := fun u => if u = t then x else w.timer u }

def setExpires (w : World m N) (t : Fin N) (expires : ULong m) : World m N :=
  w.setTimer t { w.timer t with expires := expires }

def setNextTimer (w : World m N) (next : ULong m) : World m N :=
  { w with base := { w.base with nextTimer := next } }

def setHeap (w : World m N) (h : Heap (Node N)) : World m N := { w with heap := h }

end World

/-! ## The lock -/

/-- `spin_lock` returns once the lock is free; until then the thread spins. -/
def spinLock (w : World m N) (who : Thread) : Option (World m N) :=
  match w.base.lock with
  | none => some { w with base := { w.base with lock := some who } }
  | some _ => none

/-- `spin_unlock` frees the lock, whoever calls it. -/
def spinUnlock (w : World m N) : World m N := { w with base := { w.base with lock := none } }

/-! ## Initialisation -/

def tbaseGetDeferrable (base : BasePtr) : Bool := base.deferrable

/-- `&uki_tvec_base`, which is aligned. -/
def ukiTvecBase : BasePtr := ⟨false⟩

/-- `__init_timer`, all of `init_timer_key`. -/
def initTimerKey (w : World m N) (t : Fin N) : World m N :=
  let w := w.setHeap (w.heap.setNext (.entry t) .null)
  w.setTimer t { w.timer t with base := ukiTvecBase }

def setupTimerKey (w : World m N) (t : Fin N) (function : Nat) (data : ULong m) : World m N :=
  let w := w.setTimer t { w.timer t with function := some function }
  let w := w.setTimer t { w.timer t with data := data }
  initTimerKey w t

def initTimersUki (w : World m N) : World m N :=
  let w := { w with base := { w.base with lock := none } }
  let h := (List.range TVN_SIZE).foldl (fun h j =>
    let h := initListHead h (.head (.vec .tv5 j))
    let h := initListHead h (.head (.vec .tv4 j))
    let h := initListHead h (.head (.vec .tv3 j))
    initListHead h (.head (.vec .tv2 j))) w.heap
  let h := (List.range TVR_SIZE).foldl (fun h j => initListHead h (.head (.vec .tv1 j))) h
  let w := { w with heap := h, base := { w.base with timerJiffies := w.jiffies } }
  w.setNextTimer w.base.timerJiffies

/-! ## Adding and detaching -/

/-- The bucket `internal_add_timer` chooses. -/
def internalAddVec (timerJiffies expires : ULong m) : Head :=
  let idx := expires - timerJiffies
  if idx < BitVec.ofNat _ TVR_SIZE then
    .vec .tv1 (expires &&& BitVec.ofNat _ TVR_MASK).toNat
  else if idx < BitVec.ofNat _ (1 <<< (TVR_BITS + TVN_BITS)) then
    .vec .tv2 ((expires >>> TVR_BITS) &&& BitVec.ofNat _ TVN_MASK).toNat
  else if idx < BitVec.ofNat _ (1 <<< (TVR_BITS + 2 * TVN_BITS)) then
    .vec .tv3 ((expires >>> (TVR_BITS + TVN_BITS)) &&& BitVec.ofNat _ TVN_MASK).toNat
  else if idx < BitVec.ofNat _ (1 <<< (TVR_BITS + 3 * TVN_BITS)) then
    .vec .tv4 ((expires >>> (TVR_BITS + 2 * TVN_BITS)) &&& BitVec.ofNat _ TVN_MASK).toNat
  else if idx.toInt < 0 then
    -- a timer set to go off in the past
    .vec .tv1 (timerJiffies &&& BitVec.ofNat _ TVR_MASK).toNat
  else
    -- a timeout above 0xffffffff, on 64 bits, is cut to that maximum
    let expires := if idx > BitVec.ofNat _ 0xffffffff then
      BitVec.ofNat _ 0xffffffff + timerJiffies else expires
    .vec .tv5 ((expires >>> (TVR_BITS + 3 * TVN_BITS)) &&& BitVec.ofNat _ TVN_MASK).toNat

def internalAddTimer (w : World m N) (t : Fin N) : Option (World m N) := do
  let vec := internalAddVec w.base.timerJiffies (w.timer t).expires
  let h ← listAddTail w.heap (.entry t) (.head vec)
  some (w.setHeap h)

def timerPending (w : World m N) (t : Fin N) : Bool := w.heap.next (.entry t) != .null

def detachTimer (w : World m N) (t : Fin N) (clearPending : Bool) : Option (World m N) := do
  let prev ← (w.heap.prev (.entry t)).deref
  let next ← (w.heap.next (.entry t)).deref
  let h := __listDel w.heap prev next
  let h := if clearPending then h.setNext (.entry t) .null else h
  some (w.setHeap (h.setPrev (.entry t) .listPoison2))

/-! ## The client operations -/

/-- `lock_timer_base` reads `timer->base` and returns it. It is annotated with
`__acquires(timer->base->lock)`, but the body takes no lock. -/
def lockTimerBase (w : World m N) (_t : Fin N) : World m N := w

/-- A detached timer no longer bounds the next expiry. -/
def forgetNextTimer (w : World m N) (t : Fin N) : World m N :=
  if (w.timer t).expires = w.base.nextTimer ∧ !tbaseGetDeferrable (w.timer t).base then
    w.setNextTimer w.base.timerJiffies
  else
    w

/-- The part of `__mod_timer` that enqueues: the bucket is chosen before the
new expiry is stored. -/
def enqueueTimer (w : World m N) (t : Fin N) (expires : ULong m) : Option (World m N) := do
  let w ← internalAddTimer w t
  let w := w.setExpires t expires
  if timeBefore (w.timer t).expires w.base.nextTimer ∧ !tbaseGetDeferrable (w.timer t).base then
    some (w.setNextTimer (w.timer t).expires)
  else
    some w

def __modTimer (w : World m N) (t : Fin N) (expires : ULong m) (pendingOnly : Bool) :
    Option (World m N × Nat) := do
  let _ ← (w.timer t).function
  let w := lockTimerBase w t
  if timerPending w t then
    let w ← detachTimer w t false
    let w := forgetNextTimer w t
    let w ← enqueueTimer w t expires
    some (spinUnlock w, 1)
  else if pendingOnly then
    some (spinUnlock w, 0)
  else
    let w ← enqueueTimer w t expires
    some (spinUnlock w, 0)

def modTimerPending (w : World m N) (t : Fin N) (expires : ULong m) : Option (World m N × Nat) :=
  __modTimer w t expires true

def modTimer (w : World m N) (t : Fin N) (expires : ULong m) : Option (World m N × Nat) :=
  if timerPending w t ∧ (w.timer t).expires = expires then
    some (w, 1)
  else
    __modTimer w t expires false

def addTimer (w : World m N) (t : Fin N) : Option (World m N) := do
  if timerPending w t then none
  let (w, _) ← modTimer w t (w.timer t).expires
  some w

def delTimer (w : World m N) (t : Fin N) : Option (World m N × Nat) := do
  if timerPending w t then
    let w := lockTimerBase w t
    if timerPending w t then
      let w ← detachTimer w t true
      let w := forgetNextTimer w t
      some (spinUnlock w, 1)
    else
      some (spinUnlock w, 0)
  else
    some (w, 0)

/-- A call of one of the four operations. The caller of `addTimer` sets
`timer->expires` first. -/
inductive Call (m : LongModel) (N : Nat) where
  | addTimer (t : Fin N) (expires : ULong m)
  | modTimer (t : Fin N) (expires : ULong m)
  | modTimerPending (t : Fin N) (expires : ULong m)
  | delTimer (t : Fin N)
deriving DecidableEq

def Call.timer : Call m N → Fin N
  | addTimer t _ | modTimer t _ | modTimerPending t _ | delTimer t => t

def Call.exec (w : World m N) : Call m N → Option (World m N × Nat)
  | addTimer t expires => do
      let w ← Uki.addTimer (w.setExpires t expires) t
      some (w, 0)
  | modTimer t expires => Uki.modTimer w t expires
  | modTimerPending t expires => Uki.modTimerPending w t expires
  | delTimer t => Uki.delTimer w t

end Uki
