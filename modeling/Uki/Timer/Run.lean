import Uki.Timer.Wheel
import Uki.Lib.Machine

/-!
# The worker of `timer.c` and sequential runs

`cascade` and the parts of `__run_timers` between its loop tests, then two
readings of `__run_timers` built from them:

* `wheel`, a machine whose control points are the loop tests, a running
  callback, and the time between passes. While a callback runs, and between
  passes, any client operation may be called. A run of the machine is a
  sequential run of the program, and its events are the ticks the outer loop
  processes, the callbacks that run and the results of the calls.
* `__runTimers`, the two nested loops for callbacks that are given as a
  function. Its bound counts loop turns.
-/

set_option linter.style.nameCheck false

namespace Uki

variable {m : LongModel} {N : Nat}

/-! ## Cascading -/

/-- `list_for_each_entry_safe(timer, tmp, &tv_list, entry)` with the body of
`cascade`: `timer` is the entry to move, `tmp` the one read before it was
moved. A ring has at most `N` entries, so the loop is cut off after `N + 1`
tests. -/
def cascadeLoop : Nat → World m N → Node N → Node N → Option (World m N)
  | 0, _, _, _ => none
  | fuel + 1, w, timer, tmp =>
    match timer with
    | .head b => if b = .tvList then some w else none
    | .entry t => do
      let w ← internalAddTimer w t
      let next ← (w.heap.next tmp).deref
      cascadeLoop fuel w tmp next

def cascade (w : World m N) (tv : Tv) (index : Nat) : Option (World m N × Nat) := do
  let h ← listReplaceInit w.heap (.head (.vec tv index)) (.head .tvList)
  let timer ← (h.next (.head .tvList)).deref
  let tmp ← (h.next timer).deref
  let w ← cascadeLoop (N + 1) (w.setHeap h) timer tmp
  some (w, index)

/-- `INDEX(n)`. -/
def wheelIndex (w : World m N) (n : Nat) : Nat :=
  ((w.base.timerJiffies >>> (TVR_BITS + n * TVN_BITS)) &&& BitVec.ofNat _ TVN_MASK).toNat

/-- The condition chain of `__run_timers`: a vector is cascaded when the
indices below it have all wrapped to zero. -/
def cascadeTimers (w : World m N) (index : Nat) : Option (World m N) := do
  if index ≠ 0 then return w
  let (w, i) ← cascade w .tv2 (wheelIndex w 0)
  if i ≠ 0 then return w
  let (w, i) ← cascade w .tv3 (wheelIndex w 1)
  if i ≠ 0 then return w
  let (w, i) ← cascade w .tv4 (wheelIndex w 2)
  if i ≠ 0 then return w
  let (w, _) ← cascade w .tv5 (wheelIndex w 3)
  return w

/-! ## The worker -/

/-- The body of the outer loop up to the inner loop. -/
def startTick (w : World m N) : Option (World m N) := do
  let index := (w.base.timerJiffies &&& BitVec.ofNat _ TVR_MASK).toNat
  let w ← cascadeTimers w index
  let w := { w with base := { w.base with timerJiffies := w.base.timerJiffies + 1 } }
  let h ← listReplaceInit w.heap (.head (.vec .tv1 index)) (.head .workList)
  some (w.setHeap h)

/-- The body of the inner loop up to the call of `fn(data)`. -/
def takeTimer (w : World m N) : Option (World m N × Fin N × Nat × ULong m) :=
  match w.heap.next (.head .workList) with
  | .to (.entry t) => do
    let fn ← (w.timer t).function
    let data := (w.timer t).data
    let w ← detachTimer w t true
    some (w, t, fn, data)
  | _ => none

/-- Where the worker is. -/
inductive Ctl (N : Nat) where
  /-- between passes -/
  | idle
  /-- at the test of the outer loop -/
  | outer
  /-- at the test of the inner loop -/
  | inner
  /-- in the callback of `t` -/
  | callback (t : Fin N)
deriving DecidableEq

structure Sys (m : LongModel) (N : Nat) where
  world : World m N
  ctl : Ctl N

inductive Act (m : LongModel) (N : Nat) where
  /-- a client, or the running callback, calls an operation -/
  | call (c : Call m N)
  /-- the worker stores the clock in `jiffies` and enters `__run_timers` -/
  | wake (j : ULong m)
  /-- the worker goes on to its next control point -/
  | run
deriving DecidableEq

inductive Event (m : LongModel) (N : Nat) where
  /-- an outer iteration starts with this `timer_jiffies` -/
  | iter (tick : ULong m)
  /-- `fn(data)` is called for `t` -/
  | fire (t : Fin N) (fn : Nat) (data : ULong m)
  /-- a call returned -/
  | ret (c : Call m N) (r : Nat)
deriving DecidableEq

/-- Operations are called between passes and from callbacks. -/
def Ctl.open : Ctl N → Bool
  | .idle | .callback _ => true
  | .outer | .inner => false

def Sys.step (s : Sys m N) : Act m N → Option (Sys m N × List (Event m N))
  | .call c =>
    if s.ctl.open then do
      let (w, r) ← c.exec s.world
      some (⟨w, s.ctl⟩, [.ret c r])
    else
      none
  | .wake j =>
    if s.ctl = .idle then do
      let w ← spinLock { s.world with jiffies := j } .worker
      some (⟨w, .outer⟩, [])
    else
      none
  | .run =>
    match s.ctl with
    | .idle => none
    | .outer =>
      if timeAfterEq s.world.jiffies s.world.base.timerJiffies then do
        let w ← startTick s.world
        some (⟨w, .inner⟩, [.iter s.world.base.timerJiffies])
      else
        some (⟨spinUnlock s.world, .idle⟩, [])
    | .inner =>
      if listEmpty s.world.heap (.head .workList) then
        some (⟨s.world, .outer⟩, [])
      else do
        let (w, t, fn, data) ← takeTimer s.world
        some (⟨spinUnlock w, .callback t⟩, [.fire t fn data])
    | .callback _ => do
      let w ← spinLock s.world .worker
      some (⟨w, .inner⟩, [])

def wheel (m : LongModel) (N : Nat) : Machine (Sys m N) (Act m N) (Event m N) := ⟨Sys.step⟩

/-- What the program stores in a timer before its first use. -/
structure TimerSetup (m : LongModel) where
  expires : ULong m
  function : Nat
  data : ULong m

/-- Memory after every timer was set up and `init_timers_uki` ran at `jiffies`.
`memory` is whatever the list nodes held before. -/
def boot (memory : Heap (Node N)) (setup : Fin N → TimerSetup m) (jiffies : ULong m) : Sys m N :=
  let blank : World m N :=
    { heap := memory
      timer := fun t => ⟨(setup t).expires, none, 0, ukiTvecBase⟩
      base := ⟨none, 0, 0⟩
      jiffies := jiffies }
  let w := (List.finRange N).foldl
    (fun w t => setupTimerKey w t (setup t).function (setup t).data) blank
  ⟨initTimersUki w, .idle⟩

/-! ## `__run_timers` as nested loops -/

/-- The callbacks of a program: what the callback of a timer calls, given the
state of the environment and of the wheel when it starts. -/
abbrev Callbacks (σ : Type) (m : LongModel) (N : Nat) : Type :=
  σ → World m N → Fin N → σ × List (Call m N)

def execCalls : World m N → List (Call m N) → Option (World m N)
  | w, [] => some w
  | w, c :: cs => do
    let (w, _) ← c.exec w
    execCalls w cs

variable {σ : Type}

/-- The inner loop, with the timers whose callbacks it runs. -/
def runWorkList (cb : Callbacks σ m N) :
    Nat → σ → World m N → Option (σ × World m N × List (Fin N))
  | 0, _, _ => none
  | fuel + 1, e, w =>
    if listEmpty w.heap (.head .workList) then
      some (e, w, [])
    else do
      let (w, t, _, _) ← takeTimer w
      let w := spinUnlock w
      let (e, calls) := cb e w t
      let w ← execCalls w calls
      let w ← spinLock w .worker
      let (e, w, ts) ← runWorkList cb fuel e w
      some (e, w, t :: ts)

/-- One turn of the inner loop. -/
theorem runWorkList_cons {cb : Callbacks σ m N} {w w' : World m N} {t : Fin N} (fuel : Nat)
    {e e' : σ} {fn : Nat} {data : ULong m} {calls : List (Call m N)}
    (hne : listEmpty w.heap (.head .workList) = false)
    (ht : takeTimer w = some (w', t, fn, data)) (hcb : cb e (spinUnlock w') t = (e', calls)) :
    runWorkList cb (fuel + 1) e w =
      (execCalls (spinUnlock w') calls).bind fun w₂ => (spinLock w₂ .worker).bind fun w₃ =>
        (runWorkList cb fuel e' w₃).bind fun r => some (r.1, r.2.1, t :: r.2.2) := by
  simp [runWorkList, hne, ht, hcb]

/-- The outer loop, with the ticks it processes and the timers run at each. -/
def runTicks (cb : Callbacks σ m N) :
    Nat → σ → World m N → Option (σ × World m N × List (ULong m × List (Fin N)))
  | 0, _, _ => none
  | fuel + 1, e, w =>
    if timeAfterEq w.jiffies w.base.timerJiffies then do
      let tick := w.base.timerJiffies
      let w ← startTick w
      let (e, w, ts) ← runWorkList cb fuel e w
      let (e, w, trace) ← runTicks cb fuel e w
      some (e, w, (tick, ts) :: trace)
    else
      some (e, w, [])

def __runTimers (cb : Callbacks σ m N) (fuel : Nat) (e : σ) (w : World m N) :
    Option (σ × World m N × List (ULong m × List (Fin N))) := do
  let w ← spinLock w .worker
  let (e, w, trace) ← runTicks cb fuel e w
  some (e, spinUnlock w, trace)

end Uki
