import Uki.Timer.Run

/-!
# Concurrent threads on the timer base

The worker and any number of clients, interleaved at the steps that lock or unlock
`base->lock`. A call is cut into the checks it makes before `lock_timer_base`,
`lock_timer_base` itself, the part that runs with the base locked, and
`spin_unlock`. `Call.exec` is these pieces run in a row (`Call.exec_eq_pieces`).
-/

set_option linter.style.nameCheck false

namespace Uki

variable {m : LongModel} {N : Nat}

/-! ## The pieces of a call -/

/-- What a call does between `lock_timer_base` and `spin_unlock`. -/
inductive Section (m : LongModel) (N : Nat) where
  | mod (t : Fin N) (expires : ULong m) (pendingOnly : Bool)
  | del (t : Fin N)
deriving DecidableEq

def Section.timer : Section m N → Fin N
  | mod t _ _ | del t => t

/-- The checks of `mod_timer`, up to the `BUG_ON` of `__mod_timer`. -/
def enterModTimer (w : World m N) (t : Fin N) (expires : ULong m) :
    Option (World m N × (Nat ⊕ Section m N)) :=
  if timerPending w t ∧ (w.timer t).expires = expires then
    some (w, .inl 1)
  else do
    let _ ← (w.timer t).function
    some (w, .inr (.mod t expires false))

/-- A call up to `lock_timer_base`, unless it returns before. -/
def Call.enter (w : World m N) : Call m N → Option (World m N × (Nat ⊕ Section m N))
  | addTimer t expires =>
    let w := w.setExpires t expires
    if timerPending w t then none else enterModTimer w t (w.timer t).expires
  | modTimer t expires => enterModTimer w t expires
  | modTimerPending t expires => do
    let _ ← (w.timer t).function
    some (w, .inr (.mod t expires true))
  | delTimer t => if timerPending w t then some (w, .inr (.del t)) else some (w, .inl 0)

/-- The result, and whether a timer was linked or unlinked. -/
def Section.exec (w : World m N) : Section m N → Option (World m N × Nat × Bool)
  | mod t expires pendingOnly =>
    if timerPending w t then do
      let w ← detachTimer w t false
      let w ← enqueueTimer (forgetNextTimer w t) t expires
      some (w, 1, true)
    else if pendingOnly then
      some (w, 0, false)
    else do
      let w ← enqueueTimer w t expires
      some (w, 0, true)
  | del t =>
    if timerPending w t then do
      let w ← detachTimer w t true
      some (forgetNextTimer w t, 1, true)
    else
      some (w, 0, false)

/-- The rest of a call. -/
def Call.finish : World m N × (Nat ⊕ Section m N) → Option (World m N × Nat)
  | (w, .inl r) => some (w, r)
  | (w, .inr x) => do
    let (w, r, _) ← x.exec (lockTimerBase w x.timer)
    some (spinUnlock w, r)

theorem __modTimer_eq_pieces (w : World m N) (t : Fin N) (e : ULong m) (pendingOnly : Bool) :
    __modTimer w t e pendingOnly =
      (w.timer t).function.bind fun _ => Call.finish (w, .inr (.mod t e pendingOnly)) := by
  unfold __modTimer Call.finish
  cases (w.timer t).function with
  | none => rfl
  | some fn =>
    simp only [lockTimerBase, Section.exec, Option.bind_eq_bind, Option.bind_some]
    by_cases hp : timerPending w t = true
    · simp [hp, Option.bind_assoc]
    · cases pendingOnly <;> simp [hp, Option.bind_assoc]

theorem modTimer_eq_pieces (w : World m N) (t : Fin N) (e : ULong m) :
    modTimer w t e = (enterModTimer w t e).bind Call.finish := by
  unfold modTimer enterModTimer
  split
  · rfl
  · rw [__modTimer_eq_pieces]
    cases (w.timer t).function <;> rfl

/-- A call of the sequential model is its pieces, with nothing in between. -/
theorem Call.exec_eq_pieces (w : World m N) (c : Call m N) :
    c.exec w = (c.enter w).bind Call.finish := by
  cases c with
  | addTimer t e =>
    simp only [Call.exec, Call.enter, Uki.addTimer]
    by_cases hp : timerPending (w.setExpires t e) t = true
    · simp [hp]
    · -- `add_timer` returns nothing, and `mod_timer` on such a timer returns 0
      simp only [hp, Bool.false_eq_true, if_false, ← modTimer_eq_pieces]
      simp only [Uki.modTimer, hp, Bool.false_eq_true, false_and, if_false, __modTimer, lockTimerBase]
      cases ((w.setExpires t e).timer t).function <;> simp [Option.bind_assoc]
  | modTimer t e => exact modTimer_eq_pieces w t e
  | modTimerPending t e =>
    simp only [Call.exec, Call.enter, Uki.modTimerPending, __modTimer_eq_pieces]
    cases (w.timer t).function <;> rfl
  | delTimer t =>
    simp only [Call.exec, Call.enter, Uki.delTimer, lockTimerBase]
    by_cases hp : timerPending w t = true
    · simp [hp, Call.finish, Section.exec, lockTimerBase, Option.bind_assoc]
    · simp [hp, Call.finish]

/-! ## The threads -/

/-- Where a thread is in a call. -/
inductive Pc (m : LongModel) (N : Nat) where
  | enter (c : Call m N)
  /-- at `lock_timer_base` -/
  | lock (x : Section m N)
  | body (x : Section m N)
  /-- at `spin_unlock`, with the result -/
  | unlock (r : Nat)
deriving DecidableEq

inductive WorkerPc (m : LongModel) (N : Nat) where
  /-- between passes -/
  | idle
  /-- at the first `spin_lock_irq` of `__run_timers` -/
  | entering
  | outer
  | inner
  /-- at the `spin_unlock_irq` before `fn(data)` -/
  | releasing
  /-- in `fn(data)`, and in a call it makes -/
  | callback (call : Option (Pc m N))
  /-- at the last `spin_unlock_irq` -/
  | leaving
deriving DecidableEq

structure Threads (m : LongModel) (N : Nat) where
  world : World m N
  worker : WorkerPc m N
  client : Nat → Option (Pc m N)

/-- What a thread does to the lock and to the lists, with the owner of the lock at
that moment. -/
inductive LockEvent where
  | acquire (p : Thread)
  | release (p : Thread) (owner : Option Thread)
  /-- a timer is linked or unlinked -/
  | touch (p : Thread) (owner : Option Thread)
deriving DecidableEq

inductive ThreadAct (m : LongModel) (N : Nat) where
  /-- the worker stores the clock in `jiffies` and enters `__run_timers` -/
  | wake (j : ULong m)
  /-- a client, or the running callback, makes a call -/
  | start (p : Thread) (c : Call m N)
  /-- a thread takes its next step -/
  | go (p : Thread)
deriving DecidableEq

def Pc.step (w : World m N) (p : Thread) :
    Pc m N → Option (World m N × Option (Pc m N) × List LockEvent)
  | enter c => do
    match ← c.enter w with
    | (w, .inl _) => some (w, none, [])
    | (w, .inr x) => some (w, some (lock x), [])
  | lock x => some (lockTimerBase w x.timer, some (body x), [])
  | body x => do
    let (w', r, touched) ← x.exec w
    some (w', some (unlock r), if touched then [.touch p w.base.lock] else [])
  | unlock _ => some (spinUnlock w, none, [.release p w.base.lock])

namespace Threads

/-- The call a thread is in. -/
def pc (s : Threads m N) : Thread → Option (Pc m N)
  | .worker =>
    match s.worker with
    | .callback call => call
    | _ => none
  | .client n => s.client n

def setPc (s : Threads m N) (p : Thread) (call : Option (Pc m N)) : Threads m N :=
  match p with
  | .worker => { s with worker := .callback call }
  | .client n => { s with client := Function.update s.client n call }

/-- Clients make calls at any time, the worker from callbacks. -/
def ready (s : Threads m N) : Thread → Bool
  | .worker => s.worker = .callback none
  | .client n => s.client n = none

/-- The worker outside of calls. -/
def workerStep (s : Threads m N) : Option (Threads m N × List LockEvent) :=
  match s.worker with
  | .idle => none
  | .entering => do
    let w ← spinLock s.world .worker
    some ({ s with world := w, worker := .outer }, [.acquire .worker])
  | .outer =>
    if timeAfterEq s.world.jiffies s.world.base.timerJiffies then do
      let w ← startTick s.world
      some ({ s with world := w, worker := .inner }, [.touch .worker s.world.base.lock])
    else
      some ({ s with worker := .leaving }, [])
  | .inner =>
    if listEmpty s.world.heap (.head .workList) then
      some ({ s with worker := .outer }, [])
    else do
      let (w, _, _, _) ← takeTimer s.world
      some ({ s with world := w, worker := .releasing }, [.touch .worker s.world.base.lock])
  | .releasing =>
    some ({ s with world := spinUnlock s.world, worker := .callback none },
      [.release .worker s.world.base.lock])
  | .callback _ => do
    let w ← spinLock s.world .worker
    some ({ s with world := w, worker := .inner }, [.acquire .worker])
  | .leaving =>
    some ({ s with world := spinUnlock s.world, worker := .idle },
      [.release .worker s.world.base.lock])

def step (s : Threads m N) : ThreadAct m N → Option (Threads m N × List LockEvent)
  | .wake j =>
    if s.worker = .idle then
      some ({ s with world := { s.world with jiffies := j }, worker := .entering }, [])
    else
      none
  | .start p c => if s.ready p then some (s.setPc p (some (.enter c)), []) else none
  | .go p =>
    match s.pc p with
    | some pc => do
      let (w, call, ev) ← pc.step s.world p
      some ({ s.setPc p call with world := w }, ev)
    | none =>
      match p with
      | .worker => s.workerStep
      | .client _ => none

end Threads

def threads (m : LongModel) (N : Nat) : Machine (Threads m N) (ThreadAct m N) LockEvent :=
  ⟨Threads.step⟩

/-- No pass has begun and no call was made. -/
def bootThreads (memory : Heap (Node N)) (setup : Fin N → TimerSetup m) (jiffies : ULong m) :
    Threads m N :=
  ⟨(boot memory setup jiffies).world, .idle, fun _ => none⟩

end Uki
