import Uki.Timer.Conservation
import Uki.Timer.Lock

/-!
# Sections that are preempted

`Uki.Timer.Threads` takes what a call does past `lock_timer_base` as one step. Here a thread
can be preempted between any two operations of `__mod_timer` and `del_timer`, also while it
has a timer in its hands that is in no list. The other threads make calls meanwhile, up to
`lock_timer_base`, with checks that need no lock.

Results:
1. `Call.exec_eq_stages`: a call of the sequential model is the stages, run in a row.
2. `preempted_sections_keep_wheel`: when no two threads are past `lock_timer_base` at a time,
   and none while the worker holds the lock, then no timer is lost or in two places wherever
   the threads are, and no step faults but `add_timer` on a pending timer.
3. `preempted_timers_alternate`: under the same conditions no activation of a timer is lost,
   and none is run twice.

The code takes no lock there, so it is up to the callers that these conditions hold. An
example shows two deletions of one timer that overlap; the second faults on the poison.
-/

set_option linter.style.nameCheck false

namespace Uki

variable {m : LongModel} {N : Nat} {w w' : World m N} {q : Queues m N}

/-! ## The stages of a section -/

/-- Where a thread is past `lock_timer_base`. -/
inductive Stage (m : LongModel) (N : Nat) where
  /-- at the test of `timer_pending` -/
  | test (x : Section m N)
  /-- at `detach_timer`, and the expiry the timer is enqueued with, if it is -/
  | detach (t : Fin N) (expires : Option (ULong m))
  /-- at the test of `next_timer` after it -/
  | forget (t : Fin N) (expires : Option (ULong m))
  /-- at `internal_add_timer` -/
  | enqueue (t : Fin N) (expires : ULong m) (ret : Nat)
  /-- at `timer->expires = expires` -/
  | store (t : Fin N) (expires : ULong m) (ret : Nat)
  /-- at the test of `next_timer` after it -/
  | bound (t : Fin N) (ret : Nat)
  /-- at `spin_unlock` -/
  | unlock (ret : Nat)
deriving DecidableEq

/-- The next stage, or what the call returns. -/
def Stage.step (w : World m N) : Stage m N → Option (World m N × (Stage m N ⊕ Nat))
  | test (.mod t expires pendingOnly) =>
    if timerPending w t then
      some (w, .inl (detach t (some expires)))
    else if pendingOnly then
      some (w, .inl (unlock 0))
    else
      some (w, .inl (enqueue t expires 0))
  | test (.del t) => some (w, .inl (if timerPending w t then detach t none else unlock 0))
  | detach t expires => do
    -- the mark is cleared when the timer is deleted
    let w ← detachTimer w t expires.isNone
    some (w, .inl (forget t expires))
  | forget t none => some (forgetNextTimer w t, .inl (unlock 1))
  | forget t (some expires) => some (forgetNextTimer w t, .inl (enqueue t expires 1))
  | enqueue t expires ret => do
    let w ← internalAddTimer w t
    some (w, .inl (store t expires ret))
  | store t expires ret => some (w.setExpires t expires, .inl (bound t ret))
  | bound t ret =>
    let lower := timeBefore (w.timer t).expires w.base.nextTimer ∧
      !tbaseGetDeferrable (w.timer t).base
    some (if lower then w.setNextTimer (w.timer t).expires else w, .inl (unlock ret))
  | unlock ret => some (spinUnlock w, .inr ret)

/-- The stages from `g` on, with nothing in between. -/
def Stage.finish : Nat → World m N → Stage m N → Option (World m N × Nat)
  | 0, _, _ => none
  | fuel + 1, w, g => do
    match ← g.step w with
    | (w, .inl g) => finish fuel w g
    | (w, .inr ret) => some (w, ret)

/-- The stages that enqueue a timer. -/
theorem Stage.finish_enqueue (w : World m N) (t : Fin N) (e : ULong m) (ret k : Nat) :
    Stage.finish (k + 4) w (.enqueue t e ret) =
      (enqueueTimer w t e).bind fun w => some (spinUnlock w, ret) := by
  simp only [Stage.finish, Stage.step, enqueueTimer, Option.bind_eq_bind, Option.bind_assoc,
    Option.bind_some]
  congr 1
  funext w'
  split <;> rfl

/-- A section is its stages, and a section has at most seven. -/
theorem Call.finish_eq_stages (w : World m N) (x : Section m N) :
    Call.finish (w, .inr x) = Stage.finish 7 (lockTimerBase w x.timer) (.test x) := by
  cases x with
  | mod t e pendingOnly =>
    cases hp : timerPending w t with
    | true =>
      have h (w : World m N) : Stage.finish 5 w (.forget t (some e)) =
          Stage.finish 4 (forgetNextTimer w t) (.enqueue t e 1) := rfl
      have h' : Stage.finish 7 w (.test (.mod t e pendingOnly)) =
          (detachTimer w t false).bind fun w => Stage.finish 5 w (.forget t (some e)) := by
        simp [Stage.finish, Stage.step, hp, Option.bind_assoc]
      simp only [lockTimerBase, h', h, Stage.finish_enqueue _ t e 1 0, Call.finish, Section.exec,
        hp, if_true, Option.bind_eq_bind, Option.bind_assoc, Option.bind_some]
    | false =>
      cases pendingOnly with
      | true => simp [Call.finish, Section.exec, Stage.finish, Stage.step, lockTimerBase, hp]
      | false =>
        have h : Stage.finish 7 w (.test (.mod t e false)) =
            Stage.finish 6 w (.enqueue t e 0) := by
          simp [Stage.finish, Stage.step, hp]
        simp [lockTimerBase, h, Stage.finish_enqueue w t e 0 2, Call.finish, Section.exec, hp,
          Option.bind_assoc]
  | del t =>
    cases hp : timerPending w t with
    | true =>
      simp [Call.finish, Section.exec, Stage.finish, Stage.step, lockTimerBase, hp,
        Option.bind_assoc]
    | false => simp [Call.finish, Section.exec, Stage.finish, Stage.step, lockTimerBase, hp]

/-- What is left of a call after its checks, in stages. -/
def Call.runStages : World m N × (Nat ⊕ Section m N) → Option (World m N × Nat)
  | (w, .inl r) => some (w, r)
  | (w, .inr x) => Stage.finish 7 (lockTimerBase w x.timer) (.test x)

theorem Call.exec_eq_stages (w : World m N) (c : Call m N) :
    c.exec w = (c.enter w).bind Call.runStages := by
  rw [Call.exec_eq_pieces]
  congr 1
  funext p
  obtain ⟨w, r | x⟩ := p
  · rfl
  · exact Call.finish_eq_stages w x

/-! ## Threads that are preempted in their sections -/

/-- What a run shows. A call that moves a pending timer shows only that it returns. -/
inductive TimerEvent (m : LongModel) (N : Nat) where
  /-- `internal_add_timer` has linked a timer that was not pending -/
  | arm (t : Fin N)
  /-- `del_timer` has detached a timer -/
  | del (t : Fin N)
  /-- the worker has detached a timer, and calls `fn(data)` for it -/
  | fire (t : Fin N) (fn : Nat) (data : ULong m)
  /-- a call has returned -/
  | ret (p : Thread) (r : Nat)
deriving DecidableEq

/-- What the thread shows when it takes this stage. -/
def Stage.events (p : Thread) : Stage m N → List (TimerEvent m N)
  | detach t none => [.del t]
  | enqueue t _ ret => if ret = 0 then [.arm t] else []
  | unlock ret => [.ret p ret]
  | test _ | detach _ (some _) | forget _ _ | store _ _ _ | bound _ _ => []

/-- What a step of the worker from here shows. -/
def WorkerPc.events (w : World m N) : WorkerPc m N → List (TimerEvent m N)
  | inner =>
    match listEmpty w.heap (.head .workList), takeTimer w with
    | false, some (_, t, fn, data) => [.fire t fn data]
    | _, _ => []
  | idle | entering | outer | releasing | callback _ | leaving => []

structure Preempted (m : LongModel) (N : Nat) where
  world : World m N
  /-- `callback` while a callback runs, also in the calls it makes -/
  worker : WorkerPc m N
  /-- The threads in a call that are not past `lock_timer_base`: in its checks, or at
  `lock_timer_base`. -/
  waiting : Thread → Option (Call m N ⊕ Section m N)
  /-- The threads past `lock_timer_base`. -/
  inside : List (Thread × Stage m N)

namespace Preempted

/-- Clients make calls at any time, the worker from callbacks. -/
def ready (s : Preempted m N) (p : Thread) : Bool :=
  (s.inside.lookup p).isNone && (s.waiting p).isNone &&
    match p, s.worker with
    | .worker, .callback _ => true
    | .worker, _ => false
    | .client _, _ => true

/-- The thread is in a call, or it is the worker in a pass. -/
def busy (s : Preempted m N) (p : Thread) : Bool :=
  (s.inside.lookup p).isSome || (s.waiting p).isSome || (p = .worker ∧ s.worker ≠ .idle)

/-- A thread moves on in its section, or out of it. -/
def setStage (s : Preempted m N) (p : Thread) (g : Option (Stage m N)) : Preempted m N :=
  { s with inside := (g.toList.map fun g => (p, g)) ++ s.inside.filter fun x => x.1 ≠ p }

def step (s : Preempted m N) : ThreadAct m N → Option (Preempted m N × List (TimerEvent m N))
  | .wake j =>
    if s.worker = .idle then
      some ({ s with world := { s.world with jiffies := j }, worker := .entering }, [])
    else
      none
  | .start p c =>
    if s.ready p then
      some ({ s with waiting := Function.update s.waiting p (some (.inl c)) }, [])
    else
      none
  | .go p =>
    match s.inside.lookup p with
    | some g => do
      let (w, next) ← g.step s.world
      some ({ s.setStage p next.getLeft? with world := w }, g.events p)
    | none =>
      match s.waiting p with
      | some (.inl c) => do
        match ← c.enter s.world with
        | (w, .inl ret) =>
          some ({ s with world := w, waiting := Function.update s.waiting p none }, [.ret p ret])
        | (w, .inr x) =>
          some ({ s with world := w, waiting := Function.update s.waiting p (some (.inr x)) }, [])
      | some (.inr x) =>
        some ({ s.setStage p (some (.test x)) with
          world := lockTimerBase s.world x.timer
          waiting := Function.update s.waiting p none }, [])
      | none =>
        match p with
        | .worker => do
          let (threads, _) ← Threads.workerStep ⟨s.world, s.worker, fun _ => none⟩
          some ({ s with world := threads.world, worker := threads.worker },
            s.worker.events s.world)
        | .client _ => none

/-- The thread is at `lock_timer_base`, or it is the worker at `spin_lock_irq`. -/
def atLock (s : Preempted m N) (p : Thread) : Bool :=
  (s.inside.lookup p).isNone &&
    match s.waiting p, p, s.worker with
    | some (.inr _), _, _ => true
    | none, .worker, .entering => true
    | none, .worker, .callback _ => true
    | _, _, _ => false

/-- What the annotation of `lock_timer_base` promises: a thread goes on only when the worker
does not hold the lock and no thread is past `lock_timer_base`. -/
def Serial (s : Preempted m N) : ThreadAct m N → Prop
  | .go p => s.atLock p = true → s.world.base.lock = none ∧ s.inside.length = 0
  | .wake _ | .start _ _ => True

instance (s : Preempted m N) : (a : ThreadAct m N) → Decidable (s.Serial a)
  | .go p => inferInstanceAs (Decidable (s.atLock p = true → _))
  | .wake _ | .start _ _ => isTrue trivial

end Preempted

def preempted (m : LongModel) (N : Nat) :
    Machine (Preempted m N) (ThreadAct m N) (TimerEvent m N) :=
  ⟨Preempted.step⟩

/-- No pass has begun and no call was made. -/
def bootPreempted (memory : Heap (Node N)) (setup : Fin N → TimerSetup m) (jiffies : ULong m) :
    Preempted m N :=
  ⟨(boot memory setup jiffies).world, .idle, fun _ => none, []⟩

/-! ## Stages on the queues -/

/-- The work list is in use. -/
def WorkerPc.working : WorkerPc m N → Bool
  | inner | releasing | callback _ => true
  | idle | entering | outer | leaving => false

variable {working : Bool}

/-- The timer that the thread has taken out of its list and not yet put back. -/
def Stage.hand : Stage m N → List (Fin N)
  | forget t (some _) => [t]
  | enqueue t _ ret => if ret = 0 then [] else [t]
  | test _ | detach _ _ | forget _ none | store _ _ _ | bound _ _ | unlock _ => []

/-- What the stages before have left. -/
def Stage.Ready (q : Queues m N) : Stage m N → Prop
  | detach t _ => q.Pending t
  | forget t _ | enqueue t _ _ => ¬ q.Pending t
  | test _ | store _ _ _ | bound _ _ | unlock _ => True

theorem Stage.Ready.congr {q' : Queues m N} {g : Stage m N} (h : g.Ready q)
    (hl : q'.list = q.list) : g.Ready q' := by
  have hp (t : Fin N) : q'.Pending t ↔ q.Pending t := by simp only [Queues.Pending, hl]
  cases g with
  | detach t e => exact (hp t).mpr h
  | forget t e | enqueue t e ret => exact fun ht => h ((hp t).mp ht)
  | test | store | bound | unlock => trivial

/-- `detach_timer` clears the mark of a timer only when it is asked to. -/
theorem detachTimer_mark {t : Fin N} (h : detachTimer w t false = some w') :
    timerPending w' t = true := by
  obtain ⟨prev, -, h⟩ := Option.bind_eq_some_iff.mp h
  obtain ⟨next, hn, h⟩ := Option.bind_eq_some_iff.mp h
  cases h
  have hne : w.heap.next (.entry t) ≠ .null := by
    intro h0
    rw [h0] at hn
    cases hn
  simp only [timerPending, World.setHeap, Bool.false_eq_true, if_false, Heap.next_setPrev,
    __listDel, Heap.next_setNext, bne_iff_ne]
  split
  · simp
  · exact hne

theorem forgetNextTimer_heap (w : World m N) (t : Fin N) : (forgetNextTimer w t).heap = w.heap := by
  unfold forgetNextTimer
  split <;> rfl

/-- Memory realizes the queues, but for the timer in hand, which keeps its mark. -/
structure Stage.Holds (working : Bool) (w : World m N) (q : Queues m N) (g : Stage m N) : Prop where
  realizes : Realizes working g.hand w q
  ready : g.Ready q
  marked : ∀ t ∈ g.hand, timerPending w t = true

/-- What `timer_pending` tells when a timer in `loose` keeps its mark. -/
theorem Realizes.timerPending_iff_loose {loose : List (Fin N)} (R : Realizes working loose w q)
    (hmark : ∀ t ∈ loose, timerPending w t = true) {t : Fin N} :
    timerPending w t = true ↔ q.Pending t ∨ t ∈ loose := by
  constructor
  · intro hp
    by_contra hn
    simp only [not_or] at hn
    simp [timerPending, R.null t hn.2 hn.1] at hp
  · rintro (⟨b, hm⟩ | ht)
    · obtain ⟨n, hn⟩ := R.next_ne_null hm
      simp [timerPending, hn]
    · exact hmark t ht

theorem Stage.Holds.timerPending_iff {g : Stage m N} {t : Fin N} (H : g.Holds working w q) :
    timerPending w t = true ↔ q.Pending t ∨ t ∈ g.hand :=
  H.realizes.timerPending_iff_loose H.marked

theorem Queues.pending_remove {t u : Fin N} : (q.remove t).Pending u ↔ q.Pending u ∧ u ≠ t := by
  simp only [Pending, mem_remove, exists_and_right]

theorem Queues.pending_insert {b : Head} {t u : Fin N} :
    (q.insert b t).Pending u ↔ q.Pending u ∨ u = t := by
  simp only [Pending, mem_insert, exists_or, exists_and_right, exists_eq, true_and]

/-! ## Events and marks -/

/-- What an event makes of the mark of `t`, when it can happen: a timer is linked when it is
not pending, and deleted or run when it is. -/
def TimerEvent.mark (t : Fin N) (pending : Bool) : TimerEvent m N → Option Bool
  | arm u => if u ≠ t then some pending else if pending then none else some true
  | del u | fire u _ _ => if u ≠ t then some pending else if pending then some false else none
  | ret _ _ => some pending

/-- The events lead from the marks in `w` to the marks in `w'`. -/
def Marks (w : World m N) (ev : List (TimerEvent m N)) (w' : World m N) : Prop :=
  ∀ t, ev.foldlM (TimerEvent.mark t) (timerPending w t) = some (timerPending w' t)

namespace Marks

variable {w'' : World m N} {ev ev' : List (TimerEvent m N)} {t : Fin N}

theorem trans (h : Marks w ev w') (h' : Marks w' ev' w'') : Marks w (ev ++ ev') w'' := by
  intro t
  rw [List.foldlM_append, h t]
  exact h' t

/-- Events that are about no timer. -/
theorem keep (h : ∀ t, timerPending w' t = timerPending w t)
    (hev : ∀ t b, ev.foldlM (TimerEvent.mark t) b = some b) : Marks w ev w' := by
  intro t
  rw [h, hev]

theorem of_heap (h : w'.heap = w.heap)
    (hev : ∀ t b, ev.foldlM (TimerEvent.mark t) b = some b) : Marks w ev w' :=
  keep (fun t => by rw [timerPending, timerPending, h]) hev

theorem arm (hw : timerPending w t = false) (hw' : timerPending w' t = true)
    (h : ∀ u, u ≠ t → timerPending w' u = timerPending w u) : Marks w [.arm t] w' := by
  intro u
  by_cases hu : t = u
  · simp [TimerEvent.mark, ← hu, hw, hw']
  · simp [TimerEvent.mark, hu, h u (Ne.symm hu)]

theorem del (hw : timerPending w t = true) (hw' : timerPending w' t = false)
    (h : ∀ u, u ≠ t → timerPending w' u = timerPending w u) : Marks w [.del t] w' := by
  intro u
  by_cases hu : t = u
  · simp [TimerEvent.mark, ← hu, hw, hw']
  · simp [TimerEvent.mark, hu, h u (Ne.symm hu)]

theorem fire {fn : Nat} {data : ULong m} (h : Marks w [.del t] w') : Marks w [.fire t fn data] w' :=
  h

end Marks

/-- The stage can be taken, keeps the invariant and tells what it does to the marks. -/
def Stage.Moves (working : Bool) (w : World m N) (q : Queues m N) (g : Stage m N) : Prop :=
  ∃ w' q' next, g.step w = some (w', next) ∧ (q.lock = none → q'.lock = none) ∧
    (∀ p, Marks w (g.events p) w') ∧
    match next with
    | .inl g' => g'.Holds working w' q'
    | .inr _ => Realizes working [] w' q'

section Stages

variable {t : Fin N} {e : ULong m} {ret : Nat}

/-- No timer is in hand. -/
theorem Stage.no_hand : ∀ u ∈ ([] : List (Fin N)), timerPending w u = true :=
  fun _ hu => absurd hu List.not_mem_nil

/-- A timer is deleted. -/
theorem Stage.detach_none_spec (H : (Stage.detach t none).Holds working w q) :
    (Stage.detach t none).Moves working w q := by
  obtain ⟨b, hm⟩ := H.ready
  obtain ⟨k, hk, R'⟩ := detachTimer_spec H.realizes hm true
  have hnp : ¬ (q.remove t).Pending t := fun h => (Queues.pending_remove.mp h).2 rfl
  have H' : (Stage.forget t none).Holds working (w.setHeap k) (q.remove t) := ⟨R', hnp, no_hand⟩
  have hst : (Stage.detach t none).step w = some (w.setHeap k, .inl (.forget t none)) := by
    simp [step, hk]
  have hw : timerPending w t = true := H.timerPending_iff.mpr (.inl ⟨b, hm⟩)
  refine ⟨_, q.remove t, _, hst, id, fun _ => .del hw ?_ ?_, H'⟩
  · rw [← Bool.not_eq_true, H'.timerPending_iff]
    simp [hnp, hand]
  · intro u hu
    rw [Bool.eq_iff_iff, H'.timerPending_iff, H.timerPending_iff, Queues.pending_remove]
    simp [hu, hand]

/-- A timer is taken in hand, and keeps its mark. -/
theorem Stage.detach_some_spec (H : (Stage.detach t (some e)).Holds working w q) :
    (Stage.detach t (some e)).Moves working w q := by
  obtain ⟨b, hm⟩ := H.ready
  obtain ⟨k, hk, R'⟩ := detachTimer_spec H.realizes hm false
  have hnp : ¬ (q.remove t).Pending t := fun h => (Queues.pending_remove.mp h).2 rfl
  have H' : (Stage.forget t (some e)).Holds working (w.setHeap k) (q.remove t) := by
    refine ⟨R', hnp, fun u hu => ?_⟩
    rw [List.mem_singleton.mp hu]
    exact detachTimer_mark hk
  have hst : (Stage.detach t (some e)).step w = some (w.setHeap k, .inl (.forget t (some e))) := by
    simp [step, hk]
  refine ⟨_, q.remove t, _, hst, id, fun _ => .keep (fun u => ?_) fun _ _ => rfl, H'⟩
  rw [Bool.eq_iff_iff, H'.timerPending_iff, H.timerPending_iff, Queues.pending_remove]
  by_cases hu : u = t
  · simp [hu, hand, show q.Pending t from ⟨b, hm⟩]
  · simp [hu, hand]

/-- A timer is linked, and no longer in hand. -/
theorem Stage.enqueue_spec (H : (Stage.enqueue t e ret).Holds working w q) :
    (Stage.enqueue t e ret).Moves working w q := by
  have R : Realizes working [t] w q := by
    have R := H.realizes
    simp only [hand] at R
    split at R
    · exact R.weaken t
    · exact R
  obtain ⟨k, hk, R', -⟩ := internalAddTimer_spec R H.ready
  have H' : (Stage.store t e ret).Holds working (w.setHeap k) (q.insert (q.file t) t) :=
    ⟨R', trivial, no_hand⟩
  refine ⟨w.setHeap k, q.insert (q.file t) t, .inl (.store t e ret), by simp [step, hk], id,
    fun p => ?_, H'⟩
  have hu {u : Fin N} : timerPending (w.setHeap k) u = true ↔ q.Pending u ∨ u = t := by
    rw [H'.timerPending_iff, Queues.pending_insert]
    simp [hand]
  by_cases hret : ret = 0
  · -- the timer was not pending
    have hnp : ¬ q.Pending t := H.ready
    rw [events, if_pos hret]
    refine .arm ?_ (hu.mpr (.inr rfl)) fun u hne => ?_
    · rw [← Bool.not_eq_true, H.timerPending_iff]
      simp [hand, hret, hnp]
    · rw [Bool.eq_iff_iff, hu, H.timerPending_iff]
      simp [hand, hret, hne]
  · -- the timer was in hand, and pending for the others
    rw [events, if_neg hret]
    refine .keep (fun u => ?_) fun _ _ => rfl
    rw [Bool.eq_iff_iff, hu, H.timerPending_iff]
    simp [hand, hret]

end Stages

/-- A stage can always be taken. -/
theorem Stage.step_spec {g : Stage m N} (H : g.Holds working w q) : g.Moves working w q := by
  have ⟨R, hg, hmark⟩ := H
  cases g with
  | test x =>
    have still (p : Thread) : Marks w ((test x).events p) w := .of_heap rfl fun _ _ => rfl
    cases x with
    | mod t e pendingOnly =>
      by_cases ht : q.Pending t
      · have hp := R.timerPending_iff.mpr ht
        exact ⟨w, q, .inl (.detach t (some e)), by simp [step, hp], id, still, R, ht, no_hand⟩
      · have hp := R.timerPending_eq_false ht
        cases pendingOnly with
        | true => exact ⟨w, q, .inl (.unlock 0), by simp [step, hp], id, still, R, trivial, no_hand⟩
        | false =>
          exact ⟨w, q, .inl (.enqueue t e 0), by simp [step, hp], id, still, R, ht, no_hand⟩
    | del t =>
      by_cases ht : q.Pending t
      · have hp := R.timerPending_iff.mpr ht
        exact ⟨w, q, .inl (.detach t none), by simp [step, hp], id, still, R, ht, no_hand⟩
      · have hp := R.timerPending_eq_false ht
        exact ⟨w, q, .inl (.unlock 0), by simp [step, hp], id, still, R, trivial, no_hand⟩
  | detach t expires =>
    cases expires with
    | none => exact detach_none_spec H
    | some e => exact detach_some_spec H
  | forget t expires =>
    have R' := forgetNextTimer_spec R t
    have still (p : Thread) : Marks w ((forget t expires).events p) (forgetNextTimer w t) :=
      .of_heap (forgetNextTimer_heap w t) fun _ _ => rfl
    cases expires with
    | none => exact ⟨_, q, .inl (.unlock 1), rfl, id, still, R', trivial, no_hand⟩
    | some e =>
      refine ⟨_, q, .inl (.enqueue t e 1), rfl, id, still, R', hg, fun u hu => ?_⟩
      rw [timerPending, forgetNextTimer_heap]
      exact hmark u hu
  | enqueue t e ret => exact enqueue_spec H
  | store t e ret =>
    exact ⟨_, q.store t e, .inl (.bound t ret), rfl, id, fun _ => .of_heap rfl fun _ _ => rfl,
      R.setExpires t e, trivial, no_hand⟩
  | bound t ret =>
    refine ⟨_, q, .inl (.unlock ret), rfl, id, fun _ => .of_heap ?_ fun _ _ => rfl, ?_, trivial,
      no_hand⟩
    · split <;> rfl
    · split
      · exact R.setNextTimer _
      · exact R
  | unlock ret =>
    exact ⟨_, q.unlock, .inr ret, rfl, fun _ => rfl, fun _ => .of_heap rfl fun _ _ => rfl,
      R.spinUnlock⟩

/-! ## The other steps on the queues -/

/-- In a pass, and with nobody in a section, the worker can go on, and tells which callback it
is about to make. -/
theorem workerStep_spec {pc : WorkerPc m N} (client : Nat → Option (Pc m N))
    (R : Realizes pc.working [] w q) (hl : q.lock = if pc.holds then some .worker else none)
    (hne : pc ≠ .idle) :
    ∃ s ev q', Threads.workerStep ⟨w, pc, client⟩ = some (s, ev) ∧
      Realizes s.worker.working [] s.world q' ∧
      (q'.lock = if s.worker.holds then some .worker else none) ∧
      Marks w (pc.events w) s.world := by
  have hlw := R.lock.trans hl
  have still {w' : World m N} (h : w'.heap = w.heap) : Marks w [] w' := .of_heap h fun _ _ => rfl
  cases pc with
  | idle => exact absurd rfl hne
  | entering =>
    have hn : w.base.lock = none := hlw
    refine ⟨⟨_, .outer, client⟩, [.acquire .worker], _, ?_, Sys.Holds.realizes_locked R, rfl,
      still rfl⟩
    simp [Threads.workerStep, spinLock, hn]
  | outer =>
    cases hj : timeAfterEq q.jiffies q.timerJiffies with
    | true =>
      obtain ⟨w', hw', R'⟩ := startTick_spec R
      refine ⟨⟨w', .inner, client⟩, [.touch .worker w.base.lock], q.startTick, ?_, R',
        q.lock_startTick.trans hl, .keep (fun t => ?_) fun _ _ => rfl⟩
      · simp [Threads.workerStep, R.jiffies, R.timerJiffies, hj, hw']
      · rw [Bool.eq_iff_iff, R'.timerPending_iff, R.timerPending_iff,
          Queues.pending_startTick R.sound]
    | false =>
      refine ⟨⟨w, .leaving, client⟩, [], q, ?_, R, hl, still rfl⟩
      simp [Threads.workerStep, R.jiffies, R.timerJiffies, hj]
  | inner =>
    cases hq : q.list .workList with
    | nil =>
      have he := (listEmpty_workList R).mpr hq
      refine ⟨⟨w, .outer, client⟩, [], q, by simp [Threads.workerStep, he], R.forget hq, hl, ?_⟩
      rw [WorkerPc.events, he]
      exact still rfl
    | cons t ts =>
      obtain ⟨w', hw', R'⟩ := takeTimer_spec R hq
      have he := listEmpty_workList_cons R hq
      have htaken {u : Fin N} : timerPending w' u = true ↔ q.Pending u ∧ u ≠ t := by
        simp only [R'.timerPending_iff, Queues.Pending, Queues.mem_takeTimer hq R.sound,
          exists_and_right]
      refine ⟨⟨w', .releasing, client⟩, [.touch .worker w.base.lock], q.takeTimer,
        by simp [Threads.workerStep, he, hw'], R', hl, ?_⟩
      simp only [WorkerPc.events, he, hw']
      refine .fire (.del (R.timerPending_iff.mpr ⟨.workList, by simp [hq]⟩) ?_ fun u hu => ?_)
      · rw [← Bool.not_eq_true, htaken]
        exact fun h => h.2 rfl
      · rw [Bool.eq_iff_iff, htaken, R.timerPending_iff]
        simp [hu]
  | releasing => exact ⟨_, _, _, rfl, R.spinUnlock, rfl, still rfl⟩
  | callback call =>
    have hn : w.base.lock = none := hlw
    refine ⟨⟨_, .inner, client⟩, [.acquire .worker], _, ?_, Sys.Holds.realizes_locked R, rfl,
      still rfl⟩
    simp [Threads.workerStep, spinLock, hn]
  | leaving => exact ⟨_, _, _, rfl, R.spinUnlock, rfl, still rfl⟩

/-- The checks of a call leave the lists alone, and only `BUG_ON(timer_pending(timer))` can
stop one. -/
theorem Call.enter_spec {loose : List (Fin N)} (R : Realizes working loose w q) (c : Call m N) :
    (∃ t e, c = .addTimer t e ∧ timerPending w t = true) ∨
      ∃ w' r q', c.enter w = some (w', r) ∧ Realizes working loose w' q' ∧ w'.heap = w.heap ∧
        q'.list = q.list ∧ q'.lock = q.lock := by
  have check {w : World m N} {q : Queues m N} (R : Realizes working loose w q) (t : Fin N)
      (e : ULong m) : ∃ r, enterModTimer w t e = some (w, r) := by
    unfold enterModTimer
    split
    · exact ⟨_, rfl⟩
    · exact ⟨.inr (.mod t e false), by simp [(R.code t).1]⟩
  cases c with
  | addTimer t e =>
    cases hp : timerPending w t with
    | true => exact .inl ⟨t, e, rfl, hp⟩
    | false =>
      have R' := R.setExpires t e
      obtain ⟨r, hr⟩ := check R' t ((w.setExpires t e).timer t).expires
      have hp' : timerPending (w.setExpires t e) t = false := hp
      exact .inr ⟨_, r, _, by simp [Call.enter, hp', hr], R', rfl, rfl, rfl⟩
  | modTimer t e =>
    obtain ⟨r, hr⟩ := check R t e
    exact .inr ⟨w, r, q, hr, R, rfl, rfl, rfl⟩
  | modTimerPending t e =>
    exact .inr ⟨w, .inr (.mod t e true), q, by simp [Call.enter, (R.code t).1], R, rfl, rfl, rfl⟩
  | delTimer t =>
    cases hp : timerPending w t with
    | true => exact .inr ⟨w, .inr (.del t), q, by simp [Call.enter, hp], R, rfl, rfl, rfl⟩
    | false => exact .inr ⟨w, .inl 0, q, by simp [Call.enter, hp], R, rfl, rfl, rfl⟩

/-! ## The invariant -/

namespace Preempted

/-- Nobody is in a section, or one thread is, and then the worker does not hold the lock. -/
inductive Holds (s : Preempted m N) (q : Queues m N) : Prop
  | free (hin : s.inside = []) (R : Realizes s.worker.working [] s.world q)
      (hl : q.lock = if s.worker.holds then some .worker else none) : Holds s q
  | taken {p : Thread} {g : Stage m N} (hin : s.inside = [(p, g)])
      (H : g.Holds s.worker.working s.world q) (hw : s.worker.holds = false) (hl : q.lock = none) :
      Holds s q

variable {s s' : Preempted m N} {p : Thread}

/-- The thread can take a step, which keeps the invariant and tells what it does to the
marks. -/
def Moves (s : Preempted m N) (p : Thread) : Prop :=
  ∃ s' ev q', s.step (.go p) = some (s', ev) ∧ s'.Holds q' ∧ Marks s.world ev s'.world

/-- When the lock is free, the worker does not hold it. -/
theorem holds_eq_false (R : Realizes working [] s.world q)
    (hl : q.lock = if s.worker.holds then some .worker else none)
    (hn : s.world.base.lock = none) : s.worker.holds = false := by
  have hlw := R.lock.trans hl
  rw [hn] at hlw
  cases hh : s.worker.holds with
  | false => rfl
  | true =>
    rw [hh] at hlw
    cases hlw

/-- A thread in its section. -/
theorem Holds.stage_spec (H : s.Holds q) {g : Stage m N} (hg : s.inside.lookup p = some g) :
    s.Moves p := by
  cases H with
  | free hin R hl =>
    rw [hin] at hg
    cases hg
  | @taken p' g' hin H hw hl =>
    obtain ⟨rfl, rfl⟩ : p = p' ∧ g' = g := by
      rw [hin, List.lookup_cons] at hg
      split at hg
      · next he => exact ⟨beq_iff_eq.mp he, Option.some.inj hg⟩
      · cases hg
    obtain ⟨w', q', next, hs, hl', hm, hnext⟩ := Stage.step_spec H
    have hst : s.step (.go p) =
        some ({ s.setStage p next.getLeft? with world := w' }, g'.events p) := by
      simp [step, hg, hs]
    refine ⟨_, _, q', hst, ?_, hm p⟩
    cases next with
    | inl g =>
      have hin' : (s.setStage p (some g)).inside = [(p, g)] := by simp [setStage, hin]
      exact .taken hin' hnext hw (hl' hl)
    | inr ret =>
      refine .free ?_ hnext ?_
      · simp [setStage, hin]
      · rw [hl' hl]
        simp [setStage, hw]

/-- A thread in the checks of a call. The timer in the hands of another thread keeps its
mark. -/
theorem Holds.enter_spec (H : s.Holds q) (hg : s.inside.lookup p = none) {c : Call m N}
    (hc : s.waiting p = some (.inl c)) :
    (s.step (.go p) = none ∧ ∃ t e, c = .addTimer t e ∧ timerPending s.world t = true) ∨
      s.Moves p := by
  have stopped (h : ∃ t e, c = .addTimer t e ∧ timerPending s.world t = true) :
      s.step (.go p) = none ∧ ∃ t e, c = .addTimer t e ∧ timerPending s.world t = true := by
    refine ⟨?_, h⟩
    obtain ⟨t, e, rfl, hp⟩ := h
    have hp' : timerPending (s.world.setExpires t e) t = true := hp
    simp [step, hg, hc, Call.enter, hp']
  have moved {w' : World m N} {r : Nat ⊕ Section m N} (hs : c.enter s.world = some (w', r)) :
      ∃ waiting ev, s.step (.go p) = some ({ s with world := w', waiting := waiting }, ev) ∧
        ∀ t b, ev.foldlM (TimerEvent.mark t) b = some b := by
    cases r with
    | inl ret => exact ⟨_, [.ret p ret], by simp only [step, hg, hc, hs]; rfl, fun _ _ => rfl⟩
    | inr x => exact ⟨_, [], by simp only [step, hg, hc, hs]; rfl, fun _ _ => rfl⟩
  cases H with
  | free hin R hl =>
    refine (Call.enter_spec R c).imp stopped ?_
    rintro ⟨w', r, q', hs, R', hheap, -, hl'⟩
    obtain ⟨waiting, ev, h, hev⟩ := moved hs
    exact ⟨_, ev, q', h, .free hin R' (hl'.trans hl), .of_heap hheap hev⟩
  | taken hin H hw hl =>
    refine (Call.enter_spec H.realizes c).imp stopped ?_
    rintro ⟨w', r, q', hs, R', hheap, hlist, hl'⟩
    obtain ⟨waiting, ev, h, hev⟩ := moved hs
    refine ⟨_, ev, q', h, .taken hin ⟨R', H.ready.congr hlist, fun t ht => ?_⟩ hw (hl'.trans hl),
      .of_heap hheap hev⟩
    rw [timerPending, hheap]
    exact H.marked t ht

/-- A thread at `lock_timer_base`. -/
theorem Holds.lock_spec (H : s.Holds q) (hs : s.Serial (.go p))
    (hg : s.inside.lookup p = none) {x : Section m N} (hx : s.waiting p = some (.inr x)) :
    s.Moves p := by
  obtain ⟨hn, hlen⟩ := hs (by simp [atLock, hg, hx])
  have hin := List.length_eq_zero_iff.mp hlen
  cases H with
  | free _ R hl =>
    have hw := holds_eq_false R hl hn
    have hin' : (s.setStage p (some (.test x))).inside = [(p, .test x)] := by simp [setStage, hin]
    have hst : (Stage.test x).Holds s.worker.working s.world q := ⟨R, trivial, Stage.no_hand⟩
    refine ⟨{ s.setStage p (some (.test x)) with
      world := lockTimerBase s.world x.timer
      waiting := Function.update s.waiting p none }, [], q, ?_,
      .taken hin' hst hw (R.lock.symm.trans hn), .of_heap rfl fun _ _ => rfl⟩
    simp only [step, hg, hx]
  | taken hin' =>
    rw [hin'] at hin
    cases hin

/-- The worker outside of calls. -/
theorem Holds.worker_spec (H : s.Holds q) (hs : s.Serial (.go .worker))
    (hg : s.inside.lookup .worker = none) (hx : s.waiting .worker = none)
    (hne : s.worker ≠ .idle) : s.Moves .worker := by
  have hin : s.inside = [] := by
    cases H with
    | free hin => exact hin
    | taken _ _ hw _ =>
      -- not in a pass and not holding the lock, so about to take it
      have hlock : s.atLock .worker = true := by
        cases hpc : s.worker <;> simp_all [atLock, WorkerPc.holds]
      exact List.length_eq_zero_iff.mp (hs hlock).2
  cases H with
  | free _ R hl =>
    obtain ⟨t, ev, q', ht, R', hl', hm⟩ := workerStep_spec (fun _ => none) R hl hne
    refine ⟨{ s with world := t.world, worker := t.worker }, s.worker.events s.world, q', ?_,
      .free hin R' hl', hm⟩
    simp [step, hg, hx, ht]
  | taken hin' =>
    rw [hin'] at hin
    cases hin

/-- What a thread does keeps the invariant, and only one check can stop it. -/
theorem Holds.go_spec (H : s.Holds q) (hs : s.Serial (.go p)) (hb : s.busy p = true) :
    (s.step (.go p) = none ∧
      ∃ t e, s.waiting p = some (.inl (.addTimer t e)) ∧ timerPending s.world t = true) ∨
      s.Moves p := by
  cases hg : s.inside.lookup p with
  | some g => exact .inr (H.stage_spec hg)
  | none =>
    cases hx : s.waiting p with
    | some x =>
      cases x with
      | inl c =>
        refine (H.enter_spec hg hx).imp ?_ id
        rintro ⟨hn, t, e, rfl, hp⟩
        exact ⟨hn, t, e, rfl, hp⟩
      | inr x => exact .inr (H.lock_spec hs hg hx)
    | none =>
      have hw : p = .worker ∧ s.worker ≠ .idle := by simpa [busy, hg, hx] using hb
      obtain ⟨rfl, hne⟩ := hw
      exact .inr (H.worker_spec hs hg hx hne)

theorem step_go_of_not_busy (hb : s.busy p = false) : s.step (.go p) = none := by
  simp only [busy, Bool.or_eq_false_iff, Option.isSome_eq_false_iff, Option.isNone_iff_eq_none,
    decide_eq_false_iff_not, not_and, not_not] at hb
  obtain ⟨⟨hg, hx⟩, hw⟩ := hb
  cases p with
  | worker => simp [step, hg, hx, Threads.workerStep, hw rfl]
  | client n => simp [step, hg, hx]

theorem Holds.step {a : ThreadAct m N} {ev : List (TimerEvent m N)} (H : s.Holds q)
    (hs : s.Serial a) (h : s.step a = some (s', ev)) :
    (∃ q', s'.Holds q') ∧ Marks s.world ev s'.world := by
  cases a with
  | wake j =>
    simp only [Preempted.step, Option.ite_none_right_eq_some] at h
    obtain ⟨hw, h⟩ := h
    cases h
    have woken {loose : List (Fin N)} (R : Realizes s.worker.working loose s.world q) :
        Realizes false loose { s.world with jiffies := j } { q with jiffies := j } := by
      rw [hw] at R
      exact ⟨R.rings, R.dead, R.null, R.expires, R.code, R.lock, R.timerJiffies, rfl⟩
    refine ⟨⟨{ q with jiffies := j }, ?_⟩, .of_heap rfl fun _ _ => rfl⟩
    cases H with
    | free hin R hl =>
      rw [hw] at hl
      exact .free hin (woken R) hl
    | taken hin H _ hl => exact .taken hin ⟨woken H.realizes, H.ready.congr rfl, H.marked⟩ rfl hl
  | start p c =>
    simp only [Preempted.step, Option.ite_none_right_eq_some] at h
    obtain ⟨-, h⟩ := h
    cases h
    refine ⟨⟨q, ?_⟩, .of_heap rfl fun _ _ => rfl⟩
    cases H with
    | free hin R hl => exact .free hin R hl
    | taken hin H hw hl => exact .taken hin H hw hl
  | go p =>
    cases hb : s.busy p with
    | false =>
      rw [step_go_of_not_busy hb] at h
      cases h
    | true =>
      rcases H.go_spec hs hb with ⟨hn, -⟩ | ⟨t, ev', q', ht, H', hm⟩
      · rw [hn] at h
        cases h
      · rw [h] at ht
        cases ht
        exact ⟨⟨q', H'⟩, hm⟩

theorem Holds.run {as : List (ThreadAct m N)} {ev : List (TimerEvent m N)} (H : s.Holds q)
    (hs : (preempted m N).Meets Serial s as) (h : (preempted m N).run s as = some (s', ev)) :
    (∃ q', s'.Holds q') ∧ Marks s.world ev s'.world := by
  have start : Marks s.world [] s.world := .of_heap rfl fun _ _ => rfl
  refine Machine.run_induction_labels
    (P := fun s' _ ev => (∃ q, Holds s' q) ∧ Marks s.world ev s'.world) h hs ⟨⟨q, H⟩, start⟩ ?_
  rintro t _ ev a t' ev' ht ⟨⟨q, H⟩, hm⟩ hst
  obtain ⟨H', hm'⟩ := H.step ht hst
  exact ⟨H', hm.trans hm'⟩

theorem holds_boot (memory : Heap (Node N)) (setup : Fin N → TimerSetup m) (jiffies : ULong m) :
    (bootPreempted memory setup jiffies).Holds (Queues.boot setup jiffies) :=
  .free rfl (boot_holds memory setup jiffies).realizes rfl

/-- The timers that threads have in their hands. -/
def inHand (s : Preempted m N) : List (Fin N) := s.inside.flatMap fun x => x.2.hand

theorem Holds.inside (H : s.Holds q) :
    s.inside.length ≤ 1 ∧ (s.worker.holds = true → s.inside = []) := by
  cases H with
  | free hin => simp [hin]
  | taken hin _ hw => simp [hin, hw]

theorem Holds.lock (H : s.Holds q) :
    s.world.base.lock = if s.worker.holds then some .worker else none := by
  cases H with
  | free _ R hl => exact R.lock.trans hl
  | taken _ H hw hl =>
    rw [hw]
    exact H.realizes.lock.trans hl

end Preempted

/-- Memory that realizes queues without the timers in `loose`, which keep their marks. -/
theorem Realizes.conserved_loose {loose : List (Fin N)} (R : Realizes working loose w q)
    (hnp : ∀ t ∈ loose, ¬ q.Pending t) (hmark : ∀ t ∈ loose, timerPending w t = true) :
    Conserved w (Head.live working) loose q.list where
  rings := R.rings
  inLive _ _ hm := R.live_of_mem hm
  nodup := R.nodup
  apart t ht b hb := hnp t ht ⟨b, hb⟩
  pending t := by
    rw [R.timerPending_iff_loose hmark]
    refine or_congr_left ⟨?_, ?_⟩
    · rintro ⟨b, hm⟩
      exact ⟨b, hm, fun b' hm' => R.unique hm' hm⟩
    · rintro ⟨b, hm, -⟩
      exact ⟨b, hm⟩

theorem Stage.Ready.not_pending {g : Stage m N} (h : g.Ready q) : ∀ t ∈ g.hand, ¬ q.Pending t := by
  intro t ht
  cases g with
  | forget u e =>
    cases e with
    | none => cases ht
    | some e => exact List.mem_singleton.mp ht ▸ h
  | enqueue u e ret =>
    simp only [hand] at ht
    split at ht
    · cases ht
    · exact List.mem_singleton.mp ht ▸ h
  | test | detach | store | bound | unlock => cases ht

theorem Preempted.Holds.conserved {s : Preempted m N} (H : s.Holds q) :
    Conserved s.world (Head.live s.worker.working) s.inHand q.list := by
  cases H with
  | free hin R _ =>
    simpa [inHand, hin] using R.conserved
  | taken hin H _ _ =>
    simpa [inHand, hin] using H.realizes.conserved_loose H.ready.not_pending H.marked

/-- Wherever the threads are, every timer is in the lists as often as it should be: pending
timers once, or not at all while a thread has them in its hands. The worker owns the lock as
it believes, at most one thread is in a section, and a thread that may go on can, unless it
calls `add_timer` on a pending timer. -/
theorem preempted_sections_keep_wheel {memory : Heap (Node N)} {setup : Fin N → TimerSetup m}
    {jiffies : ULong m} {as : List (ThreadAct m N)} {s : Preempted m N}
    {ev : List (TimerEvent m N)}
    (h : (preempted m N).run (bootPreempted memory setup jiffies) as = some (s, ev))
    (hs : (preempted m N).Meets Preempted.Serial (bootPreempted memory setup jiffies) as) :
    (∃ list, Conserved s.world (Head.live s.worker.working) s.inHand list) ∧
      s.world.base.lock = (if s.worker.holds then some .worker else none) ∧
      s.inside.length ≤ 1 ∧ (s.worker.holds = true → s.inside = []) ∧
      ∀ p, s.Serial (.go p) → s.busy p = true → (s.step (.go p)).isSome = true ∨
        ∃ t e, s.waiting p = some (.inl (.addTimer t e)) ∧ timerPending s.world t = true := by
  obtain ⟨⟨q, H⟩, -⟩ := (Preempted.holds_boot memory setup jiffies).run hs h
  refine ⟨⟨q.list, H.conserved⟩, H.lock, H.inside.1, H.inside.2, fun p hp hb => ?_⟩
  rcases H.go_spec hp hb with ⟨-, hbug⟩ | ⟨t, ev', -, ht, -, -⟩
  · exact .inr hbug
  · exact .inl (by rw [ht]; rfl)

/-- A thread is preempted after it has detached a timer to enqueue it again. Another one finds
the timer pending, and waits for the lock. -/
theorem preempted_sections_keep_wheel_test1 :
    ∃ (s : Preempted .long32 1) (list : Head → List (Fin 1)), s.inHand = [0] ∧
      (s.waiting (.client 1)).isSome ∧ Conserved s.world (Head.live false) [0] list := by
  let s₀ : Preempted .long32 1 := bootPreempted (fun _ => ⟨.null, .null⟩) (fun _ => ⟨0, 1, 2⟩) 0
  let as : List (ThreadAct .long32 1) :=
    .start (.client 0) (.addTimer 0 5) :: (List.replicate 7 (.go (.client 0)) ++
      .start (.client 0) (.modTimer 0 9) :: (List.replicate 4 (.go (.client 0)) ++
        [.start (.client 1) (.modTimer 0 7), .go (.client 1), .wake 3]))
  have h : ((preempted .long32 1).run s₀ as).map (fun r =>
      (r.1.inHand, (r.1.waiting (.client 1)).isSome, r.1.worker.working)) =
        some ([0], true, false) := by
    decide +kernel
  have hC : (preempted .long32 1).Meets Preempted.Serial s₀ as := by
    decide +kernel
  obtain ⟨⟨s, ev⟩, h, hev⟩ := Option.map_eq_some_iff.mp h
  simp only [Prod.mk.injEq] at hev
  obtain ⟨hhand, hwait, hwork⟩ := hev
  obtain ⟨list, hc⟩ := (preempted_sections_keep_wheel h hC).1
  rw [hhand, hwork] at hc
  exact ⟨s, list, hhand, hwait, hc⟩

/-- Wherever threads are preempted, the events of a timer alternate: it is linked only when it
is not pending, and between two times it is linked it is either deleted or run, once. At the
end it is pending when it was linked last. -/
theorem preempted_timers_alternate {memory : Heap (Node N)} {setup : Fin N → TimerSetup m}
    {jiffies : ULong m} {as : List (ThreadAct m N)} {s : Preempted m N}
    {ev : List (TimerEvent m N)}
    (h : (preempted m N).run (bootPreempted memory setup jiffies) as = some (s, ev))
    (hs : (preempted m N).Meets Preempted.Serial (bootPreempted memory setup jiffies) as)
    (t : Fin N) : ev.foldlM (TimerEvent.mark t) false = some (timerPending s.world t) := by
  obtain ⟨-, hm⟩ := (Preempted.holds_boot memory setup jiffies).run hs h
  have h0 : timerPending (bootPreempted memory setup jiffies).world t = false :=
    timerPending_boot memory setup jiffies t
  rw [← hm t, h0]

/-- A timer is deleted by one thread while another one waits for the lock to link it again, and
then it runs. -/
theorem preempted_timers_alternate_test1 :
    ∃ (s : Preempted .long32 1) (ev : List (TimerEvent .long32 1)),
      ev = [.arm 0, .ret (.client 0) 0, .del 0, .ret (.client 1) 1, .arm 0, .ret (.client 0) 0,
        .fire 0 1 2] ∧
      ev.foldlM (TimerEvent.mark 0) false = some (timerPending s.world 0) := by
  let s₀ : Preempted .long32 1 := bootPreempted (fun _ => ⟨.null, .null⟩) (fun _ => ⟨0, 1, 2⟩) 0
  let as : List (ThreadAct .long32 1) :=
    .start (.client 0) (.addTimer 0 5) :: (List.replicate 7 (.go (.client 0)) ++
      .start (.client 1) (.delTimer 0) :: (List.replicate 4 (.go (.client 1)) ++
        .start (.client 0) (.addTimer 0 0) :: .go (.client 0) ::
          (List.replicate 2 (.go (.client 1)) ++ List.replicate 6 (.go (.client 0)) ++
            .wake 3 :: List.replicate 3 (.go .worker))))
  have h : ((preempted .long32 1).run s₀ as).map Prod.snd = some
      [.arm 0, .ret (.client 0) 0, .del 0, .ret (.client 1) 1, .arm 0, .ret (.client 0) 0,
        .fire 0 1 2] := by
    decide +kernel
  have hC : (preempted .long32 1).Meets Preempted.Serial s₀ as := by
    decide +kernel
  obtain ⟨⟨s, ev⟩, h, hev⟩ := Option.map_eq_some_iff.mp h
  exact ⟨s, ev, hev, preempted_timers_alternate h hC 0⟩

/-- Without `Serial` two deletions overlap, and the second one follows `LIST_POISON2`. -/
example :
    let s₀ : Preempted .long32 1 := bootPreempted (fun _ => ⟨.null, .null⟩) (fun _ => ⟨0, 1, 2⟩) 0
    let as : List (ThreadAct .long32 1) :=
      .start (.client 0) (.addTimer 0 5) :: (List.replicate 7 (.go (.client 0)) ++
        .start (.client 0) (.delTimer 0) :: .start (.client 1) (.delTimer 0) ::
          (List.replicate 3 (.go (.client 0)) ++ List.replicate 3 (.go (.client 1)) ++
            [.go (.client 0)]))
    ((preempted .long32 1).run s₀ as).isSome = true ∧
      ((preempted .long32 1).run s₀ (as ++ [.go (.client 1)])).isSome = false := by
  decide +kernel

end Uki
