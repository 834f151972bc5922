import Uki.Timer.Agenda

/-!
# Timers that are set up while the wheel turns

A program makes a timer of storage that held anything, with `TIMER_INITIALIZER`,
`setup_timer`, or `init_timer` and two stores, at any time at which the timer is
not pending, and it stores to `function` and `data` whenever it likes. `program`
is the machine `wheel` with these statements.

Results:
1. `activations_accounted`: every activation of a timer ends in one callback or
   one successful `del_timer`, or the timer is pending.
2. `callback_runs_as_last_stored`: a callback is called with the function and the
   data that were stored last.
3. `setups_interchangeable`: neither what the storage held nor how a timer was set
   up shows in the events.
4. `unused_memory_never_shows`: nor do `next_timer`, the deferrable flags, and the
   entries and heads that are in no list.
-/

set_option linter.style.nameCheck false

namespace Uki

variable {m : LongModel} {N : Nat} {q q' : Queues m N} {s s' : Sys m N} {t : Fin N}
  {ev ev' : List (Event m N)}

/-! ## Statements -/

/-- The storage of `t`, with what it holds. -/
def World.place (w : World m N) (t : Fin N) (cell : ListHead (Node N)) (x : TimerList m) :
    World m N :=
  (w.setTimer t x).setHeap fun n => if n = .entry t then cell else w.heap n

/-- How storage becomes a timer. `setup_timer_on_stack` and `init_timer_on_stack`
do what `setup_timer` and `init_timer` do. -/
inductive Setup (m : LongModel) where
  /-- `TIMER_INITIALIZER(function, expires, data)` -/
  | timerInitializer (expires : ULong m)
  | setupTimer
  /-- `init_timer`, and then the program stores `data` and `function`. -/
  | initTimer

def Setup.exec (w : World m N) (t : Fin N) (function : Nat) (data : ULong m) :
    Setup m → World m N
  | timerInitializer expires =>
    w.place t ⟨.null, .timerEntryStatic⟩ ⟨expires, some function, data, ukiTvecBase⟩
  | setupTimer => setupTimerKey w t function data
  | initTimer =>
    let w := initTimerKey w t
    let w := w.setTimer t { w.timer t with data := data }
    w.setTimer t { w.timer t with function := some function }

/-- `TIMER_INITIALIZER` alone sets `expires`; else it is what the storage held. -/
def Setup.expires (old : TimerList m) : Setup m → ULong m
  | timerInitializer expires => expires
  | setupTimer | initTimer => old.expires

inductive Stmt (m : LongModel) (N : Nat) where
  | act (a : Act m N)
  /-- Storage that holds `cell` and `old` becomes the timer `t`. -/
  | setup (t : Fin N) (cell : ListHead (Node N)) (old : TimerList m) (how : Setup m)
      (function : Nat) (data : ULong m)
  | setFunction (t : Fin N) (function : Nat)
  | setData (t : Fin N) (data : ULong m)

def Sys.exec (s : Sys m N) : Stmt m N → Option (Sys m N × List (Event m N))
  | .act a => s.step a
  | .setup t cell old how function data =>
    if s.ctl.open then
      some (⟨how.exec (s.world.place t cell old) t function data, s.ctl⟩, [])
    else
      none
  | .setFunction t function =>
    if s.ctl.open then
      some (⟨s.world.setTimer t { s.world.timer t with function := some function }, s.ctl⟩, [])
    else
      none
  | .setData t data =>
    if s.ctl.open then
      some (⟨s.world.setTimer t { s.world.timer t with data := data }, s.ctl⟩, [])
    else
      none

def program (m : LongModel) (N : Nat) : Machine (Sys m N) (Stmt m N) (Event m N) := ⟨Sys.exec⟩

/-- The storage of a pending timer is in a list of the wheel. -/
def Sys.Permits (s : Sys m N) : Stmt m N → Prop
  | .setup t _ _ _ _ _ => timerPending s.world t = false
  | _ => True

instance (s : Sys m N) (st : Stmt m N) : Decidable (s.Permits st) := by
  cases st <;> unfold Sys.Permits <;> infer_instance

/-! ## Statements on the queues -/

/-- `t` is a timer with this expiry, function and data. -/
def Queues.define (q : Queues m N) (t : Fin N) (e : ULong m) (c : Nat × ULong m) : Queues m N :=
  { q with expires := Function.update q.expires t e, code := Function.update q.code t c }

/-- Stores to the fields of a timer that is not pending, and to its entry. -/
theorem Realizes.define {working : Bool} {w w' : World m N} (R : Realizes working [] w q)
    (ht : ¬ q.Pending t) {e : ULong m} {c : Nat × ULong m}
    (hheap : ∀ n, n ≠ .entry t → w'.heap n = w.heap n) (hnext : w'.heap.next (.entry t) = .null)
    (hother : ∀ u, u ≠ t → w'.timer u = w.timer u) (hexpires : (w'.timer t).expires = e)
    (hcode : (w'.timer t).function = some c.1 ∧ (w'.timer t).data = c.2)
    (hbase : w'.base = w.base) (hjiffies : w'.jiffies = w.jiffies) :
    Realizes working [] w' (q.define t e c) where
  rings := R.rings.write (ringHeads_avoids_entry fun b hm => ht ⟨b, hm⟩) hheap
  dead := R.dead
  null u _ hu := by
    rcases eq_or_ne u t with rfl | hut
    · exact hnext
    · have hcell := hheap (.entry u) (by simpa using hut)
      have := R.null u (by simp) hu
      simpa only [Heap.next, hcell] using this
  expires u := by
    rcases eq_or_ne u t with rfl | hut
    · simp [Queues.define, hexpires]
    · simp [Queues.define, hut, hother u hut, R.expires]
  code u := by
    rcases eq_or_ne u t with rfl | hut
    · simp [Queues.define, hcode]
    · simp [Queues.define, hut, hother u hut, R.code]
  lock := by rw [hbase]; exact R.lock
  timerJiffies := by rw [hbase]; exact R.timerJiffies
  jiffies := by rw [hjiffies]; exact R.jiffies

/-- Whatever the storage held. -/
theorem Realizes.setup {working : Bool} {w : World m N} (R : Realizes working [] w q)
    (ht : ¬ q.Pending t) (cell : ListHead (Node N)) (old : TimerList m) (how : Setup m)
    (function : Nat) (data : ULong m) :
    Realizes working [] (how.exec (w.place t cell old) t function data)
      (q.define t (how.expires old) (function, data)) := by
  cases how with
  | timerInitializer e | setupTimer | initTimer =>
    refine R.define ht (fun n hn => ?_) ?_ (fun u hu => ?_) ?_ ?_ rfl rfl <;>
      simp_all [Setup.exec, Setup.expires, setupTimerKey, initTimerKey, World.place,
        World.setTimer, World.setHeap, Heap.setNext, Heap.next]

/-- A store to `function` or `data`, pending or not. -/
theorem Realizes.setCode {working : Bool} {w : World m N} (R : Realizes working [] w q)
    (x : TimerList m) (c : Nat × ULong m) (hx : x.expires = (w.timer t).expires)
    (hc : x.function = some c.1 ∧ x.data = c.2) :
    Realizes working [] (w.setTimer t x) { q with code := Function.update q.code t c } where
  rings := R.rings
  dead := R.dead
  null := R.null
  expires u := by
    rcases eq_or_ne u t with rfl | hut
    · simp [World.setTimer, hx, R.expires]
    · simp [World.setTimer, hut, R.expires]
  code u := by
    rcases eq_or_ne u t with rfl | hut
    · simp [World.setTimer, hc]
    · simp [World.setTimer, hut, R.code]
  lock := R.lock
  timerJiffies := R.timerJiffies
  jiffies := R.jiffies

inductive Queues.Exec (q : Queues m N) :
    Ctl N → Stmt m N → Queues m N → Ctl N → List (Event m N) → Prop where
  | act {c c' : Ctl N} {a : Act m N} {q' : Queues m N} {ev : List (Event m N)}
      (h : q.Step c a q' c' ev) : Exec q c (.act a) q' c' ev
  | setup {c : Ctl N} {t : Fin N} (ho : c.open = true) (ht : ¬ q.Pending t)
      (cell : ListHead (Node N)) (old : TimerList m) (how : Setup m) (function : Nat)
      (data : ULong m) :
      Exec q c (.setup t cell old how function data)
        (q.define t (how.expires old) (function, data)) c []
  | setFunction {c : Ctl N} (ho : c.open = true) (t : Fin N) (function : Nat) :
      Exec q c (.setFunction t function)
        { q with code := Function.update q.code t (function, (q.code t).2) } c []
  | setData {c : Ctl N} (ho : c.open = true) (t : Fin N) (data : ULong m) :
      Exec q c (.setData t data)
        { q with code := Function.update q.code t ((q.code t).1, data) } c []

theorem permits_iff (H : s.Holds q) {st : Stmt m N} :
    s.Permits st ↔ ∀ t cell old how function data,
      st = .setup t cell old how function data → ¬ q.Pending t := by
  cases st with
  | setup t cell old how function data =>
    simp only [Sys.Permits, ← Bool.not_eq_true, H.realizes.timerPending_iff]
    constructor
    · rintro h _ _ _ _ _ _ ⟨⟩
      exact h
    · exact fun h => h t cell old how function data rfl
  | act | setFunction | setData => simp [Sys.Permits]

/-- Every statement on the queues is one of the code. -/
theorem exec_of_queues (H : s.Holds q) {st : Stmt m N} {c : Ctl N}
    (h : q.Exec s.ctl st q' c ev) :
    ∃ w', s.exec st = some (⟨w', c⟩, ev) ∧ Sys.Holds ⟨w', c⟩ q' := by
  obtain ⟨w, ctl⟩ := s
  cases h with
  | act h => exact step_of_queues H h
  | setup ho ht cell old how function data =>
    exact ⟨_, if_pos ho, H.realizes.setup ht cell old how function data, H.lock⟩
  | setFunction ho t function =>
    exact ⟨_, if_pos ho, H.realizes.setCode _ _ rfl ⟨rfl, (H.realizes.code t).2⟩, H.lock⟩
  | setData ho t data =>
    exact ⟨_, if_pos ho, H.realizes.setCode _ _ rfl ⟨(H.realizes.code t).1, rfl⟩, H.lock⟩

/-- Every statement of the code is one on the queues. -/
theorem exec_refines (H : s.Holds q) {st : Stmt m N} (hp : s.Permits st)
    (h : s.exec st = some (s', ev)) : ∃ q', s'.Holds q' ∧ q.Exec s.ctl st q' s'.ctl ev := by
  have go {q' : Queues m N} {c : Ctl N} {ev' : List (Event m N)} (hq : q.Exec s.ctl st q' c ev') :
      ∃ q', s'.Holds q' ∧ q.Exec s.ctl st q' s'.ctl ev := by
    obtain ⟨w', hw', H'⟩ := exec_of_queues H hq
    rw [h] at hw'
    cases hw'
    exact ⟨q', H', hq⟩
  cases st with
  | act a =>
    obtain ⟨q', H', hq⟩ := step_refines H h
    exact ⟨q', H', .act hq⟩
  | setup t cell old how function data =>
    have ho := (Option.ite_none_right_eq_some.mp h).1
    exact go (.setup ho ((permits_iff H).mp hp _ _ _ _ _ _ rfl) cell old how function data)
  | setFunction t function => exact go (.setFunction (Option.ite_none_right_eq_some.mp h).1 t _)
  | setData t data => exact go (.setData (Option.ite_none_right_eq_some.mp h).1 t data)

/-! ## The account of a timer -/

/-- The call has put a timer that was not pending into a bucket. -/
def Event.activates (t : Fin N) : Event m N → Bool
  | .ret (.addTimer u _) _ => u = t
  | .ret (.modTimer u _) r => u = t && r = 0
  | _ => false

def Event.deactivates (t : Fin N) : Event m N → Bool
  | .ret (.delTimer u) r => u = t && r = 1
  | _ => false

def Event.fires (t : Fin N) : Event m N → Bool
  | .fire u _ _ => u = t
  | _ => false

/-- The activations in `ev` are accounted for, from a state in which `t` is pending
if `b` to one in which it is pending if `b'`. -/
def Accounted (t : Fin N) (b b' : Bool) (ev : List (Event m N)) : Prop :=
  ev.countP (Event.activates t) + b.toNat =
    ev.countP (Event.fires t) + ev.countP (Event.deactivates t) + b'.toNat

theorem Accounted.append {b b' b'' : Bool} (h : Accounted t b b' ev) (h' : Accounted t b' b'' ev') :
    Accounted t b b'' (ev ++ ev') := by
  simp only [Accounted, List.countP_append] at *
  omega

theorem accounted_of_iff {b b' : Bool} (h : b = true ↔ b' = true) (he : ∀ e ∈ ev,
    Event.activates t e = false ∧ Event.fires t e = false ∧ Event.deactivates t e = false) :
    Accounted t b b' ev := by
  have hb : b = b' := Bool.eq_iff_iff.mpr h
  have hz (p : Event m N → Bool) (hp : ∀ e ∈ ev, p e = false) : ev.countP p = 0 :=
    List.countP_eq_zero.mpr fun e hm => by simp [hp e hm]
  rw [Accounted, hz _ fun e hm => (he e hm).1, hz _ fun e hm => (he e hm).2.1,
    hz _ fun e hm => (he e hm).2.2, hb]

/-- A call on `t` itself. -/
theorem accounted_own {c : Call m N} (hct : c.timer = t) (hc : q.Allows c) {b b' : Bool}
    (hb : b = true ↔ q.Pending t) (hb' : b' = true ↔ (q.exec c).1.Pending t) :
    Accounted t b b' [.ret c (q.exec c).2] := by
  have armed (key e : ULong m) (hx : (q.exec c).1 = q.rearm t key e) : b' = true := by
    rw [hb', hx]
    exact q.pending_rearm t e key
  have removed (hx : (q.exec c).1 = (q.remove t).unlock) : b' = false := by
    rw [Bool.eq_false_iff, ne_eq, hb', hx]
    rintro ⟨b, hm⟩
    exact ((Queues.mem_remove ..).mp hm).2 rfl
  cases c with
  | addTimer u e =>
    obtain rfl : u = t := hct
    have hb0 : b = false := Bool.eq_false_iff.mpr fun h => hc (hb.mp h)
    simp [Accounted, Event.activates, Event.fires, Event.deactivates, hb0, armed e e rfl]
  | modTimer u e =>
    obtain rfl : u = t := hct
    by_cases hp : q.Pending u
    · by_cases he : q.expires u = e
      · have hx : q.exec (.modTimer u e) = (q, 1) := by simp [Queues.exec, hp, he]
        have hb1 : b' = true := by rwa [hb', hx]
        simp [Accounted, Event.activates, Event.fires, Event.deactivates, hx, hb.mpr hp, hb1]
      · have hx : q.exec (.modTimer u e) = (q.rearm u (q.expires u) e, 1) := by
          simp [Queues.exec, hp, he]
        simp [Accounted, Event.activates, Event.fires, Event.deactivates, hx, hb.mpr hp,
          armed _ _ (congrArg Prod.fst hx)]
    · have hb0 : b = false := Bool.eq_false_iff.mpr fun h => hp (hb.mp h)
      have hx : q.exec (.modTimer u e) = (q.rearm u (q.expires u) e, 0) := by simp [Queues.exec, hp]
      simp [Accounted, Event.activates, Event.fires, Event.deactivates, hx, hb0,
        armed _ _ (congrArg Prod.fst hx)]
  | modTimerPending u e =>
    obtain rfl : u = t := hct
    refine accounted_of_iff ?_ (by simp [Event.activates, Event.fires, Event.deactivates])
    by_cases hp : q.Pending u
    · have hx : q.exec (.modTimerPending u e) = (q.rearm u (q.expires u) e, 1) := by
        simp [Queues.exec, hp]
      simp [hb, hp, armed _ _ (congrArg Prod.fst hx)]
    · have hx : q.exec (.modTimerPending u e) = (q.unlock, 0) := by simp [Queues.exec, hp]
      rw [hb, hb', hx]
      rfl
  | delTimer u =>
    obtain rfl : u = t := hct
    by_cases hp : q.Pending u
    · have hx : q.exec (.delTimer u) = ((q.remove u).unlock, 1) := by simp [Queues.exec, hp]
      simp [Accounted, Event.activates, Event.fires, Event.deactivates, hx, hb.mpr hp,
        removed (congrArg Prod.fst hx)]
    · have hx : q.exec (.delTimer u) = (q, 0) := by simp [Queues.exec, hp]
      refine accounted_of_iff ?_ (by simp [Event.activates, Event.fires, Event.deactivates, hx])
      rw [hb, hb', hx]

theorem accounted_call {c : Call m N} (hc : q.Allows c) {b b' : Bool}
    (hb : b = true ↔ q.Pending t) (hb' : b' = true ↔ (q.exec c).1.Pending t) :
    Accounted t b b' [.ret c (q.exec c).2] := by
  rcases eq_or_ne c.timer t with hct | hct
  · exact accounted_own hct hc hb hb'
  · refine accounted_of_iff ?_ fun e hm => ?_
    · rw [hb, hb', Queues.pending_exec_of_ne hct.symm]
    · cases List.mem_singleton.mp hm
      cases c <;> simp_all [Event.activates, Event.fires, Event.deactivates, Call.timer]

theorem Queues.Step.accounted {c c' : Ctl N} {a : Act m N} (h : q.Step c a q' c' ev)
    (S : q.Sound c.working) {b b' : Bool} (hb : b = true ↔ q.Pending t)
    (hb' : b' = true ↔ q'.Pending t) : Accounted t b b' ev := by
  cases h with
  | call ho hc => exact accounted_call hc hb hb'
  | iter hj =>
    refine accounted_of_iff ?_ (by simp [Event.activates, Event.fires, Event.deactivates])
    rw [hb, hb', Queues.pending_startTick S]
  | @fire u ts hw =>
    have hpend (v : Fin N) : q.takeTimer.unlock.Pending v ↔ q.Pending v ∧ v ≠ u := by
      simp only [Queues.Pending, Queues.list_unlock, Queues.mem_takeTimer hw S, exists_and_right]
    rcases eq_or_ne u t with rfl | hut
    · have hb1 : b = true := hb.mpr ⟨.workList, by rw [hw]; simp⟩
      have hb0 : b' = false := by
        rw [Bool.eq_false_iff, ne_eq, hb', hpend]
        exact fun h => h.2 rfl
      simp [Accounted, Event.activates, Event.fires, Event.deactivates, hb1, hb0]
    · refine accounted_of_iff ?_ (by simp [Event.activates, Event.fires, Event.deactivates, hut])
      rw [hb, hb', hpend]
      exact (and_iff_left hut.symm).symm
  | wake | sleep | drained | resume => exact accounted_of_iff (hb.trans hb'.symm) (by simp)

theorem Queues.Exec.accounted {c c' : Ctl N} {st : Stmt m N} (h : q.Exec c st q' c' ev)
    (S : q.Sound c.working) {b b' : Bool} (hb : b = true ↔ q.Pending t)
    (hb' : b' = true ↔ q'.Pending t) : Accounted t b b' ev := by
  cases h with
  | act h => exact h.accounted S hb hb'
  | setup | setFunction | setData => exact accounted_of_iff (hb.trans hb'.symm) (by simp)

/-- In every run, and so after every part of it. -/
theorem activations_accounted {memory : Heap (Node N)} {setup : Fin N → TimerSetup m}
    {jiffies : ULong m} {sts : List (Stmt m N)}
    (h : (program m N).run (boot memory setup jiffies) sts = some (s, ev))
    (hp : (program m N).Meets Sys.Permits (boot memory setup jiffies) sts) (t : Fin N) :
    ev.countP (Event.activates t) =
      ev.countP (Event.fires t) + ev.countP (Event.deactivates t) +
        (timerPending s.world t).toNat := by
  let P (s : Sys m N) (ev : List (Event m N)) : Prop :=
    ∃ q, s.Holds q ∧ Accounted t false (timerPending s.world t) ev
  have h0 : P (boot memory setup jiffies) [] := by
    refine ⟨_, boot_holds memory setup jiffies, ?_⟩
    rw [timerPending_boot]
    rfl
  obtain ⟨q, -, hacc⟩ := Machine.run_induction_meets (P := P) (Q := fun _ => True) h hp
    (fun _ _ => trivial) h0 fun u fs st u' es hst _ hP hs => by
      obtain ⟨q, H, hacc⟩ := hP
      obtain ⟨q', H', hq⟩ := exec_refines H hst hs
      exact ⟨q', H', hacc.append (hq.accounted H.realizes.sound H.realizes.timerPending_iff
        H'.realizes.timerPending_iff)⟩
  rw [Accounted] at hacc
  simpa using hacc

/-- A timer is set up on the stack, runs, is armed by its callback and is deleted;
then it waits again. -/
theorem activations_accounted_test1 :
    ∃ (s : Sys .long32 1) (ev : List (Event .long32 1)), timerPending s.world 0 = true ∧
      ev.countP (Event.activates 0) = 3 ∧
      ev.countP (Event.activates 0) =
        ev.countP (Event.fires 0) + ev.countP (Event.deactivates 0) + 1 := by
  let sts : List (Stmt .long32 1) := [.setup 0 ⟨.to (.head .tvList), .null⟩ ⟨7, none, 8, ⟨true⟩⟩
    .initTimer 5 6, .act (.call (.addTimer 0 65)), .act (.wake 65), .act .run, .act .run,
    .act .run, .act .run, .act (.call (.addTimer 0 70)), .act (.call (.delTimer 0)),
    .setData 0 9, .act (.call (.modTimer 0 80))]
  have h : (((program .long32 1).run (boot (fun _ => ⟨.null, .null⟩) (fun _ => ⟨0, 1, 2⟩) 64)
      sts).map fun p => timerPending p.1.world 0 && decide (p.2.countP (Event.activates 0) = 3)) =
        some true := by
    decide +kernel
  have hp : (program .long32 1).Meets Sys.Permits
      (boot (fun _ => ⟨.null, .null⟩) (fun _ => ⟨0, 1, 2⟩) 64) sts := by
    decide +kernel
  obtain ⟨⟨s, ev⟩, hr, hs⟩ := Option.map_eq_some_iff.mp h
  simp only [Bool.and_eq_true, decide_eq_true_eq] at hs
  have hacc := activations_accounted hr hp 0
  rw [hs.1] at hacc
  exact ⟨s, ev, hs.1, hs.2, hacc⟩

/-! ## What a callback is called with -/

/-- The function and the data of every timer after a statement. -/
def Stmt.store (code : Fin N → Nat × ULong m) : Stmt m N → Fin N → Nat × ULong m
  | .act _ => code
  | .setup t _ _ _ function data => Function.update code t (function, data)
  | .setFunction t function => Function.update code t (function, (code t).2)
  | .setData t data => Function.update code t ((code t).1, data)

theorem Queues.Exec.code {c c' : Ctl N} {st : Stmt m N} (h : q.Exec c st q' c' ev) :
    q'.code = st.store q.code := by
  cases h with
  | act h => exact h.code
  | setup | setFunction | setData => rfl

theorem Queues.Step.fire_code {c c' : Ctl N} {a : Act m N} (h : q.Step c a q' c' ev) {fn : Nat}
    {data : ULong m} (hf : .fire t fn data ∈ ev) : q.code t = (fn, data) := by
  cases h with
  | fire hw =>
    simp only [List.mem_singleton, Event.fire.injEq] at hf
    obtain ⟨rfl, rfl, rfl⟩ := hf
    rfl
  | call | wake | iter | sleep | drained | resume => simp at hf

theorem callback_runs_as_last_stored {memory : Heap (Node N)} {setup : Fin N → TimerSetup m}
    {jiffies : ULong m} {sts : List (Stmt m N)} {st : Stmt m N}
    (h : (program m N).run (boot memory setup jiffies) sts = some (s, ev))
    (hp : (program m N).Meets Sys.Permits (boot memory setup jiffies) sts)
    (hs : s.exec st = some (s', ev')) {fn : Nat} {data : ULong m} (hf : .fire t fn data ∈ ev') :
    (fn, data) = sts.foldl Stmt.store (fun u => ((setup u).function, (setup u).data)) t := by
  let P (s : Sys m N) (sts : List (Stmt m N)) (_ : List (Event m N)) : Prop :=
    ∃ q, s.Holds q ∧ q.code = sts.foldl Stmt.store (fun u => ((setup u).function, (setup u).data))
  have h0 : P (boot memory setup jiffies) [] [] := ⟨_, boot_holds memory setup jiffies, rfl⟩
  obtain ⟨q, H, hc⟩ := Machine.run_induction_labels (P := P) h hp h0
    fun u sts fs st u' es hst hP hs => by
      obtain ⟨q, H, hc⟩ := hP
      obtain ⟨q', H', hq⟩ := exec_refines H hst hs
      exact ⟨q', H', by rw [hq.code, hc, List.foldl_concat]⟩
  rw [← hc]
  cases st with
  | act a =>
    obtain ⟨q', -, hq⟩ := step_refines H hs
    exact (hq.fire_code hf).symm
  | setup | setFunction | setData =>
    cases (Option.ite_none_right_eq_some.mp hs).2
    cases hf

/-- `data` is stored while the timer is on the work list. -/
theorem callback_runs_as_last_stored_test1 :
    ∃ (s s' : Sys .long32 1) (ev : List (Event .long32 1)),
      s.exec (.act .run) = some (s', ev) ∧ ev = [.fire 0 5 9] ∧ ((5, 9) : Nat × ULong .long32) =
        ([.setup 0 ⟨.null, .null⟩ ⟨7, none, 8, ⟨true⟩⟩ .setupTimer 5 6,
          .act (.call (.addTimer 0 64)), .setData 0 9, .act (.wake 64), .act .run].foldl Stmt.store
            (fun _ : Fin 1 => ((1, 2) : Nat × ULong .long32))) 0 := by
  let sts : List (Stmt .long32 1) := [.setup 0 ⟨.null, .null⟩ ⟨7, none, 8, ⟨true⟩⟩ .setupTimer 5 6,
    .act (.call (.addTimer 0 64)), .setData 0 9, .act (.wake 64), .act .run]
  have h : (((program .long32 1).run (boot (fun _ => ⟨.null, .null⟩) (fun _ => ⟨0, 1, 2⟩) 64)
      sts).bind fun p => (p.1.exec (.act .run)).map fun p' => p'.2) = some [.fire 0 5 9] := by
    decide +kernel
  have hp : (program .long32 1).Meets Sys.Permits
      (boot (fun _ => ⟨.null, .null⟩) (fun _ => ⟨0, 1, 2⟩) 64) sts := by
    decide +kernel
  obtain ⟨⟨s, ev⟩, hr, h⟩ := Option.bind_eq_some_iff.mp h
  obtain ⟨⟨s', ev'⟩, hs, rfl⟩ := Option.map_eq_some_iff.mp h
  exact ⟨s, s', _, hs, rfl, callback_runs_as_last_stored hr hp hs (by simp)⟩

/-! ## How a timer was set up does not show -/

/-- The same statement, except for what the storage held and how it is set up. -/
inductive Stmt.Alike : Stmt m N → Stmt m N → Prop
  | refl (st : Stmt m N) : Alike st st
  | setup {t : Fin N} {cell cell' : ListHead (Node N)} {old old' : TimerList m} {how how' : Setup m}
      {function : Nat} {data : ULong m} (h : how.expires old = how'.expires old') :
      Alike (.setup t cell old how function data) (.setup t cell' old' how' function data)

theorem Stmt.Alike.symm {st st' : Stmt m N} (h : st.Alike st') : st'.Alike st := by
  cases h with
  | refl => exact .refl _
  | setup he => exact .setup he.symm

theorem Stmt.Alike.exec {st st' : Stmt m N} (ha : st.Alike st') {c c' : Ctl N}
    (h : q.Exec c st q' c' ev) : q.Exec c st' q' c' ev := by
  cases ha with
  | refl => exact h
  | setup he =>
    cases h with
    | setup ho ht cell old how function data =>
      rw [he]
      exact .setup ho ht _ _ _ _ _

/-- Two states of which the events tell the same. -/
def Sys.Twin (s s' : Sys m N) : Prop := s.ctl = s'.ctl ∧ ∃ q, s.Holds q ∧ s'.Holds q

theorem Sys.Twin.symm (h : s.Twin s') : s'.Twin s := by
  obtain ⟨hc, q, H, H'⟩ := h
  exact ⟨hc.symm, q, H', H⟩

theorem Sys.Twin.permits {st st' : Stmt m N} (h : s.Twin s') (ha : st.Alike st')
    (hp : s.Permits st) : s'.Permits st' := by
  obtain ⟨-, q, H, H'⟩ := h
  rw [permits_iff H] at hp
  rw [permits_iff H']
  cases ha with
  | refl => exact hp
  | setup =>
    intro t cell old how function data he
    simp only [Stmt.setup.injEq] at he
    exact he.1 ▸ hp _ _ _ _ _ _ rfl

theorem Sys.Twin.exec {st st' : Stmt m N} (h : s.Twin s') (ha : st.Alike st') (hp : s.Permits st)
    {u : Sys m N} (hs : s.exec st = some (u, ev)) :
    ∃ u', s'.exec st' = some (u', ev) ∧ u.Twin u' := by
  obtain ⟨w', ctl'⟩ := s'
  obtain ⟨hc, q, H, H'⟩ := h
  cases hc
  obtain ⟨q', Hu, hq⟩ := exec_refines H hp hs
  obtain ⟨w₁, hs', Hu'⟩ := exec_of_queues H' (ha.exec hq)
  exact ⟨_, hs', rfl, q', Hu, Hu'⟩

theorem Sys.Twin.run {sts sts' : List (Stmt m N)} (h : s.Twin s')
    (ha : List.Forall₂ Stmt.Alike sts sts') (hp : (program m N).Meets Sys.Permits s sts)
    {u : Sys m N} (hr : (program m N).run s sts = some (u, ev)) :
    ∃ u', (program m N).run s' sts' = some (u', ev) := by
  induction ha generalizing s s' ev with
  | nil =>
    cases hr
    exact ⟨s', rfl⟩
  | cons hst _ ih =>
    obtain ⟨t, ev₁, ev₂, hs, hrest, rfl⟩ := Machine.run_cons.mp hr
    obtain ⟨t', hs', ht⟩ := h.exec hst hp.1 hs
    obtain ⟨u', hr'⟩ := ih ht (hp.2 t ev₁ hs) hrest
    exact ⟨u', Machine.run_cons.mpr ⟨t', ev₁, ev₂, hs', hr', rfl⟩⟩

theorem Sys.Twin.meets {sts sts' : List (Stmt m N)} (h : s.Twin s')
    (ha : List.Forall₂ Stmt.Alike sts sts') (hp : (program m N).Meets Sys.Permits s sts) :
    (program m N).Meets Sys.Permits s' sts' := by
  induction ha generalizing s s' with
  | nil => trivial
  | cons hst _ ih =>
    refine ⟨h.permits hst hp.1, fun t' ev hs' => ?_⟩
    obtain ⟨t, hs, ht⟩ := h.symm.exec hst.symm (h.permits hst hp.1) hs'
    exact ih ht.symm (hp.2 t ev hs)

theorem setups_interchangeable {memory memory' : Heap (Node N)} {setup : Fin N → TimerSetup m}
    {jiffies : ULong m} {sts sts' : List (Stmt m N)} (ha : List.Forall₂ Stmt.Alike sts sts')
    (hp : (program m N).Meets Sys.Permits (boot memory setup jiffies) sts) :
    (∃ u, (program m N).run (boot memory setup jiffies) sts = some (u, ev)) ↔
      ∃ u, (program m N).run (boot memory' setup jiffies) sts' = some (u, ev) := by
  have twin : (boot memory setup jiffies).Twin (boot memory' setup jiffies) :=
    ⟨rfl, _, boot_holds memory setup jiffies, boot_holds memory' setup jiffies⟩
  constructor
  · rintro ⟨u, hu⟩
    exact twin.run ha hp hu
  · rintro ⟨u, hu⟩
    exact twin.symm.run (List.Forall₂.flip (ha.imp fun _ _ h => h.symm)) (twin.meets ha hp) hu

/-- A static timer, and one that `setup_timer` makes of storage full of pointers. -/
theorem setups_interchangeable_test1 :
    ∃ u, (program .long32 1).run (boot (fun _ => ⟨.to (.entry 0), .listPoison1⟩)
      (fun _ => ⟨0, 1, 2⟩) 64) [.setup 0 ⟨.to (.entry 0), .to (.entry 0)⟩ ⟨7, none, 8, ⟨true⟩⟩
        .setupTimer 5 6, .act (.call (.modTimer 0 64)), .act (.wake 64), .act .run, .act .run] =
          some (u, [.ret (.modTimer 0 64) 0, .iter 64, .fire 0 5 6]) := by
  have ha : List.Forall₂ (Stmt.Alike (m := .long32) (N := 1))
      [.setup 0 ⟨.null, .null⟩ ⟨1, some 2, 3, ⟨false⟩⟩ (.timerInitializer 7) 5 6,
        .act (.call (.modTimer 0 64)), .act (.wake 64), .act .run, .act .run]
      [.setup 0 ⟨.to (.entry 0), .to (.entry 0)⟩ ⟨7, none, 8, ⟨true⟩⟩ .setupTimer 5 6,
        .act (.call (.modTimer 0 64)), .act (.wake 64), .act .run, .act .run] :=
    .cons (.setup rfl) (.cons (.refl _) (.cons (.refl _) (.cons (.refl _) (.cons (.refl _) .nil))))
  refine (setups_interchangeable ha ?_).mp (?_ : ∃ u, (program .long32 1).run
    (boot (fun _ => ⟨.null, .null⟩) (fun _ => ⟨0, 1, 2⟩) 64) _ = some (u, _))
  · decide +kernel
  · have h : ((program .long32 1).run (boot (fun _ => ⟨.null, .null⟩) (fun _ => ⟨0, 1, 2⟩) 64)
        [.setup 0 ⟨.null, .null⟩ ⟨1, some 2, 3, ⟨false⟩⟩ (.timerInitializer 7) 5 6,
          .act (.call (.modTimer 0 64)), .act (.wake 64), .act .run, .act .run]).map Prod.snd =
            some [.ret (.modTimer 0 64) 0, .iter 64, .fire 0 5 6] := by
      decide +kernel
    obtain ⟨⟨u, ev⟩, hr, he⟩ := Option.map_eq_some_iff.mp h
    exact ⟨u, he ▸ hr⟩

/-! ## What the wheel never reads -/

/-- The same, but for the storage no list is in, `entry.prev` of the timers that are
not pending, `next_timer`, and the deferrable flags. -/
structure Sys.SameUsed (s s' : Sys m N) : Prop where
  ctl : s'.ctl = s.ctl
  heads : ∀ b, Head.live s.ctl.working b = true → s'.world.heap (.head b) = s.world.heap (.head b)
  entries : ∀ t, timerPending s.world t = true → s'.world.heap (.entry t) = s.world.heap (.entry t)
  marks : ∀ t, timerPending s.world t = false → timerPending s'.world t = false
  expires : ∀ t, (s'.world.timer t).expires = (s.world.timer t).expires
  function : ∀ t, (s'.world.timer t).function = (s.world.timer t).function
  data : ∀ t, (s'.world.timer t).data = (s.world.timer t).data
  lock : s'.world.base.lock = s.world.base.lock
  timerJiffies : s'.world.base.timerJiffies = s.world.base.timerJiffies
  jiffies : s'.world.jiffies = s.world.jiffies

theorem Sys.SameUsed.holds (U : s.SameUsed s') (H : s.Holds q) : s'.Holds q := by
  obtain ⟨R, hl⟩ := H
  have hpend (t : Fin N) (ht : q.Pending t) : s'.world.heap (.entry t) = s.world.heap (.entry t) :=
    U.entries t (R.timerPending_iff.mpr ht)
  rw [← U.ctl] at R hl
  refine ⟨⟨R.rings.congr fun hd xs hx n hn => ?_, R.dead, fun t _ ht => ?_, ?_, ?_,
    U.lock.trans R.lock, U.timerJiffies.trans R.timerJiffies, U.jiffies.trans R.jiffies⟩, hl⟩
  · obtain ⟨b, rfl, hb, rfl⟩ := ringHeads_eq_some.mp hx
    rcases List.mem_cons.mp hn with rfl | hn
    · exact U.heads b (U.ctl ▸ hb)
    · obtain ⟨t, ht, rfl⟩ := List.mem_map.mp hn
      exact hpend t ⟨b, ht⟩
  · have hm := U.marks t (R.timerPending_eq_false ht)
    simpa [timerPending] using hm
  · exact fun t => (U.expires t).trans (R.expires t)
  · exact fun t => ⟨(U.function t).trans (R.code t).1, (U.data t).trans (R.code t).2⟩

theorem unused_memory_never_shows {memory : Heap (Node N)} {setup : Fin N → TimerSetup m}
    {jiffies : ULong m} (h : (wheel m N).Reachable (boot memory setup jiffies) s)
    (U : s.SameUsed s') : SameEvents s s' := by
  obtain ⟨q, H, -⟩ := reachable_holds h
  exact sameEvents_of_holds H (U.holds H) U.ctl.symm

/-- Timer 0 is pending and timer 1 is not. The states differ in `next_timer`, in the head
of the work list, in `entry.prev` of timer 1, and in the flag of timer 0. -/
theorem unused_memory_never_shows_test1 :
    ∃ (s s' : Sys .long32 2) (ev : List (Event .long32 2)),
      (wheel .long32 2).run (boot (fun _ => ⟨.null, .null⟩) (fun _ => ⟨0, 1, 2⟩) 64)
        [.call (.addTimer 0 70)] = some (s, ev) ∧
      timerPending s.world 0 = true ∧ timerPending s.world 1 = false ∧
      s.world.base.nextTimer ≠ s'.world.base.nextTimer ∧
      s.world.heap.next (.head .workList) ≠ s'.world.heap.next (.head .workList) ∧
      s.world.heap.prev (.entry 1) ≠ s'.world.heap.prev (.entry 1) ∧
      (s.world.timer 0).base ≠ (s'.world.timer 0).base ∧ SameEvents s s' := by
  let change (w : World .long32 2) : World .long32 2 :=
    ((w.setHeap ((w.heap.setPrev (.entry 1) .listPoison2).setNext (.head .workList)
      (.to (.entry 0)))).setTimer 0 { w.timer 0 with base := ⟨true⟩ }).setNextTimer 7
  have h : ((wheel .long32 2).run (boot (fun _ => ⟨.null, .null⟩) (fun _ => ⟨0, 1, 2⟩) 64)
      [.call (.addTimer 0 70)]).map (fun p => (p.1.ctl,
        [0, 1].map (timerPending p.1.world), [0, 1].map (timerPending (change p.1.world)),
        decide (p.1.world.base.nextTimer = 7 ∨ (p.1.world.timer 0).base.deferrable = true ∨
          p.1.world.heap.next (.head .workList) = .to (.entry 0) ∨
          p.1.world.heap.prev (.entry 1) = .listPoison2))) =
      some (.idle, [true, false], [true, false], false) := by
    decide +kernel
  obtain ⟨⟨s, ev⟩, hr, hs⟩ := Option.map_eq_some_iff.mp h
  simp only [Prod.mk.injEq, List.map_cons, List.map_nil, List.cons.injEq, and_true,
    decide_eq_false_iff_not, not_or] at hs
  obtain ⟨hc, ⟨hp₀, hp₁⟩, ⟨-, hp₁'⟩, hnext, hflag, hhead, hprev⟩ := hs
  refine ⟨s, ⟨change s.world, s.ctl⟩, ev, hr, hp₀, hp₁, hnext, ?_, ?_, ?_,
    unused_memory_never_shows ⟨_, _, hr⟩ ⟨rfl, fun b hb => ?_, fun t ht => ?_, fun t ht => ?_,
      fun t => ?_, fun t => ?_, fun t => ?_, rfl, rfl, rfl⟩⟩
  · simpa [change, World.setNextTimer, World.setHeap, World.setTimer] using hhead
  · simpa [change, World.setNextTimer, World.setHeap, World.setTimer] using hprev
  · intro he
    have hd := congrArg BasePtr.deferrable he
    simp [change, World.setNextTimer, World.setHeap, World.setTimer] at hd
    exact hflag hd
  · have hne : b ≠ .workList := by
      rintro rfl
      rw [hc] at hb
      cases hb
    simp [change, World.setNextTimer, World.setHeap, World.setTimer, Heap.setPrev, Heap.setNext, hne]
  · have hne : t ≠ 1 := by
      rintro rfl
      rw [hp₁] at ht
      cases ht
    simp [change, World.setNextTimer, World.setHeap, World.setTimer, Heap.setPrev, Heap.setNext, hne]
  · obtain rfl | rfl : t = 0 ∨ t = 1 := by omega
    · rw [hp₀] at ht
      cases ht
    · exact hp₁'
  all_goals
    obtain rfl | rfl : t = 0 ∨ t = 1 := by omega
    · simp [change, World.setNextTimer, World.setHeap, World.setTimer]
    · simp [change, World.setNextTimer, World.setHeap, World.setTimer]

end Uki
