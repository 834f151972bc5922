import Uki.Timer.Pass
import Mathlib.Data.List.Induction

/-!
# Every reachable wheel is a family of queues

`Queues.Step` is the machine of `Uki.Timer.Run` on the queues. The code's
machine and this one simulate each other (`step_refines`, `step_of_queues`), and
memory after `init_timers_uki` realizes empty queues (`boot_holds`), so every
reachable state realizes some queues (`reachable_holds`). `wheel_induction` is
the rule by which properties of the queues carry over to runs of the code.
-/

set_option linter.style.nameCheck false

namespace Uki

variable {m : LongModel} {N : Nat} {q q' : Queues m N} {s s' : Sys m N} {t : Fin N}

/-! ## The machine on the queues -/

/-- The work list is in use. -/
def Ctl.working : Ctl N → Bool
  | .idle | .outer => false
  | .inner | .callback _ => true

/-- The worker holds the lock while it is at one of its loops. -/
def Ctl.lock (c : Ctl N) : Option Thread := if c.open then none else some .worker

inductive Queues.Step (q : Queues m N) :
    Ctl N → Act m N → Queues m N → Ctl N → List (Event m N) → Prop where
  | call {ctl : Ctl N} {c : Call m N} (ho : ctl.open = true) (hc : q.Allows c) :
      Step q ctl (.call c) (q.exec c).1 ctl [.ret c (q.exec c).2]
  | wake (j : ULong m) :
      Step q .idle (.wake j) { q with jiffies := j, lock := some .worker } .outer []
  | iter (h : timeAfterEq q.jiffies q.timerJiffies = true) :
      Step q .outer .run q.startTick .inner [.iter q.timerJiffies]
  | sleep (h : timeAfterEq q.jiffies q.timerJiffies = false) :
      Step q .outer .run q.unlock .idle []
  | drained (h : q.list .workList = []) : Step q .inner .run q .outer []
  | fire {t : Fin N} {ts : List (Fin N)} (h : q.list .workList = t :: ts) :
      Step q .inner .run q.takeTimer.unlock (.callback t) [.fire t (q.code t).1 (q.code t).2]
  | resume (t : Fin N) :
      Step q (.callback t) .run { q with lock := some .worker } .inner []

theorem Queues.Step.call_inv {c c' : Ctl N} {cl : Call m N} {ev : List (Event m N)}
    (h : q.Step c (.call cl) q' c' ev) :
    q' = (q.exec cl).1 ∧ c' = c ∧ ev = [.ret cl (q.exec cl).2] := by
  cases h
  exact ⟨rfl, rfl, rfl⟩

theorem Queues.Step.call_allows {c c' : Ctl N} {cl : Call m N} {ev : List (Event m N)}
    (h : q.Step c (.call cl) q' c' ev) : q.Allows cl := by
  cases h with
  | call ho hc => exact hc

/-- What the rings in memory guarantee about the queues. -/
structure Queues.Sound (q : Queues m N) (working : Bool) : Prop where
  dead : ∀ b, Head.live working b = false → q.list b = []
  nodup : ∀ b, (q.list b).Nodup
  unique : ∀ t b b', t ∈ q.list b → t ∈ q.list b' → b = b'

theorem Realizes.sound {working : Bool} {loose : List (Fin N)} {w : World m N}
    (R : Realizes working loose w q) : q.Sound working :=
  ⟨R.dead, R.nodup, fun _ _ _ => R.unique⟩

/-- Memory in state `s` realizes the queues `q`. -/
structure Sys.Holds (s : Sys m N) (q : Queues m N) : Prop where
  realizes : Realizes s.ctl.working [] s.world q
  lock : q.lock = s.ctl.lock

namespace Sys.Holds

/-- Calls leave a free lock free. -/
theorem exec_lock (c : Call m N) (h : q.lock = none) : (q.exec c).1.lock = none := by
  rcases q.exec_cases c with hx | hx | hx | ⟨key, e, hx⟩ <;> rw [hx]
  · exact h
  · rfl
  · rfl
  · rfl

/-- Taking the lock. -/
theorem realizes_locked {working : Bool} {w : World m N} (R : Realizes working [] w q) :
    Realizes working [] { w with base := { w.base with lock := some .worker } }
      { q with lock := some .worker } :=
  ⟨R.rings, R.dead, R.null, R.expires, R.code, rfl, R.timerJiffies, R.jiffies⟩

end Sys.Holds

open Sys.Holds in
/-- Every step on the queues is a step of the code. -/
theorem step_of_queues (H : s.Holds q) {a : Act m N} {c : Ctl N} {ev : List (Event m N)}
    (h : q.Step s.ctl a q' c ev) : ∃ w', s.step a = some (⟨w', c⟩, ev) ∧ Sys.Holds ⟨w', c⟩ q' := by
  obtain ⟨w, ctl⟩ := s
  obtain ⟨R, hl⟩ := H
  have hlw := R.lock.trans hl
  simp only at R h hl hlw
  cases h with
  | call ho hc =>
    obtain ⟨w', hw', R'⟩ := exec_spec R hc
    refine ⟨w', by simp [Sys.step, ho, hw'], R', ?_⟩
    rw [Ctl.lock, if_pos ho] at hl ⊢
    exact exec_lock _ hl
  | wake j =>
    have hn : w.base.lock = none := hlw
    refine ⟨{ w with jiffies := j, base := { w.base with lock := some .worker } },
      by simp [Sys.step, spinLock, hn], ?_, rfl⟩
    exact ⟨R.rings, R.dead, R.null, R.expires, R.code, rfl, R.timerJiffies, rfl⟩
  | iter hj =>
    obtain ⟨w', hw', R'⟩ := startTick_spec R
    refine ⟨w', ?_, R', q.lock_startTick.trans hl⟩
    simp [Sys.step, R.jiffies, R.timerJiffies, hj, hw']
  | sleep hj =>
    refine ⟨spinUnlock w, ?_, R.spinUnlock, rfl⟩
    simp [Sys.step, R.jiffies, R.timerJiffies, hj]
  | drained he =>
    refine ⟨w, ?_, R.forget he, hl⟩
    simp [Sys.step, (listEmpty_workList R).mpr he]
  | fire he =>
    obtain ⟨w', hw', R'⟩ := takeTimer_spec R he
    refine ⟨spinUnlock w', ?_, R'.spinUnlock, rfl⟩
    simp [Sys.step, listEmpty_workList_cons R he, hw']
  | resume t =>
    have hn : w.base.lock = none := hlw
    refine ⟨{ w with base := { w.base with lock := some .worker } }, ?_, realizes_locked R, rfl⟩
    simp [Sys.step, spinLock, hn]

/-- The queues can take every step that the code can take. -/
theorem exists_step (H : s.Holds q) {a : Act m N} {ev : List (Event m N)}
    (h : s.step a = some (s', ev)) : ∃ q' c ev', q.Step s.ctl a q' c ev' := by
  obtain ⟨w, ctl⟩ := s
  obtain ⟨R, -⟩ := H
  cases a with
  | call c =>
    by_cases ho : ctl.open = true
    · cases hx : c.exec w with
      | none => simp [Sys.step, ho, hx] at h
      | some p => exact ⟨_, _, _, .call ho (exec_inv R hx).1⟩
    · simp [Sys.step, ho] at h
  | wake j =>
    rcases eq_or_ne ctl .idle with rfl | hi
    · exact ⟨_, _, _, .wake j⟩
    · simp [Sys.step, hi] at h
  | run =>
    cases ctl with
    | idle => cases h
    | outer =>
      cases hj : timeAfterEq q.jiffies q.timerJiffies with
      | true => exact ⟨_, _, _, .iter hj⟩
      | false => exact ⟨_, _, _, .sleep hj⟩
    | inner =>
      cases hw : q.list .workList with
      | nil => exact ⟨_, _, _, .drained hw⟩
      | cons t ts => exact ⟨_, _, _, .fire hw⟩
    | callback t => exact ⟨_, _, _, .resume t⟩

/-- Every step of the code is a step on the queues. -/
theorem step_refines (H : s.Holds q) {a : Act m N} {ev : List (Event m N)}
    (h : s.step a = some (s', ev)) : ∃ q', s'.Holds q' ∧ q.Step s.ctl a q' s'.ctl ev := by
  obtain ⟨q', c, ev', hq⟩ := exists_step H h
  obtain ⟨w', hw', H'⟩ := step_of_queues H hq
  rw [h] at hw'
  cases hw'
  exact ⟨q', H', hq⟩

/-- The invariant rule for properties of the queues and the events seen. -/
theorem wheel_induction {P : Queues m N → Ctl N → List (Event m N) → Prop} {Q : Act m N → Prop}
    {as : List (Act m N)} {ev : List (Event m N)} (h : (wheel m N).run s as = some (s', ev))
    (hQ : ∀ a ∈ as, Q a) (H : s.Holds q) (h0 : P q s.ctl [])
    (hstep : ∀ q c ev a q' c' ev', Q a → q.Sound c.working → P q c ev → q.Step c a q' c' ev' →
      P q' c' (ev ++ ev')) :
    ∃ q', s'.Holds q' ∧ P q' s'.ctl ev := by
  refine Machine.run_induction (P := fun s ev => ∃ q, s.Holds q ∧ P q s.ctl ev) h hQ ⟨q, H, h0⟩ ?_
  rintro s ev a s' ev' ha ⟨q, H, hP⟩ hs
  obtain ⟨q', H', hq⟩ := step_refines H hs
  exact ⟨q', H', hstep q s.ctl ev a q' s'.ctl ev' ha H.realizes.sound hP hq⟩

/-- What is called from where is up to `as`. -/
def SameEvents (s s' : Sys m N) : Prop :=
  ∀ (as : List (Act m N)) (ev : List (Event m N)),
    (∃ u, (wheel m N).run s as = some (u, ev)) ↔ ∃ u, (wheel m N).run s' as = some (u, ev)

/-- States that realize the same queues show the same events in every run. -/
theorem sameEvents_of_holds (H : s.Holds q) (H' : s'.Holds q) (hc : s.ctl = s'.ctl) :
    SameEvents s s' := by
  let R (s s' : Sys m N) : Prop := s.ctl = s'.ctl ∧ ∃ q, s.Holds q ∧ s'.Holds q
  have simulates {s s' u : Sys m N} {as : List (Act m N)} {ev : List (Event m N)} (hR : R s s')
      (h : (wheel m N).run s as = some (u, ev)) :
      ∃ u', (wheel m N).run s' as = some (u', ev) ∧ R u u' := by
    refine Machine.run_simulates ?_ hR h
    rintro s ⟨w', c⟩ a t ev ⟨rfl, q, H, H'⟩ hs
    obtain ⟨q', Ht, hq⟩ := step_refines H hs
    obtain ⟨w₁, hs', Ht'⟩ := step_of_queues H' hq
    exact ⟨_, hs', rfl, q', Ht, Ht'⟩
  intro as ev
  constructor
  · rintro ⟨u, hu⟩
    obtain ⟨u', hu', -⟩ := simulates ⟨hc, q, H, H'⟩ hu
    exact ⟨u', hu'⟩
  · rintro ⟨u, hu⟩
    obtain ⟨u', hu', -⟩ := simulates ⟨hc.symm, q, H', H⟩ hu
    exact ⟨u', hu'⟩

/-! ## The initial state -/

/-- Several heads are initialised in a row. -/
theorem foldl_initListHead {ν : Type} [DecidableEq ν] (ns : List ν) (h : Heap ν) (x : ν) :
    ns.foldl initListHead h x = if x ∈ ns then ⟨.to x, .to x⟩ else h x := by
  induction ns generalizing h with
  | nil => simp
  | cons n ns ih =>
    rw [List.foldl_cons, ih]
    by_cases hx : x ∈ ns
    · simp [hx]
    · rcases eq_or_ne x n with rfl | hn
      · simp [hx, initListHead, Heap.setNext, Heap.setPrev]
      · simp [hx, hn, initListHead, Heap.setNext, Heap.setPrev]

/-- The heads `init_timers_uki` initialises. -/
def bucketHeads : List (Node N) :=
  (List.range TVN_SIZE).flatMap (fun j => [.head (.vec .tv5 j), .head (.vec .tv4 j),
    .head (.vec .tv3 j), .head (.vec .tv2 j)]) ++
  (List.range TVR_SIZE).map fun j => .head (.vec .tv1 j)

theorem mem_bucketHeads {n : Node N} :
    n ∈ (bucketHeads : List (Node N)) ↔ ∃ tv i, n = .head (.vec tv i) ∧ i < tv.size := by
  simp only [bucketHeads, List.mem_append, List.mem_flatMap, List.mem_range, List.mem_cons,
    List.not_mem_nil, or_false, List.mem_map]
  constructor
  · rintro (⟨j, hj, rfl | rfl | rfl | rfl⟩ | ⟨j, hj, rfl⟩) <;> exact ⟨_, _, rfl, hj⟩
  · rintro ⟨tv, i, rfl, hi⟩
    cases tv <;> simp_all [Tv.size]

theorem heap_initTimersUki (w : World m N) :
    (initTimersUki w).heap = bucketHeads.foldl initListHead w.heap := by
  simp only [initTimersUki, World.setNextTimer, bucketHeads, List.foldl_append, List.foldl_map,
    List.foldl_flatMap, List.foldl_cons, List.foldl_nil]

/-- `setup_timer` on several timers. -/
theorem foldl_setupTimerKey (setup : Fin N → TimerSetup m) (ts : List (Fin N)) (w : World m N) :
    let w' := ts.foldl (fun w t => setupTimerKey w t (setup t).function (setup t).data) w
    w'.base = w.base ∧ w'.jiffies = w.jiffies ∧ (∀ t, (w'.timer t).expires = (w.timer t).expires) ∧
      ∀ t ∈ ts, w'.heap.next (.entry t) = .null ∧
        (w'.timer t).function = some (setup t).function ∧ (w'.timer t).data = (setup t).data := by
  induction ts using List.reverseRecOn with
  | nil => simp
  | append_singleton ts u ih =>
    obtain ⟨hb, hj, he, ht⟩ := ih
    simp only [List.foldl_append, List.foldl_cons, List.foldl_nil]
    refine ⟨hb, hj, fun t => ?_, fun t hm => ?_⟩
    · rw [← he t]
      simp only [setupTimerKey, initTimerKey, World.setTimer, World.setHeap]
      split_ifs with htu
      · rw [htu]
      · rfl
    · rcases eq_or_ne t u with rfl | htu
      · simp [setupTimerKey, initTimerKey, World.setTimer, World.setHeap]
      · have := ht t (by simpa [htu] using hm)
        simpa [setupTimerKey, initTimerKey, World.setTimer, World.setHeap, htu] using this

/-- The queues after `init_timers_uki`. -/
def Queues.boot (setup : Fin N → TimerSetup m) (jiffies : ULong m) : Queues m N where
  list _ := []
  expires t := (setup t).expires
  code t := ((setup t).function, (setup t).data)
  lock := none
  timerJiffies := jiffies
  jiffies := jiffies

theorem boot_holds (memory : Heap (Node N)) (setup : Fin N → TimerSetup m) (jiffies : ULong m) :
    (boot memory setup jiffies).Holds (Queues.boot setup jiffies) := by
  refine ⟨?_, rfl⟩
  set blank : World m N :=
    { heap := memory
      timer := fun t => ⟨(setup t).expires, none, 0, ukiTvecBase⟩
      base := ⟨none, 0, 0⟩
      jiffies := jiffies } with hblank
  obtain ⟨-, hj, he, ht⟩ := foldl_setupTimerKey setup (List.finRange N) blank
  set w := (List.finRange N).foldl
    (fun w t => setupTimerKey w t (setup t).function (setup t).data) blank
  change Realizes false [] (initTimersUki w) (Queues.boot setup jiffies)
  have hcell (n : Node N) : (initTimersUki w).heap n =
      if n ∈ (bucketHeads : List (Node N)) then ⟨.to n, .to n⟩ else w.heap n := by
    rw [heap_initTimersUki, foldl_initListHead]
  refine ⟨⟨?_, ?_⟩, fun _ _ => rfl, fun t _ _ => ?_, he, fun t => ?_, rfl, hj, hj⟩
  · intro hd xs hx
    obtain ⟨b, rfl, hb, rfl⟩ := ringHeads_eq_some.mp hx
    have hm : Node.head b ∈ (bucketHeads : List (Node N)) := by
      rw [mem_bucketHeads]
      cases b with
      | vec tv i => exact ⟨tv, i, rfl, by simpa [Head.live] using hb⟩
      | workList | tvList => cases hb
    have hc := hcell (.head b)
    rw [if_pos hm] at hc
    refine ⟨by simp [Queues.boot], ?_⟩
    simp [Queues.boot, Heap.Link, Heap.next, Heap.prev, hc]
  · intro hd hd' xs ys hx hy hne n hn hn'
    obtain ⟨b, rfl, hb, rfl⟩ := ringHeads_eq_some.mp hx
    obtain ⟨b', rfl, hb', rfl⟩ := ringHeads_eq_some.mp hy
    simp only [Queues.boot, List.map_nil, List.mem_singleton] at hn hn'
    exact hne (hn.symm.trans hn')
  · have hm : Node.entry t ∉ (bucketHeads : List (Node N)) := by
      rw [mem_bucketHeads]
      rintro ⟨tv, i, hc, -⟩
      cases hc
    have hc := hcell (.entry t)
    rw [if_neg hm] at hc
    have := (ht t (List.mem_finRange t)).1
    simpa only [Heap.next, hc] using this
  · exact (ht t (List.mem_finRange t)).2

/-- No timer is pending at the start, whatever was in memory. -/
theorem timerPending_boot (memory : Heap (Node N)) (setup : Fin N → TimerSetup m)
    (jiffies : ULong m) (t : Fin N) : timerPending (boot memory setup jiffies).world t = false :=
  (boot_holds memory setup jiffies).realizes.timerPending_eq_false
    (by simp [Queues.Pending, Queues.boot])

theorem Queues.Step.code {c c' : Ctl N} {a : Act m N} {ev : List (Event m N)}
    (h : q.Step c a q' c' ev) : q'.code = q.code := by
  cases h with
  | @call _ c ho hc => rcases q.exec_cases c with hx | hx | hx | ⟨key, e, hx⟩ <;> rw [hx] <;> rfl
  | iter => exact q.code_startTick
  | wake | sleep | drained | fire | resume => rfl

/-- Every reachable state of the code realizes some queues, and the callbacks
are those that were set up. -/
theorem reachable_holds {memory : Heap (Node N)} {setup : Fin N → TimerSetup m} {jiffies : ULong m}
    (h : (wheel m N).Reachable (boot memory setup jiffies) s) :
    ∃ q, s.Holds q ∧ ∀ t, q.code t = ((setup t).function, (setup t).data) := by
  refine h.induction (P := fun s => ∃ q, s.Holds q ∧ ∀ t, q.code t =
    ((setup t).function, (setup t).data)) ⟨_, boot_holds memory setup jiffies, fun _ => rfl⟩ ?_
  rintro s a s' ev ⟨q, H, hc⟩ hs
  obtain ⟨q', H', hq⟩ := step_refines H hs
  exact ⟨q', H', fun t => by rw [hq.code, hc]⟩

end Uki
