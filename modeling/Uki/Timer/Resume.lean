import Uki.Timer.Plan

/-!
# Continuations of a run

`Sys.resume` goes on from a state between passes or in a callback: with the calls
still to be made there, then with the rest of the pass, then with further calls
and passes. With callbacks that call operations on their own timer only, the code
does what `Plan` does (`resume_plan`). So states with equal entries have the same
runs, and passes alone tell states with different statuses apart (`sameOwnRuns_iff`,
`samePasses_iff`).
-/

set_option linter.style.nameCheck false

namespace Uki

variable {m : LongModel} {N : Nat} {τ σ : Type} {q q' : Queues m N} {s s' : Sys m N}
  {w w' : World m N} {t : Fin N}

def OwnCallbacks.toCallbacks (cb : OwnCallbacks τ m N) : Callbacks (Fin N → τ) m N := fun e w t =>
  let (x, calls) := cb.act t (e t) w.jiffies w.base.timerJiffies (w.timer t).expires
  (Function.update e t x, calls)

def runBlocks (cb : Callbacks σ m N) (fuel : Nat) :
    σ → World m N → List (Block m N) → Option (Trace m N)
  | _, _, [] => some []
  | e, w, b :: bs => do
    let w ← execCalls w b.calls
    let (e, w, trace) ← __runTimers cb fuel e { w with jiffies := b.jiffies }
    let rest ← runBlocks cb fuel e w bs
    some (trace ++ rest)

/-- `timer_jiffies` is already one past the tick whose callbacks are running. -/
def Sys.resume (s : Sys m N) (cb : Callbacks σ m N) (fuel : Nat) (e : σ) (calls : List (Call m N))
    (blocks : List (Block m N)) : Option (Trace m N) :=
  match s.ctl with
  | .idle => do runBlocks cb fuel e (← execCalls s.world calls) blocks
  | .callback _ => do
    let w ← execCalls s.world calls
    let w ← spinLock w .worker
    let tick := w.base.timerJiffies - 1
    let (e, w, ts) ← runWorkList cb fuel e w
    let (e, w, trace) ← runTicks cb fuel e w
    let rest ← runBlocks cb fuel e (spinUnlock w) blocks
    some ((tick, ts) :: (trace ++ rest))
  | _ => none

/-! ## The code follows the plan -/

theorem rel_bind {α β γ δ : Type} {R : α → β → Prop} {S : γ → δ → Prop} {a : Option α}
    {b : Option β} {f : α → Option γ} {g : β → Option δ} (h : Option.Rel R a b)
    (hf : ∀ x y, R x y → Option.Rel S (f x) (g y)) : Option.Rel S (a.bind f) (b.bind g) := by
  cases h with
  | none => exact .none
  | some h => exact hf _ _ h

theorem rel_none {α β : Type} {R : α → β → Prop} {a : Option α} (h : Option.Rel R a none) :
    a = none := by
  cases h
  rfl

theorem rel_some {α β : Type} {R : α → β → Prop} {a : Option α} {y : β}
    (h : Option.Rel R a (some y)) : ∃ x, a = some x ∧ R x y := by
  cases h with
  | some h => exact ⟨_, rfl, h⟩

theorem rel_imp {α β : Type} {R S : α → β → Prop} {a : Option α} {b : Option β}
    (h : Option.Rel R a b) (hRS : ∀ x y, R x y → S x y) : Option.Rel S a b := by
  cases h with
  | none => exact .none
  | some h => exact .some (hRS _ _ h)

noncomputable def Queues.plan (q : Queues m N) : Plan m N := ⟨q.entry, q.timerJiffies, q.jiffies⟩

/-- Memory realizes queues with this plan. -/
def Matches (working : Bool) (lock : Option Thread) (w : World m N) (p : Plan m N) : Prop :=
  ∃ q, Realizes working [] w q ∧ q.lock = lock ∧ q.plan = p

theorem exec_plan {working : Bool} (R : Realizes working [] w q) (c : Call m N) :
    Option.Rel (fun (r : World m N × Nat) p => ∃ q', Realizes working [] r.1 q' ∧ CallFrame q q' ∧
      q'.plan = p) (c.exec w) (q.plan.exec c) := by
  by_cases hc : q.Allows c
  · obtain ⟨w', hw', R'⟩ := exec_spec R hc
    have hp : q.plan.exec c = some (q.exec c).1.plan := by
      have hx := Queues.entry_exec hc R.sound R'.sound
      obtain ⟨hT, hJ, -⟩ := Queues.exec_frame (q := q) c
      have he : Function.update q.entry c.timer ((q.exec c).1.entry c.timer) =
          (q.exec c).1.entry := by
        funext u
        rw [Function.update_apply]
        split
        · next hu => rw [hu]
        · next hu => exact (Queues.entry_exec_of_ne hu R.sound R'.sound).symm
      simp [Plan.exec, Queues.plan, hx, he, hT, hJ]
    rw [hw', hp]
    exact .some ⟨_, R', callFrame_exec q c, rfl⟩
  · have hx := Queues.entry_exec_none R.sound hc
    rw [exec_eq_none R hc]
    have hp : q.plan.exec c = none := by simp [Plan.exec, Queues.plan, hx]
    rw [hp]
    exact .none

theorem execCalls_plan {working : Bool} (R : Realizes working [] w q) (cs : List (Call m N)) :
    Option.Rel (fun w p => ∃ q', Realizes working [] w q' ∧ CallFrame q q' ∧ q'.plan = p)
      (execCalls w cs) (q.plan.execCalls cs) := by
  induction cs generalizing w q with
  | nil => exact .some ⟨q, R, ⟨fun h => h, rfl, rfl, List.Sublist.refl _⟩, rfl⟩
  | cons c cs ih =>
    refine rel_bind (exec_plan R c) ?_
    rintro ⟨w₁, r⟩ p ⟨q₁, R₁, F₁, rfl⟩
    refine rel_imp (ih R₁) ?_
    rintro w p ⟨q₂, R₂, F₂, hp⟩
    exact ⟨q₂, R₂, F₁.trans F₂, hp⟩

/-! ### The inner loop -/

theorem Entry.exec_ne_expiring {T : ULong m} {x y : Entry m} {c : Call m N}
    (h : x.exec T c = some y) (hx : x.status ≠ .expiring) : y.status ≠ .expiring := by
  have due {e : ULong m} {d : Nat} (h : some (⟨e, .due d⟩ : Entry m) = some y) :
      y.status ≠ .expiring := by
    cases h
    simp
  cases c with
  | addTimer t e =>
    simp only [Entry.exec] at h
    split at h
    · exact due h
    · cases h
  | modTimer t e =>
    simp only [Entry.exec] at h
    split at h
    · cases h
      exact hx
    · exact due h
  | modTimerPending t e =>
    simp only [Entry.exec] at h
    split at h
    · cases h
      exact hx
    · exact due h
  | delTimer t =>
    cases h
    simp

theorem Entry.execs_ne_expiring {T : ULong m} {x y : Entry m} {cs : List (Call m N)}
    (h : x.execs T cs = some y) (hx : x.status ≠ .expiring) : y.status ≠ .expiring := by
  induction cs generalizing x with
  | nil =>
    cases h
    exact hx
  | cons c cs ih =>
    obtain ⟨z, hz, h⟩ := Option.bind_eq_some_iff.mp h
    exact ih h (Entry.exec_ne_expiring hz hx)

namespace Plan

variable {cb : OwnCallbacks τ m N} {fuel : Nat} {e : Fin N → τ} {p : Plan m N} {x : τ}
  {calls : List (Call m N)} {y : Entry m}

/-- The callback of one timer can be run before those of the others. -/
theorem runWorkList_next (fuel : Nat) (ht : (p.entry t).status = .expiring)
    (ha : cb.act t (e t) p.jiffies p.timerJiffies (p.entry t).expires = (x, calls))
    (hy : Entry.execs p.timerJiffies ⟨(p.entry t).expires, .off⟩ calls = some y) :
    let p' : Plan m N := { p with entry := Function.update p.entry t y }
    runWorkList cb (fuel + 1) e p =
        (runWorkList cb fuel (Function.update e t x) p').map (fun r => (r.1, r.2.1, p.expiring)) ∧
      p.expiring.Perm (t :: p'.expiring) := by
  intro p'
  have hne := Entry.execs_ne_expiring hy (by simp)
  have hmem (u : Fin N) : u ∈ p'.expiring ↔ u ∈ p.expiring ∧ u ≠ t := by
    rw [mem_expiring, mem_expiring]
    rcases eq_or_ne u t with rfl | hu
    · simpa [p'] using hne
    · simp [p', hu]
  have hperm : p.expiring.Perm (t :: p'.expiring) := by
    have hnd (p : Plan m N) : p.expiring.Nodup := (List.nodup_finRange N).filter _
    refine (List.perm_ext_iff_of_nodup (hnd p) ?_).mpr fun u => ?_
    · exact List.nodup_cons.mpr ⟨fun h => ((hmem t).mp h).2 rfl, hnd p'⟩
    · rw [List.mem_cons, hmem]
      by_cases hu : u = t
      · simp [hu, mem_expiring, ht]
      · simp [hu]
  have hcb : callback cb (Function.update e t x) p' = callback cb e p := by
    funext u
    unfold callback
    rcases eq_or_ne u t with rfl | hu
    · have hs : ¬ (p'.entry u).status = .expiring := by simpa [p'] using hne
      rw [if_neg hs, if_pos ht, ha]
      simp [p', hy]
    · simp [p', hu]
  have hlen : p'.expiring.length + 1 = p.expiring.length := hperm.length_eq.symm
  refine ⟨?_, hperm⟩
  unfold runWorkList
  rw [hcb]
  by_cases hf : p'.expiring.length < fuel
  · rw [if_pos hf, if_pos (by omega)]
    cases collect (callback cb e p) <;> rfl
  · rw [if_neg hf, if_neg (by omega)]
    rfl

theorem runWorkList_eq_none (fuel : Nat) (ht : (p.entry t).status = .expiring)
    (ha : cb.act t (e t) p.jiffies p.timerJiffies (p.entry t).expires = (x, calls))
    (hy : Entry.execs p.timerJiffies ⟨(p.entry t).expires, .off⟩ calls = none) :
    runWorkList cb fuel e p = none := by
  have hc : callback cb e p t = none := by
    unfold callback
    rw [if_pos ht, ha]
    simp [hy]
  unfold runWorkList
  rw [collect_eq_none hc]
  split <;> rfl

theorem expiring_nil (h : ∀ t, (p.entry t).status ≠ .expiring) : p.expiring = [] := by
  rw [List.eq_nil_iff_forall_not_mem]
  exact fun t hm => h t (mem_expiring.mp hm)

theorem runWorkList_nil (fuel : Nat) (h : ∀ t, (p.entry t).status ≠ .expiring) :
    runWorkList cb (fuel + 1) e p = some (e, p, []) := by
  have he := expiring_nil h
  have hc : collect (callback cb e p) = some fun t => (e t, p.entry t) :=
    collect_eq_some.mpr fun t => if_neg (h t)
  simp [runWorkList, he, hc]

end Plan

/-- The entry of `t` when its callback starts. -/
theorem plan_takeTimer {ts : List (Fin N)} (h : q.list .workList = t :: ts) (S : q.Sound true)
    (S' : q.takeTimer.Sound true) :
    q.takeTimer.plan =
      { q.plan with entry := Function.update q.entry t ⟨q.expires t, .off⟩ } := by
  have he : q.takeTimer.entry = Function.update q.entry t ⟨q.expires t, .off⟩ := by
    funext u
    rw [Function.update_apply]
    unfold Queues.entry
    rw [Queues.status_takeTimer h S S']
    split
    · next hu =>
      rw [hu]
      rfl
    · rfl
  unfold Queues.plan
  rw [he]
  rfl

theorem OwnCallbacks.toCallbacks_eq {cb : OwnCallbacks τ m N} {e : Fin N → τ} {x : τ}
    {calls : List (Call m N)} {working : Bool} {loose : List (Fin N)}
    (R : Realizes working loose w q)
    (ha : cb.act t (e t) q.jiffies q.timerJiffies (q.expires t) = (x, calls)) :
    cb.toCallbacks e w t = (Function.update e t x, calls) := by
  unfold OwnCallbacks.toCallbacks
  rw [R.jiffies, R.timerJiffies, R.expires, ha]

theorem runWorkList_plan (cb : OwnCallbacks τ m N) (fuel : Nat) (e : Fin N → τ)
    (R : Realizes true [] w q) (hl : q.lock = some .worker) :
    Option.Rel (fun r r' => r.1 = r'.1 ∧ Matches false (some .worker) r.2.1 r'.2.1 ∧
        r.2.2.Perm r'.2.2 ∧ r'.2.2 = q.plan.expiring)
      (runWorkList cb.toCallbacks fuel e w) (Plan.runWorkList cb fuel e q.plan) := by
  induction fuel generalizing e w q with
  | zero =>
    have h : Plan.runWorkList cb 0 e q.plan = none := if_neg (Nat.not_lt_zero _)
    rw [h]
    exact .none
  | succ fuel ih =>
    cases hw : q.list .workList with
    | nil =>
      have hx (t : Fin N) : (q.plan.entry t).status ≠ .expiring := by
        intro hs
        have := (Queues.status_expiring R.sound).mp hs
        rw [Queues.Expiring, hw] at this
        cases this
      have hc : runWorkList cb.toCallbacks (fuel + 1) e w = some (e, w, []) := by
        simp [runWorkList, (listEmpty_workList R).mpr hw]
      rw [hc, Plan.runWorkList_nil fuel hx]
      exact .some ⟨rfl, ⟨q, R.forget hw, hl, rfl⟩, List.Perm.refl _, (Plan.expiring_nil hx).symm⟩
    | cons t ts =>
      have hne := listEmpty_workList_cons R hw
      obtain ⟨w₁, hw₁, R₀⟩ := takeTimer_spec R hw
      have R₁ := R₀.spinUnlock
      have ht : (q.plan.entry t).status = .expiring :=
        (Queues.status_expiring R.sound).mpr (by rw [Queues.Expiring, hw]; simp)
      obtain ⟨x, calls, ha⟩ : ∃ x calls, cb.act t (e t) q.jiffies q.timerJiffies (q.expires t) =
        (x, calls) := ⟨_, _, rfl⟩
      have hown : ∀ c ∈ calls, c.timer = t := by
        have := cb.own t (e t) q.jiffies q.timerJiffies (q.expires t)
        rwa [ha] at this
      have hcalls := execCalls_plan R₁ calls
      have hp₁ : q.takeTimer.unlock.plan = q.takeTimer.plan := rfl
      rw [hp₁, plan_takeTimer hw R.sound R₀.sound, Plan.execCalls_own _ hown] at hcalls
      simp only [Function.update_self, Function.update_idem] at hcalls
      rw [runWorkList_cons fuel hne hw₁ (OwnCallbacks.toCallbacks_eq R₁ ha)]
      cases hy : Entry.execs q.timerJiffies ⟨q.expires t, .off⟩ calls with
      | none =>
        have hy' : Entry.execs q.plan.timerJiffies ⟨q.expires t, .off⟩ calls = none := hy
        rw [hy'] at hcalls
        rw [Plan.runWorkList_eq_none _ ht ha hy, rel_none hcalls]
        exact .none
      | some y =>
        have hy' : Entry.execs q.plan.timerJiffies ⟨q.expires t, .off⟩ calls = some y := hy
        rw [hy'] at hcalls
        obtain ⟨w₂, hw₂, q₂, R₂, F, hp₂⟩ := rel_some hcalls
        obtain ⟨hnext, hperm⟩ := Plan.runWorkList_next fuel ht ha hy
        have hn : w₂.base.lock = none := R₂.lock.trans (F.lock rfl)
        rw [hnext, hw₂, Option.bind_some, spinLock, hn, Option.bind_some, Option.map_eq_bind]
        have := ih (Function.update e t x) (Sys.Holds.realizes_locked R₂) rfl
        have hq₂ : ({ q₂ with lock := some .worker } : Queues m N).plan = q₂.plan := rfl
        rw [hq₂, hp₂] at this
        refine rel_bind this ?_
        rintro ⟨e', w', ts'⟩ ⟨e'', p, us⟩ ⟨he, hM, hP, rfl⟩
        exact .some ⟨he, hM, (hP.cons t).trans hperm.symm, rfl⟩

/-! ### The outer loop, and further passes -/

/-- The same timers run at the same tick. -/
def SameTick (a b : ULong m × List (Fin N)) : Prop := a.1 = b.1 ∧ a.2.Perm b.2

theorem plan_startTick (S : q.Sound false) (S' : q.startTick.Sound true) :
    q.startTick.plan = q.plan.startTick := by
  have he : q.startTick.entry = fun t => ⟨q.expires t, (q.status t).tick⟩ := by
    funext t
    unfold Queues.entry
    rw [Queues.status_startTick S S', Queues.expires_startTick]
    rcases q.status t with - | - | - | d <;> rfl
  unfold Queues.plan
  rw [he, Queues.timerJiffies_startTick, Queues.jiffies_startTick]
  rfl

theorem runTicks_plan (cb : OwnCallbacks τ m N) (fuel : Nat) (e : Fin N → τ)
    (R : Realizes false [] w q) (hl : q.lock = some .worker) :
    Option.Rel (fun r r' => r.1 = r'.1 ∧ Matches false (some .worker) r.2.1 r'.2.1 ∧
        List.Forall₂ SameTick r.2.2 r'.2.2)
      (runTicks cb.toCallbacks fuel e w) (Plan.runTicks cb fuel e q.plan) := by
  induction fuel generalizing e w q with
  | zero => exact .none
  | succ fuel ih =>
    have hJ : q.plan.jiffies = q.jiffies := rfl
    have hT : q.plan.timerJiffies = q.timerJiffies := rfl
    cases hj : timeAfterEq q.jiffies q.timerJiffies with
    | false =>
      have h₁ : runTicks cb.toCallbacks (fuel + 1) e w = some (e, w, []) := by
        simp [runTicks, R.jiffies, R.timerJiffies, hj]
      have h₂ : Plan.runTicks cb (fuel + 1) e q.plan = some (e, q.plan, []) := by
        simp [Plan.runTicks, hJ, hT, hj]
      rw [h₁, h₂]
      exact .some ⟨rfl, ⟨q, R, hl, rfl⟩, .nil⟩
    | true =>
      obtain ⟨w₁, hw₁, R₁⟩ := startTick_spec R
      have hp := plan_startTick R.sound R₁.sound
      simp only [runTicks, Plan.runTicks, R.jiffies, R.timerJiffies, hJ, hT, hj, if_true, hw₁,
        Option.bind_eq_bind, Option.bind_some, ← hp]
      refine rel_bind (runWorkList_plan cb fuel e R₁ (q.lock_startTick.trans hl)) ?_
      rintro ⟨e', w', ts⟩ ⟨-, p, us⟩ ⟨rfl, ⟨q', R', hl', rfl⟩, hP, -⟩
      refine rel_bind (ih e' R' hl') ?_
      rintro ⟨e'', w'', tr⟩ ⟨-, p, tr'⟩ ⟨rfl, hM, hF⟩
      exact .some ⟨rfl, hM, .cons ⟨rfl, hP⟩ hF⟩

theorem runBlocks_plan (cb : OwnCallbacks τ m N) (fuel : Nat) (e : Fin N → τ)
    (bs : List (Block m N)) {p : Plan m N} (M : Matches false none w p) :
    Option.Rel (List.Forall₂ SameTick) (runBlocks cb.toCallbacks fuel e w bs)
      (Plan.runBlocks cb fuel e p bs) := by
  induction bs generalizing e w p with
  | nil => exact .some .nil
  | cons b bs ih =>
    obtain ⟨q, R, hl, rfl⟩ := M
    simp only [runBlocks, Plan.runBlocks, Option.bind_eq_bind]
    refine rel_bind (execCalls_plan R b.calls) ?_
    rintro w₁ p ⟨q₁, R₁, F, rfl⟩
    have hn : w₁.base.lock = none := R₁.lock.trans (F.lock hl)
    -- the worker stores the clock and takes the lock
    let q₂ : Queues m N := { q₁ with jiffies := b.jiffies, lock := some .worker }
    have R₂ : Realizes false [] { w₁ with
        jiffies := b.jiffies, base := { w₁.base with lock := some .worker } } q₂ :=
      ⟨R₁.rings, R₁.dead, R₁.null, R₁.expires, R₁.code, rfl, R₁.timerJiffies, rfl⟩
    have hp : ({ q₁.plan with jiffies := b.jiffies } : Plan m N) = q₂.plan := rfl
    simp only [__runTimers, spinLock, hn, Option.bind_eq_bind, Option.bind_some, hp,
      Option.bind_assoc]
    refine rel_bind (runTicks_plan cb fuel e R₂ rfl) ?_
    rintro ⟨e', w', tr⟩ ⟨-, p, tr'⟩ ⟨rfl, ⟨q', R', -, rfl⟩, hF⟩
    refine rel_bind (ih e' (w := spinUnlock w') ⟨_, R'.spinUnlock, rfl, rfl⟩) ?_
    rintro rest rest' hR
    exact .some (List.rel_append hF hR)

/-- A continuation of the code is the continuation of the plan, up to the order of
the callbacks in a tick. -/
theorem resume_plan (H : s.Holds q) (cb : OwnCallbacks τ m N) (fuel : Nat) (e : Fin N → τ)
    (calls : List (Call m N)) (bs : List (Block m N)) :
    Option.Rel (List.Forall₂ SameTick) (s.resume cb.toCallbacks fuel e calls bs)
      (q.plan.resume s.ctl cb fuel e calls bs) := by
  obtain ⟨w, c⟩ := s
  obtain ⟨R, hl⟩ := H
  cases c with
  | outer | inner => exact .none
  | idle =>
    refine rel_bind (execCalls_plan R calls) ?_
    rintro w₁ p ⟨q₁, R₁, F, rfl⟩
    exact runBlocks_plan cb fuel e bs ⟨q₁, R₁, F.lock hl, rfl⟩
  | callback t =>
    refine rel_bind (execCalls_plan R calls) ?_
    rintro w₁ p ⟨q₁, R₁, F, rfl⟩
    have hn : w₁.base.lock = none := R₁.lock.trans (F.lock hl)
    simp only [spinLock, hn, Option.bind_eq_bind, Option.bind_some]
    have hr := runWorkList_plan cb fuel e (Sys.Holds.realizes_locked R₁) rfl
    refine rel_bind hr ?_
    rintro ⟨e', w', ts⟩ ⟨-, p, us⟩ ⟨rfl, ⟨q', R', hl', rfl⟩, hP, -⟩
    refine rel_bind (runTicks_plan cb fuel e' R' hl') ?_
    rintro ⟨e'', w'', tr⟩ ⟨-, p, tr'⟩ ⟨rfl, ⟨q'', R'', -, rfl⟩, hF⟩
    refine rel_bind (runBlocks_plan cb fuel e'' bs (w := spinUnlock w'')
      ⟨_, R''.spinUnlock, rfl, rfl⟩) ?_
    rintro rest rest' hR
    refine .some (.cons ⟨?_, hP⟩ (List.rel_append hF hR))
    rw [R₁.timerJiffies]
    rfl

/-! ## States with the same runs -/

/-- In every continuation with callbacks that call operations on their own timer, the
same timers run at the same ticks. -/
def SameOwnRuns (s s' : Sys m N) : Prop :=
  ∀ (τ : Type) (cb : OwnCallbacks τ m N) (fuel : Nat) (e : Fin N → τ) (calls : List (Call m N))
    (bs : List (Block m N)), Option.Rel (List.Forall₂ SameTick)
      (s.resume cb.toCallbacks fuel e calls bs) (s'.resume cb.toCallbacks fuel e calls bs)

/-- They do in every continuation without further calls. -/
def SamePasses (s s' : Sys m N) : Prop :=
  ∀ (fuel : Nat) (bs : List (Block m N)), (∀ b ∈ bs, b.calls = []) →
    Option.Rel (List.Forall₂ SameTick)
      (s.resume quiet.toCallbacks fuel (fun _ => ()) [] bs)
      (s'.resume quiet.toCallbacks fuel (fun _ => ()) [] bs)

theorem SameOwnRuns.samePasses (h : SameOwnRuns s s') : SamePasses s s' := fun fuel bs _ =>
  h Unit quiet fuel (fun _ => ()) [] bs

theorem SameTick.trans_symm {a b c : ULong m × List (Fin N)} (h : SameTick a c)
    (h' : SameTick b c) : SameTick a b :=
  ⟨h.1.trans h'.1.symm, h.2.trans h'.2.symm⟩

theorem sameTicks_trans_symm {a b c : Trace m N} (h : List.Forall₂ SameTick a c)
    (h' : List.Forall₂ SameTick b c) : List.Forall₂ SameTick a b := by
  induction h generalizing b with
  | nil =>
    cases h'
    exact .nil
  | cons hx _ ih =>
    cases h' with
    | cons hy ht => exact .cons (hx.trans_symm hy) (ih ht)

theorem ticksOf_congr {a b : Trace m N} (h : List.Forall₂ SameTick a b) (t : Fin N) :
    ticksOf t a = ticksOf t b := by
  induction h with
  | nil => rfl
  | @cons x y xs ys hx _ ih =>
    obtain ⟨T, ts⟩ := x
    obtain ⟨T', us⟩ := y
    obtain ⟨rfl, hP⟩ := hx
    simp only [ticksOf_cons, ih, hP.mem_iff]

theorem sameOwnRuns_of_plan (H : s.Holds q) (H' : s'.Holds q') (hc : s.ctl = s'.ctl)
    (hp : q.plan = q'.plan) : SameOwnRuns s s' := by
  intro τ cb fuel e calls bs
  have h := resume_plan H cb fuel e calls bs
  have h' := resume_plan H' cb fuel e calls bs
  rw [hp, hc] at h
  revert h h'
  cases q'.plan.resume s'.ctl cb fuel e calls bs with
  | none =>
    intro h h'
    rw [rel_none h, rel_none h']
    exact .none
  | some tr =>
    intro h h'
    obtain ⟨a, ha, hF⟩ := rel_some h
    obtain ⟨b, hb, hF'⟩ := rel_some h'
    rw [ha, hb]
    exact .some (sameTicks_trans_symm hF hF')

theorem delay_lt (T e : ULong m) : delay T e < half m := by
  have := le_half m
  unfold delay
  split <;> omega

theorem dueIn_lt (T : ULong m) (tv : Tv) (i : Nat) (e : ULong m) :
    dueIn T tv i e + 1 < 2 * half m := by
  have hh := le_half m
  have hd := delay_lt (T + BitVec.ofNat _ (wait T tv i)) e
  have hw := wait_lt T tv i
  have hs : tv.span ≤ 2 ^ 22 := by cases tv <;> decide
  rcases eq_or_ne tv .tv1 with rfl | htv
  · rw [dueIn_tv1]
    omega
  · rw [dueIn_of_ne htv]
    omega

/-- The ticks of a continuation without calls. -/
theorem exists_ticksOf (H : s.Holds q) (ho : s.ctl.open = true) :
    ∃ trace, s.resume quiet.toCallbacks (Plan.quietFuel m N) (fun _ => ()) []
        (Plan.quietBlocks (q.timerJiffies + BitVec.ofNat _ (q.plan.inPass s.ctl))) = some trace ∧
      ∀ t, ticksOf t trace =
        (q.status t).allTicks q.timerJiffies (q.plan.inPass s.ctl + 2 * half m) := by
  have hidle : s.ctl = .idle → ∀ t, (q.plan.entry t).status ≠ .expiring := by
    intro hi t hs
    have := (Queues.status_expiring H.realizes.sound).mp hs
    rw [Queues.Expiring, H.realizes.dead .workList (by rw [hi]; rfl)] at this
    cases this
  obtain ⟨tr, hr, ht⟩ := Plan.resume_quiet q.plan ho hidle
  have h := resume_plan H quiet (Plan.quietFuel m N) (fun _ => ()) []
    (Plan.quietBlocks (q.timerJiffies + BitVec.ofNat _ (q.plan.inPass s.ctl)))
  rw [show q.timerJiffies = q.plan.timerJiffies from rfl, hr] at h
  obtain ⟨trace, hs, hF⟩ := rel_some h
  exact ⟨trace, hs, fun t => (ticksOf_congr hF t).trans (ht t)⟩

theorem status_of_samePasses (H : s.Holds q) (H' : s'.Holds q') (hc : s.ctl = s'.ctl)
    (ho : s.ctl.open = true) (hT : q.timerJiffies = q'.timerJiffies)
    (hJ : q.jiffies = q'.jiffies) (h : SamePasses s s') (t : Fin N) : q.status t = q'.status t := by
  obtain ⟨tr, hr, ht⟩ := exists_ticksOf H ho
  obtain ⟨tr', hr', ht'⟩ := exists_ticksOf H' (hc ▸ ho)
  have hin : q'.plan.inPass s'.ctl = q.plan.inPass s.ctl := by
    unfold Plan.inPass
    rw [hc, show q'.plan.timerJiffies = q'.timerJiffies from rfl, ← hT,
      show q'.plan.jiffies = q'.jiffies from rfl, ← hJ]
    rfl
  rw [hin, ← hT] at hr' ht'
  have hF := h (Plan.quietFuel m N) (Plan.quietBlocks
    (q.timerJiffies + BitVec.ofNat _ (q.plan.inPass s.ctl))) (by simp [Plan.quietBlocks])
  rw [hr, hr'] at hF
  cases hF with
  | some hF =>
    have he := ticksOf_congr hF t
    rw [ht, ht'] at he
    have lt {q : Queues m N} {s : Sys m N} (H : s.Holds q) (d : Nat) (hd : q.status t = .due d) :
        d + 1 < 2 * half m := by
      obtain ⟨tv, i, -, rfl⟩ := (Queues.status_due H.realizes.sound).mp hd
      exact dueIn_lt _ _ _ _
    exact Status.eq_of_allTicks (by omega) (lt H) (lt H') he

section Iff

variable (H : s.Holds q) (H' : s'.Holds q') (hc : s.ctl = s'.ctl) (ho : s.ctl.open = true)
  (hT : q.timerJiffies = q'.timerJiffies) (hJ : q.jiffies = q'.jiffies)
  (he : q.expires = q'.expires)

include H H' hc hT hJ he

theorem sameOwnRuns_of_status (h : ∀ t, q.status t = q'.status t) : SameOwnRuns s s' := by
  refine sameOwnRuns_of_plan H H' hc ?_
  have : q.entry = q'.entry := by
    funext t
    unfold Queues.entry
    rw [he, h t]
  unfold Queues.plan
  rw [this, hT, hJ]

include ho

theorem sameOwnRuns_iff : SameOwnRuns s s' ↔ ∀ t, q.status t = q'.status t :=
  ⟨fun h => status_of_samePasses H H' hc ho hT hJ h.samePasses,
    sameOwnRuns_of_status H H' hc hT hJ he⟩

theorem samePasses_iff : SamePasses s s' ↔ ∀ t, q.status t = q'.status t :=
  ⟨status_of_samePasses H H' hc ho hT hJ,
    fun h => (sameOwnRuns_of_status H H' hc hT hJ he h).samePasses⟩

end Iff

end Uki
