import Uki.Timer.Threads

/-!
# Lock discipline

`lock_timer_base` is annotated to acquire `base->lock` and takes no lock. So a call
that goes on past it links and unlinks timers and then unlocks without owning the
lock, and it may free the lock the worker holds. The discipline holds in the runs
in which no thread goes past `lock_timer_base`, and in no other run in which all
calls return (`lock_discipline`).
-/

set_option linter.style.nameCheck false

namespace Uki

variable {m : LongModel} {N : Nat} {w w' : World m N} {s s' : Threads m N} {p : Thread}

/-! ## Who writes the lock -/

theorem internalAddTimer_lock {t : Fin N} (h : internalAddTimer w t = some w') :
    w'.base.lock = w.base.lock := by
  obtain ⟨k, -, h⟩ := Option.bind_eq_some_iff.mp h
  cases h
  rfl

theorem cascadeLoop_lock {fuel : Nat} {timer tmp : Node N}
    (h : cascadeLoop fuel w timer tmp = some w') : w'.base.lock = w.base.lock := by
  induction fuel generalizing w timer tmp with
  | zero => cases h
  | succ fuel ih =>
    unfold cascadeLoop at h
    cases timer with
    | head b =>
      dsimp only at h
      split at h
      · cases h
        rfl
      · cases h
    | entry t =>
      obtain ⟨w₁, hw₁, h⟩ := Option.bind_eq_some_iff.mp h
      obtain ⟨next, -, h⟩ := Option.bind_eq_some_iff.mp h
      rw [ih h, internalAddTimer_lock hw₁]

theorem cascade_lock {tv : Tv} {index i : Nat} (h : cascade w tv index = some (w', i)) :
    w'.base.lock = w.base.lock := by
  obtain ⟨k, -, h⟩ := Option.bind_eq_some_iff.mp h
  obtain ⟨timer, -, h⟩ := Option.bind_eq_some_iff.mp h
  obtain ⟨tmp, -, h⟩ := Option.bind_eq_some_iff.mp h
  obtain ⟨w₁, hw₁, h⟩ := Option.bind_eq_some_iff.mp h
  cases h
  exact (cascadeLoop_lock hw₁).trans rfl

theorem cascadeTimers_lock {index : Nat} (h : cascadeTimers w index = some w') :
    w'.base.lock = w.base.lock := by
  unfold cascadeTimers at h
  split at h
  · cases h
    rfl
  obtain ⟨⟨w₂, i⟩, h₂, h⟩ := Option.bind_eq_some_iff.mp h
  have h₂ := cascade_lock h₂
  dsimp only at h
  split at h
  · cases h
    exact h₂
  obtain ⟨⟨w₃, i⟩, h₃, h⟩ := Option.bind_eq_some_iff.mp h
  have h₃ := (cascade_lock h₃).trans h₂
  dsimp only at h
  split at h
  · cases h
    exact h₃
  obtain ⟨⟨w₄, i⟩, h₄, h⟩ := Option.bind_eq_some_iff.mp h
  have h₄ := (cascade_lock h₄).trans h₃
  dsimp only at h
  split at h
  · cases h
    exact h₄
  obtain ⟨⟨w₅, i⟩, h₅, h⟩ := Option.bind_eq_some_iff.mp h
  cases h
  exact (cascade_lock h₅).trans h₄

theorem startTick_lock (h : startTick w = some w') : w'.base.lock = w.base.lock := by
  obtain ⟨w₁, hw₁, h⟩ := Option.bind_eq_some_iff.mp h
  obtain ⟨k, -, h⟩ := Option.bind_eq_some_iff.mp h
  cases h
  have hl := cascadeTimers_lock hw₁
  exact hl

theorem detachTimer_lock {t : Fin N} {clear : Bool} (h : detachTimer w t clear = some w') :
    w'.base.lock = w.base.lock := by
  obtain ⟨prev, -, h⟩ := Option.bind_eq_some_iff.mp h
  obtain ⟨next, -, h⟩ := Option.bind_eq_some_iff.mp h
  cases h
  rfl

theorem takeTimer_lock {t : Fin N} {fn : Nat} {data : ULong m}
    (h : takeTimer w = some (w', t, fn, data)) : w'.base.lock = w.base.lock := by
  unfold takeTimer at h
  split at h
  · obtain ⟨f, -, h⟩ := Option.bind_eq_some_iff.mp h
    obtain ⟨w₁, hw₁, h⟩ := Option.bind_eq_some_iff.mp h
    cases h
    exact detachTimer_lock hw₁
  · cases h

theorem forgetNextTimer_lock (w : World m N) (t : Fin N) :
    (forgetNextTimer w t).base.lock = w.base.lock := by
  unfold forgetNextTimer
  split <;> rfl

theorem enqueueTimer_lock {t : Fin N} {e : ULong m} (h : enqueueTimer w t e = some w') :
    w'.base.lock = w.base.lock := by
  obtain ⟨w₁, hw₁, h⟩ := Option.bind_eq_some_iff.mp h
  have hl := internalAddTimer_lock hw₁
  dsimp only at h
  split at h <;> cases h <;> exact hl

theorem Call.enter_lock {c : Call m N} {r : Nat ⊕ Section m N} (h : c.enter w = some (w', r)) :
    w'.base.lock = w.base.lock := by
  have check {w : World m N} {t : Fin N} {e : ULong m}
      (h : enterModTimer w t e = some (w', r)) : w'.base.lock = w.base.lock := by
    unfold enterModTimer at h
    split at h
    · cases h
      rfl
    · obtain ⟨f, -, h⟩ := Option.bind_eq_some_iff.mp h
      cases h
      rfl
  cases c with
  | addTimer t e =>
    simp only [Call.enter] at h
    split at h
    · cases h
    · exact (check h).trans rfl
  | modTimer t e => exact check h
  | modTimerPending t e =>
    obtain ⟨f, -, h⟩ := Option.bind_eq_some_iff.mp h
    cases h
    rfl
  | delTimer t =>
    simp only [Call.enter] at h
    split at h <;> cases h <;> rfl

theorem Section.exec_lock {x : Section m N} {r : Nat} {touched : Bool}
    (h : x.exec w = some (w', r, touched)) : w'.base.lock = w.base.lock := by
  cases x with
  | mod t e pendingOnly =>
    simp only [Section.exec] at h
    split at h
    · obtain ⟨w₁, hw₁, h⟩ := Option.bind_eq_some_iff.mp h
      obtain ⟨w₂, hw₂, h⟩ := Option.bind_eq_some_iff.mp h
      cases h
      rw [enqueueTimer_lock hw₂, forgetNextTimer_lock, detachTimer_lock hw₁]
    · split at h
      · cases h
        rfl
      · obtain ⟨w₁, hw₁, h⟩ := Option.bind_eq_some_iff.mp h
        cases h
        exact enqueueTimer_lock hw₁
  | del t =>
    simp only [Section.exec] at h
    split at h
    · obtain ⟨w₁, hw₁, h⟩ := Option.bind_eq_some_iff.mp h
      cases h
      rw [forgetNextTimer_lock, detachTimer_lock hw₁]
    · cases h
      rfl

/-! ## Owners -/

/-- The worker is between `spin_lock_irq` and `spin_unlock_irq`. -/
def WorkerPc.holds : WorkerPc m N → Bool
  | outer | inner | releasing | leaving => true
  | idle | entering | callback _ => false

/-- The lock is unlocked by its owner, and timers are linked and unlinked by the
owner of the lock. -/
def LockEvent.Disciplined : LockEvent → Prop
  | acquire _ => True
  | release p owner | touch p owner => owner = some p

instance (e : LockEvent) : Decidable e.Disciplined :=
  match e with
  | .acquire _ => isTrue trivial
  | .release p owner | .touch p owner => inferInstanceAs (Decidable (owner = some p))

namespace Threads

/-- Nobody but the worker takes the lock. -/
def Owned (s : Threads m N) : Prop :=
  s.world.base.lock = none ∨ (s.world.base.lock = some .worker ∧ s.worker.holds = true)

theorem pc_worker (h : s.worker.holds = true) : s.pc .worker = none := by
  unfold pc
  cases hw : s.worker <;> simp_all [WorkerPc.holds]

/-- A thread that is in a call does not own the lock. -/
theorem Owned.lock_ne (O : s.Owned) {pc : Pc m N} (hp : s.pc p = some pc) :
    s.world.base.lock ≠ some p := by
  rcases O with h | ⟨h, hw⟩
  · rw [h]
    simp
  · rw [h]
    intro he
    cases he
    rw [pc_worker hw] at hp
    cases hp

end Threads

/-- The steps of a call do not take the lock. -/
theorem Pc.step_lock {pc : Pc m N} {call : Option (Pc m N)} {ev : List LockEvent}
    (h : pc.step w p = some (w', call, ev)) :
    w'.base.lock = w.base.lock ∨ w'.base.lock = none := by
  cases pc with
  | enter c =>
    obtain ⟨⟨w₁, r⟩, hw₁, h⟩ := Option.bind_eq_some_iff.mp h
    cases r <;> cases h <;> exact .inl (Call.enter_lock hw₁)
  | lock x =>
    cases h
    exact .inl rfl
  | body x =>
    obtain ⟨⟨w₁, r, touched⟩, hw₁, h⟩ := Option.bind_eq_some_iff.mp h
    cases h
    exact .inl (Section.exec_lock hw₁)
  | unlock r =>
    cases h
    exact .inr rfl

namespace Threads

@[simp] theorem world_setPc (s : Threads m N) (p : Thread) (call : Option (Pc m N)) :
    (s.setPc p call).world = s.world := by
  cases p <;> rfl

@[simp] theorem pc_setPc_self (s : Threads m N) (p : Thread) (call : Option (Pc m N)) :
    (s.setPc p call).pc p = call := by
  cases p <;> simp [setPc, pc]

theorem pc_setPc_of_ne {p' : Thread} (h : p' ≠ p) (s : Threads m N) (call : Option (Pc m N)) :
    (s.setPc p call).pc p' = s.pc p' := by
  cases p with
  | worker =>
    cases p' with
    | worker => exact absurd rfl h
    | client n => rfl
  | client n =>
    cases p' with
    | worker => rfl
    | client n' =>
      have hn : n' ≠ n := fun he => h (he ▸ rfl)
      simp [setPc, pc, hn]

/-- What a step can do. -/
inductive StepCase (s : Threads m N) : ThreadAct m N → Threads m N → List LockEvent → Prop where
  | wake (j : ULong m) (h : s.worker = .idle) :
      StepCase s (.wake j) { s with world := { s.world with jiffies := j }, worker := .entering } []
  | start {p : Thread} (c : Call m N) (h : s.ready p = true) :
      StepCase s (.start p c) (s.setPc p (some (.enter c))) []
  | call {p : Thread} {pc : Pc m N} {w : World m N} {call : Option (Pc m N)} {ev : List LockEvent}
      (hp : s.pc p = some pc) (h : pc.step s.world p = some (w, call, ev)) :
      StepCase s (.go p) { s.setPc p call with world := w } ev
  | worker {s' : Threads m N} {ev : List LockEvent} (hp : s.pc .worker = none)
      (h : s.workerStep = some (s', ev)) : StepCase s (.go .worker) s' ev

theorem step_cases {a : ThreadAct m N} {ev : List LockEvent} (h : s.step a = some (s', ev)) :
    s.StepCase a s' ev := by
  cases a with
  | wake j =>
    simp only [step, Option.ite_none_right_eq_some] at h
    obtain ⟨hw, h⟩ := h
    cases h
    exact .wake j hw
  | start p c =>
    simp only [step, Option.ite_none_right_eq_some] at h
    obtain ⟨hw, h⟩ := h
    cases h
    exact .start c hw
  | go p =>
    simp only [step] at h
    cases hp : s.pc p with
    | some pc =>
      rw [hp] at h
      obtain ⟨⟨w, call, ev⟩, hw, h⟩ := Option.bind_eq_some_iff.mp h
      cases h
      exact .call hp hw
    | none =>
      rw [hp] at h
      cases p with
      | client n => cases h
      | worker => exact .worker hp h

/-- The worker makes calls from callbacks only. -/
theorem holds_of_pc {pc : Pc m N} (h : s.pc .worker = some pc) : s.worker.holds = false := by
  cases hh : s.worker.holds with
  | false => rfl
  | true =>
    rw [pc_worker hh] at h
    cases h

theorem holds_setPc (h : p = .worker → s.worker.holds = false) (call : Option (Pc m N)) :
    (s.setPc p call).worker.holds = s.worker.holds := by
  cases p with
  | worker => exact (h rfl).symm
  | client n => rfl

theorem holds_of_ready (h : s.ready p = true) (hp : p = .worker) : s.worker.holds = false := by
  subst hp
  have hw : s.worker = .callback none := by simpa [ready] using h
  rw [hw]
  rfl

/-- What a step of the worker does to the lock. -/
inductive WorkerCase (s s' : Threads m N) : List LockEvent → Prop where
  | acquire (hf : s.world.base.lock = none) (hh : s.worker.holds = false)
      (hl : s'.world.base.lock = some .worker) (hh' : s'.worker.holds = true) :
      WorkerCase s s' [.acquire .worker]
  | keep {ev : List LockEvent} (hh : s.worker.holds = true)
      (hl : s'.world.base.lock = s.world.base.lock) (hh' : s'.worker.holds = true)
      (hev : ∀ e ∈ ev, e = .touch .worker s.world.base.lock) : WorkerCase s s' ev
  | release (hh : s.worker.holds = true) (hl : s'.world.base.lock = none)
      (hh' : s'.worker.holds = false) : WorkerCase s s' [.release .worker s.world.base.lock]

theorem spinLock_eq_some (h : spinLock w p = some w') :
    w.base.lock = none ∧ w'.base.lock = some p := by
  unfold spinLock at h
  split at h
  · cases h
    exact ⟨‹_›, rfl⟩
  · cases h

theorem worker_cases {ev : List LockEvent} (h : s.workerStep = some (s', ev)) :
    s.WorkerCase s' ev ∧ s'.client = s.client ∧ s'.pc .worker = none := by
  unfold workerStep at h
  cases hw : s.worker with
  | idle =>
    rw [hw] at h
    cases h
  | entering =>
    rw [hw] at h
    obtain ⟨w, hs, h⟩ := Option.bind_eq_some_iff.mp h
    cases h
    obtain ⟨hf, hl⟩ := spinLock_eq_some hs
    exact ⟨.acquire hf (by rw [hw]; rfl) hl rfl, rfl, rfl⟩
  | outer =>
    rw [hw] at h
    dsimp only at h
    split at h
    · obtain ⟨w, hs, h⟩ := Option.bind_eq_some_iff.mp h
      cases h
      exact ⟨.keep (by rw [hw]; rfl) (startTick_lock hs) rfl (by simp), rfl, rfl⟩
    · cases h
      exact ⟨.keep (by rw [hw]; rfl) rfl rfl (by simp), rfl, rfl⟩
  | inner =>
    rw [hw] at h
    dsimp only at h
    split at h
    · cases h
      exact ⟨.keep (by rw [hw]; rfl) rfl rfl (by simp), rfl, rfl⟩
    · obtain ⟨⟨w, t, fn, data⟩, hs, h⟩ := Option.bind_eq_some_iff.mp h
      cases h
      exact ⟨.keep (by rw [hw]; rfl) (takeTimer_lock hs) rfl (by simp), rfl, rfl⟩
  | releasing =>
    rw [hw] at h
    cases h
    exact ⟨.release (by rw [hw]; rfl) rfl rfl, rfl, rfl⟩
  | callback call =>
    rw [hw] at h
    obtain ⟨w, hs, h⟩ := Option.bind_eq_some_iff.mp h
    cases h
    obtain ⟨hf, hl⟩ := spinLock_eq_some hs
    exact ⟨.acquire hf (by rw [hw]; rfl) hl rfl, rfl, rfl⟩
  | leaving =>
    rw [hw] at h
    cases h
    exact ⟨.release (by rw [hw]; rfl) rfl rfl, rfl, rfl⟩

theorem Owned.step {a : ThreadAct m N} {ev : List LockEvent} (O : s.Owned)
    (h : s.step a = some (s', ev)) : s'.Owned := by
  have free (hw : s.worker.holds = false) : s.world.base.lock = none := by
    rcases O with hl | ⟨-, hh⟩
    · exact hl
    · rw [hw] at hh
      cases hh
  cases step_cases h with
  | wake j hw => exact .inl (free (by rw [hw]; rfl))
  | start c hr =>
    unfold Owned
    rwa [world_setPc, holds_setPc (holds_of_ready hr)]
  | @call p pc w call ev hp hs =>
    have hh : (s.setPc p call).worker.holds = s.worker.holds := by
      refine holds_setPc ?_ call
      rintro rfl
      exact holds_of_pc hp
    rcases Pc.step_lock hs with hl | hl
    · rcases O with ho | ⟨ho, hw⟩
      · exact .inl (hl.trans ho)
      · exact .inr ⟨hl.trans ho, hh.trans hw⟩
    · exact .inl hl
  | worker hp hs =>
    cases (worker_cases hs).1 with
    | acquire _ _ hl hh => exact .inr ⟨hl, hh⟩
    | keep hh hl hh' _ =>
      rcases O with ho | ⟨ho, -⟩
      · exact .inl (hl.trans ho)
      · exact .inr ⟨hl.trans ho, hh'⟩
    | release _ hl _ => exact .inl hl

/-! ## Runs in which no thread goes past `lock_timer_base` -/

/-- The thread is past `lock_timer_base`. -/
def Past (s : Threads m N) (p : Thread) : Prop :=
  (∃ x, s.pc p = some (.body x)) ∨ ∃ r, s.pc p = some (.unlock r)

/-- The worker holds the lock when it should, and no call is past
`lock_timer_base`. -/
structure Safe (s : Threads m N) : Prop where
  lock : s.world.base.lock = if s.worker.holds then some .worker else none
  calls : ∀ p, ¬ s.Past p

/-- The step does not take a thread past `lock_timer_base`. -/
def StopsAtLock (s : Threads m N) (a : ThreadAct m N) : Prop :=
  ∀ p x, a = .go p → s.pc p ≠ some (.lock x)

instance (s : Threads m N) : (a : ThreadAct m N) → Decidable (s.StopsAtLock a)
  | .wake _ | .start _ _ => isTrue fun _ _ ha => by cases ha
  | .go p =>
    match hp : s.pc p with
    | some (.lock x) => isFalse fun h => h p x rfl hp
    | none | some (.enter _) | some (.body _) | some (.unlock _) =>
      isTrue fun _ _ ha => by
        cases ha
        simp [hp]

theorem not_past_of_pc_none (h : s.pc p = none) : ¬ s.Past p := by
  rintro (⟨x, hx⟩ | ⟨r, hr⟩)
  · rw [h] at hx
    cases hx
  · rw [h] at hr
    cases hr

/-- A thread that moves on in a call stays out of the section when it was not at
`lock_timer_base`. -/
theorem Safe.pcStep {pc : Pc m N} {call : Option (Pc m N)} {ev : List LockEvent}
    (S : s.Safe) (ha : s.StopsAtLock (.go p)) (hp : s.pc p = some pc)
    (h : pc.step s.world p = some (w', call, ev)) :
    w'.base.lock = s.world.base.lock ∧ ev = [] ∧ (call = none ∨ ∃ x, call = some (.lock x)) := by
  cases pc with
  | enter c =>
    obtain ⟨⟨w₁, r⟩, hw₁, h⟩ := Option.bind_eq_some_iff.mp h
    have hl := Call.enter_lock hw₁
    cases r with
    | inl r =>
      cases h
      exact ⟨hl, rfl, .inl rfl⟩
    | inr x =>
      cases h
      exact ⟨hl, rfl, .inr ⟨x, rfl⟩⟩
  | lock x => exact absurd hp (ha p x rfl)
  | body x => exact absurd (.inl ⟨x, hp⟩) (S.calls p)
  | unlock r => exact absurd (.inr ⟨r, hp⟩) (S.calls p)

theorem Safe.setPc (call : Option (Pc m N)) (S : s.Safe) (hl : w.base.lock = s.world.base.lock)
    (hp : p = .worker → s.worker.holds = false)
    (hb : ∀ x, call ≠ some (.body x)) (hu : ∀ r, call ≠ some (.unlock r)) :
    Safe { s.setPc p call with world := w } := by
  constructor
  · have hh := holds_setPc hp call
    rw [S.lock] at hl
    simpa only [hh] using hl
  · intro p'
    have hpc : Threads.pc { s.setPc p call with world := w } p' = (s.setPc p call).pc p' := by
      cases p' <;> rfl
    unfold Past
    rw [hpc]
    rcases eq_or_ne p' p with rfl | he
    · rw [pc_setPc_self]
      rintro (⟨x, hx⟩ | ⟨r, hr⟩)
      · exact hb x hx
      · exact hu r hr
    · rw [pc_setPc_of_ne he]
      exact S.calls p'

theorem Safe.step {a : ThreadAct m N} {ev : List LockEvent} (S : s.Safe) (ha : s.StopsAtLock a)
    (h : s.step a = some (s', ev)) : s'.Safe ∧ ∀ e ∈ ev, e.Disciplined := by
  cases step_cases h with
  | wake j hw =>
    have hl := S.lock
    rw [hw] at hl
    refine ⟨⟨hl, fun p => ?_⟩, by simp⟩
    cases p with
    | worker => exact not_past_of_pc_none rfl
    | client n => exact S.calls (.client n)
  | @start p c hr =>
    refine ⟨?_, by simp⟩
    have hs := S.setPc (w := s.world) (some (.enter c)) rfl (holds_of_ready hr) (by simp) (by simp)
    rwa [← world_setPc s p (some (.enter c))] at hs
  | @call p pc w call ev hp hs =>
    obtain ⟨hl, rfl, hc⟩ := S.pcStep ha hp hs
    have hw : p = .worker → s.worker.holds = false := by
      rintro rfl
      exact holds_of_pc hp
    refine ⟨S.setPc call hl hw ?_ ?_, by simp⟩
    · rcases hc with rfl | ⟨x, rfl⟩ <;> simp
    · rcases hc with rfl | ⟨x, rfl⟩ <;> simp
  | worker hp hs =>
    obtain ⟨hc, hcl, hpc⟩ := worker_cases hs
    have hcalls : ∀ p, ¬ s'.Past p := by
      intro p
      cases p with
      | worker => exact not_past_of_pc_none hpc
      | client n =>
        have he : s'.pc (.client n) = s.pc (.client n) := congrFun hcl n
        unfold Past
        rw [he]
        exact S.calls (.client n)
    have hl := S.lock
    cases hc with
    | acquire _ _ hl' hh' => exact ⟨⟨by rw [hl', hh']; rfl, hcalls⟩, by simp [LockEvent.Disciplined]⟩
    | keep hh hl' hh' hev =>
      rw [hh] at hl
      refine ⟨⟨by rw [hl', hh', hl], hcalls⟩, fun e he => ?_⟩
      rw [hev e he]
      exact hl
    | release hh hl' hh' =>
      rw [hh] at hl
      refine ⟨⟨by rw [hl', hh']; rfl, hcalls⟩, ?_⟩
      simpa [LockEvent.Disciplined] using hl

/-! ## A call that goes on past `lock_timer_base` -/

/-- A call stays where it is until its own thread moves. -/
theorem pc_of_step {a : ThreadAct m N} {ev : List LockEvent} {pc : Pc m N}
    (hp : s.pc p = some pc) (h : s.step a = some (s', ev)) :
    s'.pc p = some pc ∨ ∃ w call, pc.step s.world p = some (w, call, ev) ∧ s'.pc p = call := by
  cases step_cases h with
  | wake j hw =>
    cases p with
    | worker =>
      simp only [Threads.pc, hw] at hp
      cases hp
    | client n => exact .inl hp
  | @start p' c hr =>
    have hne : p ≠ p' := by
      rintro rfl
      cases p with
      | worker =>
        have hw : s.worker = .callback none := by simpa [ready] using hr
        simp only [Threads.pc, hw] at hp
        cases hp
      | client n =>
        have hw : s.client n = none := by simpa [ready] using hr
        simp only [Threads.pc, hw] at hp
        cases hp
    rw [pc_setPc_of_ne hne]
    exact .inl hp
  | @call p' pc' w call ev hp' hs =>
    have hpc : Threads.pc { s.setPc p' call with world := w } p = (s.setPc p' call).pc p := by
      cases p <;> rfl
    rw [hpc]
    rcases eq_or_ne p p' with rfl | he
    · rw [hp] at hp'
      cases hp'
      exact .inr ⟨w, call, hs, pc_setPc_self s p call⟩
    · rw [pc_setPc_of_ne he]
      exact .inl hp
  | worker hn hs =>
    obtain ⟨-, hcl, -⟩ := worker_cases hs
    cases p with
    | worker =>
      rw [hn] at hp
      cases hp
    | client n => exact .inl ((congrFun hcl n).trans hp)

/-- Past `lock_timer_base` a call can only end by unlocking a lock it does not own. -/
theorem Owned.past_step {a : ThreadAct m N} {ev : List LockEvent} (O : s.Owned) (hp : s.Past p)
    (h : s.step a = some (s', ev)) : (∃ e ∈ ev, ¬ e.Disciplined) ∨ s'.Past p := by
  rcases hp with ⟨x, hx⟩ | ⟨r, hr⟩
  · rcases pc_of_step hx h with h' | ⟨w, call, hs, h'⟩
    · exact .inr (.inl ⟨x, h'⟩)
    · obtain ⟨⟨w₁, r, touched⟩, -, hs⟩ := Option.bind_eq_some_iff.mp hs
      cases hs
      exact .inr (.inr ⟨r, h'⟩)
  · rcases pc_of_step hr h with h' | ⟨w, call, hs, -⟩
    · exact .inr (.inr ⟨r, h'⟩)
    · cases hs
      exact .inl ⟨_, List.mem_singleton_self _, O.lock_ne hr⟩

variable {memory : Heap (Node N)} {setup : Fin N → TimerSetup m} {jiffies : ULong m}

theorem safe_boot : (bootThreads memory setup jiffies).Safe := by
  refine ⟨rfl, fun p => ?_⟩
  cases p <;> exact not_past_of_pc_none rfl

theorem Safe.owned (S : s.Safe) : s.Owned := by
  have hl := S.lock
  split at hl
  · exact .inr ⟨hl, ‹_›⟩
  · exact .inl hl

theorem Safe.run {as : List (ThreadAct m N)} {ev : List LockEvent} (S : s.Safe)
    (hC : (threads m N).Meets StopsAtLock s as) (h : (threads m N).run s as = some (s', ev)) :
    s'.Safe ∧ ∀ e ∈ ev, e.Disciplined := by
  have h0 : s.Safe ∧ ∀ e ∈ ([] : List LockEvent), e.Disciplined := ⟨S, by simp⟩
  refine Machine.run_induction_meets
    (P := fun s ev => s.Safe ∧ ∀ e ∈ ev, e.Disciplined) (Q := fun _ => True) h hC
    (fun _ _ => trivial) h0 ?_
  rintro t fs a t' es hC - ⟨St, hfs⟩ hs
  obtain ⟨St', hes⟩ := St.step hC hs
  refine ⟨St', fun e he => ?_⟩
  rcases List.mem_append.mp he with he | he
  · exact hfs e he
  · exact hes e he

theorem Owned.past_run {as : List (ThreadAct m N)} {ev : List LockEvent} (O : s.Owned)
    (hp : s.Past p) (h : (threads m N).run s as = some (s', ev)) :
    (∃ e ∈ ev, ¬ e.Disciplined) ∨ s'.Past p := by
  refine (Machine.run_induction
    (P := fun s ev => s.Owned ∧ ((∃ e ∈ ev, ¬ e.Disciplined) ∨ s.Past p)) (Q := fun _ => True) h
    (fun _ _ => trivial) ⟨O, .inr hp⟩ ?_).2
  rintro t es a t' es' - ⟨Ot, hes | ht⟩ hs
  · obtain ⟨e, he, hd⟩ := hes
    exact ⟨Ot.step hs, .inl ⟨e, List.mem_append_left _ he, hd⟩⟩
  · refine ⟨Ot.step hs, (Ot.past_step ht hs).imp ?_ id⟩
    rintro ⟨e, he, hd⟩
    exact ⟨e, List.mem_append_right _ he, hd⟩

theorem Owned.run {as : List (ThreadAct m N)} {ev : List LockEvent} (O : s.Owned)
    (h : (threads m N).run s as = some (s', ev)) : s'.Owned :=
  Machine.run_induction (P := fun s _ => s.Owned) (Q := fun _ => True) h (fun _ _ => trivial) O
    fun _ _ _ _ _ _ Ot hs => Ot.step hs

/-- When all calls have returned and every event was disciplined, no thread went past
`lock_timer_base`. -/
theorem Owned.meets {as : List (ThreadAct m N)} {ev : List LockEvent} (O : s.Owned)
    (h : (threads m N).run s as = some (s', ev)) (hret : ∀ p, s'.pc p = none)
    (hev : ∀ e ∈ ev, e.Disciplined) : (threads m N).Meets StopsAtLock s as := by
  refine Machine.meets_of_run fun bs a cs t es has hr p x ha hp => ?_
  subst has ha
  obtain ⟨t₁, es₁, es₂, hr₁, hr₂, rfl⟩ := Machine.run_append.mp h
  rw [hr] at hr₁
  cases hr₁
  obtain ⟨t', es₃, es₄, hs, hr', rfl⟩ := Machine.run_cons.mp hr₂
  have Ot := O.run hr
  have hs : t.step (.go p) = some (t', es₃) := hs
  have hpast : t'.Past p := by
    have hs' := hs
    unfold Threads.step at hs'
    simp only [hp] at hs'
    cases hs'
    refine .inl ⟨x, ?_⟩
    have hpc := pc_setPc_self t p (some (Pc.body x))
    cases p <;> exact hpc
  have Ot' : t'.Owned := Ot.step hs
  rcases Ot'.past_run hpast hr' with ⟨e, he, hd⟩ | hpast'
  · exact hd (hev e (by simp [he]))
  · exact not_past_of_pc_none (hret p) hpast'

end Threads

open Threads

/-- A run keeps to the lock discipline when no thread goes past `lock_timer_base`, and
once all calls have returned only then. -/
theorem lock_discipline {memory : Heap (Node N)} {setup : Fin N → TimerSetup m} {jiffies : ULong m}
    {as : List (ThreadAct m N)} {s : Threads m N} {ev : List LockEvent}
    (h : (threads m N).run (bootThreads memory setup jiffies) as = some (s, ev)) :
    ((threads m N).Meets StopsAtLock (bootThreads memory setup jiffies) as →
      ∀ e ∈ ev, e.Disciplined) ∧
    ((∀ p, s.pc p = none) →
      ((∀ e ∈ ev, e.Disciplined) ↔
        (threads m N).Meets StopsAtLock (bootThreads memory setup jiffies) as)) := by
  have safe (hC : (threads m N).Meets StopsAtLock (bootThreads memory setup jiffies) as) :
      ∀ e ∈ ev, e.Disciplined := (safe_boot.run hC h).2
  exact ⟨safe, fun hret => ⟨safe_boot.owned.meets h hret, safe⟩⟩

/-- A pass over one tick, in which a client deletes a timer that is not pending. -/
theorem lock_discipline_test1 :
    ∃ s ev, (threads .long32 1).run
        (bootThreads (fun _ => ⟨.null, .null⟩) (fun _ => ⟨0, 1, 2⟩) 0)
        [.wake 0, .go .worker, .go .worker, .start (.client 0) (.delTimer 0), .go .worker,
          .go (.client 0), .go .worker, .go .worker] = some (s, ev) ∧
      ev.length = 3 ∧ ∀ e ∈ ev, e.Disciplined := by
  let s₀ : Threads .long32 1 := bootThreads (fun _ => ⟨.null, .null⟩) (fun _ => ⟨0, 1, 2⟩) 0
  let as : List (ThreadAct .long32 1) := [.wake 0, .go .worker, .go .worker,
    .start (.client 0) (.delTimer 0), .go .worker, .go (.client 0), .go .worker, .go .worker]
  have h : ((threads .long32 1).run s₀ as).map (·.2.length) = some 3 := by
    decide +kernel
  have hC : (threads .long32 1).Meets StopsAtLock s₀ as := by
    decide +kernel
  obtain ⟨⟨s, ev⟩, h, hev⟩ := Option.map_eq_some_iff.mp h
  exact ⟨s, ev, h, hev, (lock_discipline h).1 hC⟩

/-- A client arms a timer while the worker holds the lock. It links the timer without
the lock and then frees the lock of the worker. -/
theorem lock_discipline_counterexample :
    ¬ ∀ (as : List (ThreadAct .long32 1)) (s : Threads .long32 1) (ev : List LockEvent),
      (threads .long32 1).run (bootThreads (fun _ => ⟨.null, .null⟩) (fun _ => ⟨0, 1, 2⟩) 0) as =
        some (s, ev) → ∀ e ∈ ev, e.Disciplined := by
  intro hall
  have h : ((threads .long32 1).run
      (bootThreads (fun _ => ⟨.null, .null⟩) (fun _ => ⟨0, 1, 2⟩) 0)
      [.wake 0, .go .worker, .start (.client 0) (.addTimer 0 5), .go (.client 0), .go (.client 0),
        .go (.client 0), .go (.client 0)]).map (·.2) =
      some [.acquire .worker, .touch (.client 0) (some .worker),
        .release (.client 0) (some .worker)] := by
    decide +kernel
  obtain ⟨⟨s, ev⟩, h, rfl⟩ := Option.map_eq_some_iff.mp h
  have hd : (LockEvent.release (.client 0) (some .worker)).Disciplined :=
    hall _ s _ h _ (by simp)
  exact absurd hd (by decide)

end Uki
