import Uki.Timer.Resume

/-!
# Programs on the interface

A program calls the operations of `timer.c`, and reads which timers are pending,
their expiries and the clocks. Its callbacks may call any operation on any timer,
and remember what they saw. They cannot see how the timers are spread over the
buckets, except by the ticks at which their callbacks are run and by the order of
these in a tick.

`Bisim` are the conditions under which a relation on queues hides the difference
between two wheels from every program (`resume_bisim`).
-/

set_option linter.style.nameCheck false

namespace Uki

variable {m : LongModel} {N : Nat} {σ : Type} {q q' : Queues m N} {s s' : Sys m N}
  {w w' : World m N} {t : Fin N}

/-- What a program reads of the wheel. -/
structure View (m : LongModel) (N : Nat) where
  pending : Fin N → Bool
  expires : Fin N → ULong m
  jiffies : ULong m
  timerJiffies : ULong m

def World.view (w : World m N) : View m N :=
  ⟨timerPending w, fun t => (w.timer t).expires, w.jiffies, w.base.timerJiffies⟩

/-- The callbacks of a program: what the callback of a timer calls, given the state
of the program and what it reads when it starts. -/
abbrev Program (σ : Type) (m : LongModel) (N : Nat) : Type :=
  σ → View m N → Fin N → σ × List (Call m N)

def Program.callbacks (cb : Program σ m N) : Callbacks σ m N := fun e w t => cb e w.view t

/-- In every continuation, whatever the callbacks call, the same timers run at the same
ticks. -/
def SameRuns (s s' : Sys m N) : Prop :=
  ∀ (σ : Type) (cb : Program σ m N) (fuel : Nat) (e : σ) (calls : List (Call m N))
    (bs : List (Block m N)), Option.Rel (List.Forall₂ SameTick)
      (s.resume cb.callbacks fuel e calls bs) (s'.resume cb.callbacks fuel e calls bs)

/-- Callbacks that keep to their own timer are a program. -/
theorem SameRuns.sameOwnRuns (h : SameRuns s s') : SameOwnRuns s s' := by
  intro τ cb fuel e calls bs
  exact h (Fin N → τ) (fun e v t =>
    let r := cb.act t (e t) v.jiffies v.timerJiffies (v.expires t)
    (Function.update e t r.1, r.2)) fuel e calls bs

/-! ## Relations that programs cannot look behind -/

/-- Related queues look the same, have the same work list, and are related after
every step. -/
structure Bisim (R : Queues m N → Queues m N → Prop) : Prop where
  expires : ∀ {q q'}, R q q' → q.expires = q'.expires
  jiffies : ∀ {q q'}, R q q' → q.jiffies = q'.jiffies
  timerJiffies : ∀ {q q'}, R q q' → q.timerJiffies = q'.timerJiffies
  pending : ∀ {q q' b}, R q q' → q.Sound b → q'.Sound b → ∀ t, q.Pending t ↔ q'.Pending t
  workList : ∀ {q q' b}, R q q' → q.Sound b → q'.Sound b → q.list .workList = q'.list .workList
  setLock : ∀ {q q'} l, R q q' → R { q with lock := l } { q' with lock := l }
  setJiffies : ∀ {q q'} j, R q q' → R { q with jiffies := j } { q' with jiffies := j }
  exec : ∀ {q q' b c}, R q q' → q.Allows c → q'.Allows c → q.Sound b → q'.Sound b →
    (q.exec c).1.Sound b → (q'.exec c).1.Sound b → R (q.exec c).1 (q'.exec c).1
  startTick : ∀ {q q'}, R q q' → q.Sound false → q'.Sound false →
    q.startTick.Sound true → q'.startTick.Sound true → R q.startTick q'.startTick
  takeTimer : ∀ {q q' t ts}, R q q' → q.list .workList = t :: ts → q'.list .workList = t :: ts →
    q.Sound true → q'.Sound true → q.takeTimer.Sound true → q'.takeTimer.Sound true →
    R q.takeTimer q'.takeTimer

/-- Two memories that realize related queues. -/
structure Related (R : Queues m N → Queues m N → Prop) (working : Bool) (lock : Option Thread)
    (w w' : World m N) (q q' : Queues m N) : Prop where
  left : Realizes working [] w q
  right : Realizes working [] w' q'
  lock_left : q.lock = lock
  lock_right : q'.lock = lock
  rel : R q q'

namespace Related

variable {R : Queues m N → Queues m N → Prop} {working : Bool} {lock : Option Thread}

theorem view (M : Related R working lock w w' q q') (B : Bisim R) : w.view = w'.view := by
  have hp : timerPending w = timerPending w' := by
    funext t
    rw [Bool.eq_iff_iff, M.left.timerPending_iff, M.right.timerPending_iff]
    exact B.pending M.rel M.left.sound M.right.sound t
  have hx : (fun t => (w.timer t).expires) = fun t => (w'.timer t).expires := by
    funext t
    rw [M.left.expires, M.right.expires, B.expires M.rel]
  simp only [World.view, hp, hx, M.left.jiffies, M.right.jiffies, M.left.timerJiffies,
    M.right.timerJiffies, B.jiffies M.rel, B.timerJiffies M.rel]

theorem workList (M : Related R working lock w w' q q') (B : Bisim R) :
    q.list .workList = q'.list .workList := B.workList M.rel M.left.sound M.right.sound

/-- The worker takes the free lock. -/
theorem locked (M : Related R working none w w' q q') (B : Bisim R) :
    ∃ v v', spinLock w .worker = some v ∧ spinLock w' .worker = some v' ∧
      Related R working (some .worker) v v' { q with lock := some .worker }
        { q' with lock := some .worker } := by
  have hl : w.base.lock = none := M.left.lock.trans M.lock_left
  have hl' : w'.base.lock = none := M.right.lock.trans M.lock_right
  exact ⟨_, _, by rw [spinLock, hl], by rw [spinLock, hl'],
    Sys.Holds.realizes_locked M.left, Sys.Holds.realizes_locked M.right, rfl, rfl,
    B.setLock _ M.rel⟩

theorem unlocked (M : Related R working lock w w' q q') (B : Bisim R) :
    Related R working none (spinUnlock w) (spinUnlock w') q.unlock q'.unlock :=
  ⟨M.left.spinUnlock, M.right.spinUnlock, rfl, rfl, B.setLock none M.rel⟩

end Related

section Runs

variable {R : Queues m N → Queues m N → Prop} {working : Bool} (B : Bisim R)

include B

theorem exec_bisim (M : Related R working none w w' q q') (c : Call m N) :
    Option.Rel (fun (r r' : World m N × Nat) => ∃ q q', Related R working none r.1 r'.1 q q')
      (c.exec w) (c.exec w') := by
  have hallows : q.Allows c ↔ q'.Allows c := by
    cases c with
    | addTimer t e => exact not_congr (B.pending M.rel M.left.sound M.right.sound t)
    | modTimer | modTimerPending | delTimer => exact Iff.rfl
  by_cases hc : q.Allows c
  · obtain ⟨w₁, hw₁, R₁⟩ := exec_spec M.left hc
    obtain ⟨w₂, hw₂, R₂⟩ := exec_spec M.right (hallows.mp hc)
    rw [hw₁, hw₂]
    exact .some ⟨_, _, R₁, R₂, Sys.Holds.exec_lock c M.lock_left,
      Sys.Holds.exec_lock c M.lock_right,
      B.exec M.rel hc (hallows.mp hc) M.left.sound M.right.sound R₁.sound R₂.sound⟩
  · rw [exec_eq_none M.left hc, exec_eq_none M.right (hallows.not.mp hc)]
    exact .none

theorem execCalls_bisim (M : Related R working none w w' q q') (cs : List (Call m N)) :
    Option.Rel (fun w w' => ∃ q q', Related R working none w w' q q')
      (execCalls w cs) (execCalls w' cs) := by
  induction cs generalizing w w' q q' with
  | nil => exact .some ⟨q, q', M⟩
  | cons c cs ih =>
    refine rel_bind (exec_bisim B M c) ?_
    rintro ⟨w₁, r⟩ ⟨w₂, r'⟩ ⟨q₁, q₂, M₁⟩
    exact ih M₁

theorem runWorkList_bisim (cb : Program σ m N) (fuel : Nat) (e : σ)
    (M : Related R true (some .worker) w w' q q') :
    Option.Rel (fun r r' => r.1 = r'.1 ∧ r.2.2 = r'.2.2 ∧
        ∃ q q', Related R false (some .worker) r.2.1 r'.2.1 q q')
      (runWorkList cb.callbacks fuel e w) (runWorkList cb.callbacks fuel e w') := by
  induction fuel generalizing e w w' q q' with
  | zero => exact .none
  | succ fuel ih =>
    have hw := M.workList B
    cases hl : q.list .workList with
    | nil =>
      have hl' : q'.list .workList = [] := hw ▸ hl
      simp only [runWorkList, (listEmpty_workList M.left).mpr hl,
        (listEmpty_workList M.right).mpr hl', if_true]
      exact .some ⟨rfl, rfl, q, q', M.left.forget hl, M.right.forget hl', M.lock_left,
        M.lock_right, M.rel⟩
    | cons t ts =>
      have hl' : q'.list .workList = t :: ts := hw ▸ hl
      obtain ⟨w₁, hw₁, R₁⟩ := takeTimer_spec M.left hl
      obtain ⟨w₂, hw₂, R₂⟩ := takeTimer_spec M.right hl'
      have M₁ : Related R true none (spinUnlock w₁) (spinUnlock w₂) q.takeTimer.unlock
          q'.takeTimer.unlock :=
        ⟨R₁.spinUnlock, R₂.spinUnlock, rfl, rfl, B.setLock none
          (B.takeTimer M.rel hl hl' M.left.sound M.right.sound R₁.sound R₂.sound)⟩
      -- both callbacks read the same
      have hcb : cb.callbacks e (spinUnlock w₁) t = cb.callbacks e (spinUnlock w₂) t :=
        congrArg (cb e · t) (M₁.view B)
      obtain ⟨e', calls, he⟩ : ∃ e' calls, cb.callbacks e (spinUnlock w₂) t = (e', calls) :=
        ⟨_, _, rfl⟩
      rw [runWorkList_cons fuel (listEmpty_workList_cons M.left hl) hw₁ (hcb.trans he),
        runWorkList_cons fuel (listEmpty_workList_cons M.right hl') hw₂ he]
      refine rel_bind (execCalls_bisim B M₁ calls) ?_
      rintro v v' ⟨p, p', M₂⟩
      obtain ⟨u, u', hu, hu', M₃⟩ := M₂.locked B
      rw [hu, hu', Option.bind_some, Option.bind_some]
      refine rel_bind (ih e' M₃) ?_
      rintro ⟨e₁, w₃, us⟩ ⟨-, w₄, -⟩ ⟨rfl, rfl, M₄⟩
      exact .some ⟨rfl, rfl, M₄⟩

theorem runTicks_bisim (cb : Program σ m N) (fuel : Nat) (e : σ)
    (M : Related R false (some .worker) w w' q q') :
    Option.Rel (fun r r' => r.1 = r'.1 ∧ r.2.2 = r'.2.2 ∧
        ∃ q q', Related R false (some .worker) r.2.1 r'.2.1 q q')
      (runTicks cb.callbacks fuel e w) (runTicks cb.callbacks fuel e w') := by
  induction fuel generalizing e w w' q q' with
  | zero => exact .none
  | succ fuel ih =>
    have hv := M.view B
    have hj : w.jiffies = w'.jiffies := congrArg View.jiffies hv
    have hT : w.base.timerJiffies = w'.base.timerJiffies := congrArg View.timerJiffies hv
    simp only [runTicks, hj, hT, Option.bind_eq_bind]
    split
    · obtain ⟨w₁, hw₁, R₁⟩ := startTick_spec M.left
      obtain ⟨w₂, hw₂, R₂⟩ := startTick_spec M.right
      have M₁ : Related R true (some .worker) w₁ w₂ q.startTick q'.startTick :=
        ⟨R₁, R₂, q.lock_startTick.trans M.lock_left, q'.lock_startTick.trans M.lock_right,
          B.startTick M.rel M.left.sound M.right.sound R₁.sound R₂.sound⟩
      rw [hw₁, hw₂, Option.bind_some, Option.bind_some]
      refine rel_bind (runWorkList_bisim B cb fuel e M₁) ?_
      rintro ⟨e', w₃, ts⟩ ⟨-, w₄, -⟩ ⟨rfl, rfl, p, p', M₂⟩
      refine rel_bind (ih e' M₂) ?_
      rintro ⟨e'', w₅, tr⟩ ⟨-, w₆, -⟩ ⟨rfl, rfl, M₃⟩
      exact .some ⟨rfl, rfl, M₃⟩
    · exact .some ⟨rfl, rfl, q, q', M⟩

theorem runBlocks_bisim (cb : Program σ m N) (fuel : Nat) (e : σ) (bs : List (Block m N))
    (M : Related R false none w w' q q') :
    Option.Rel Eq (runBlocks cb.callbacks fuel e w bs) (runBlocks cb.callbacks fuel e w' bs) := by
  induction bs generalizing e w w' q q' with
  | nil => exact .some rfl
  | cons b bs ih =>
    refine rel_bind (execCalls_bisim B M b.calls) ?_
    rintro w₁ w₂ ⟨q₁, q₂, M₁⟩
    have M₂ : Related R false none { w₁ with jiffies := b.jiffies } { w₂ with jiffies := b.jiffies }
        { q₁ with jiffies := b.jiffies } { q₂ with jiffies := b.jiffies } :=
      ⟨⟨M₁.left.rings, M₁.left.dead, M₁.left.null, M₁.left.expires, M₁.left.code, M₁.left.lock,
          M₁.left.timerJiffies, rfl⟩,
        ⟨M₁.right.rings, M₁.right.dead, M₁.right.null, M₁.right.expires, M₁.right.code,
          M₁.right.lock, M₁.right.timerJiffies, rfl⟩,
        M₁.lock_left, M₁.lock_right, B.setJiffies _ M₁.rel⟩
    obtain ⟨v, v', hv, hv', M₃⟩ := M₂.locked B
    simp only [__runTimers, hv, hv', Option.bind_eq_bind, Option.bind_some, Option.bind_assoc]
    refine rel_bind (runTicks_bisim B cb fuel e M₃) ?_
    rintro ⟨e', w₃, tr⟩ ⟨-, w₄, -⟩ ⟨rfl, rfl, p, p', M₄⟩
    refine rel_bind (ih e' (M₄.unlocked B)) ?_
    rintro rest _ rfl
    exact .some rfl

/-- No program tells two states with related queues apart. -/
theorem resume_bisim (H : s.Holds q) (H' : s'.Holds q') (hc : s.ctl = s'.ctl) (h : R q q')
    (cb : Program σ m N) (fuel : Nat) (e : σ) (calls : List (Call m N)) (bs : List (Block m N)) :
    Option.Rel Eq (s.resume cb.callbacks fuel e calls bs)
      (s'.resume cb.callbacks fuel e calls bs) := by
  obtain ⟨w, c⟩ := s
  obtain ⟨w', c'⟩ := s'
  obtain rfl : c = c' := hc
  have start (ho : c.open = true) : Related R c.working none w w' q q' := by
    have hl : c.lock = none := if_pos ho
    exact ⟨H.realizes, H'.realizes, H.lock.trans hl, H'.lock.trans hl, h⟩
  cases c with
  | outer | inner => exact .none
  | idle =>
    refine rel_bind (execCalls_bisim B (start rfl) calls) ?_
    rintro w₁ w₂ ⟨q₁, q₂, M⟩
    exact runBlocks_bisim B cb fuel e bs M
  | callback t =>
    refine rel_bind (execCalls_bisim B (start rfl) calls) ?_
    rintro w₁ w₂ ⟨q₁, q₂, M⟩
    obtain ⟨v, v', hv, hv', M₁⟩ := M.locked B
    have hT : v.base.timerJiffies = v'.base.timerJiffies :=
      congrArg View.timerJiffies (M₁.view B)
    simp only [hv, hv', hT, Option.bind_eq_bind, Option.bind_some]
    refine rel_bind (runWorkList_bisim B cb fuel e M₁) ?_
    rintro ⟨e', w₃, ts⟩ ⟨-, w₄, -⟩ ⟨rfl, rfl, p, p', M₂⟩
    refine rel_bind (runTicks_bisim B cb fuel e' M₂) ?_
    rintro ⟨e'', w₅, tr⟩ ⟨-, w₆, -⟩ ⟨rfl, rfl, p₁, p₂, M₃⟩
    refine rel_bind (runBlocks_bisim B cb fuel e'' bs (M₃.unlocked B)) ?_
    rintro rest _ rfl
    exact .some rfl

theorem sameRuns_of_bisim (H : s.Holds q) (H' : s'.Holds q') (hc : s.ctl = s'.ctl) (h : R q q') :
    SameRuns s s' := fun _ cb fuel e calls bs =>
  rel_imp (resume_bisim B H H' hc h cb fuel e calls bs) fun _ _ hab =>
    hab ▸ List.forall₂_same.mpr fun _ _ => ⟨rfl, List.Perm.refl _⟩

end Runs

end Uki
