import Uki.Timer.Terminate

/-!
# The agenda of the wheel

`Queues.entry q t` is all that decides when `t` is run: its expiry and its
status. A call acts on the entry of its timer by itself (`entry_exec`), and a
tick on every entry by itself (`status_startTick`).
-/

namespace Uki

variable {m : LongModel} {N : Nat} {q q' : Queues m N} {t u : Fin N} {working : Bool}

/-- Off, on the work list, or to be run in `d` ticks. -/
inductive Status where
  | off
  | expiring
  | due (d : Nat)
deriving DecidableEq

@[ext] structure Entry (m : LongModel) where
  expires : ULong m
  status : Status

namespace Queues

open Classical in
noncomputable def status (q : Queues m N) (t : Fin N) : Status :=
  if h : ∃ d, q.Due t d then .due h.choose
  else if q.Expiring t then .expiring
  else .off

noncomputable def entry (q : Queues m N) (t : Fin N) : Entry m := ⟨q.expires t, q.status t⟩

theorem status_due {d : Nat} (S : q.Sound working) : q.status t = .due d ↔ q.Due t d := by
  unfold status
  split
  · next h =>
    constructor
    · intro he
      cases he
      exact h.choose_spec
    · intro hd
      rw [S.due_unique h.choose_spec hd]
  · next h =>
    constructor
    · intro he
      split at he <;> cases he
    · exact fun hd => absurd ⟨d, hd⟩ h

theorem status_expiring (S : q.Sound working) : q.status t = .expiring ↔ q.Expiring t := by
  unfold status
  split
  · next h =>
    obtain ⟨d, hd⟩ := h
    constructor
    · intro he
      cases he
    · exact fun hx => absurd hd (S.not_due_of_expiring hx d)
  · split <;> simp_all

theorem status_off (S : q.Sound working) : q.status t = .off ↔ ¬ q.Pending t := by
  rw [pending_iff S]
  unfold status
  split
  · next h => simp [h]
  · next h =>
    split
    · next hx => simp [hx]
    · next hx => simp [h, hx]

/-- Queues in which `t` has the same place give it the same status. -/
theorem status_congr {working' : Bool} (S : q.Sound working) (S' : q'.Sound working')
    (hd : ∀ d, q'.Due t d ↔ q.Due t d) (hx : q'.Expiring t ↔ q.Expiring t) :
    q'.status t = q.status t := by
  cases h : q.status t with
  | off =>
    rw [status_off S, pending_iff S] at h
    rw [status_off S', pending_iff S']
    simpa only [hd, hx] using h
  | expiring => exact (status_expiring S').mpr (hx.mpr ((status_expiring S).mp h))
  | due d => exact (status_due S').mpr ((hd d).mpr ((status_due S).mp h))

end Queues

/-! ## Calls -/

/-- A call on the entry of its timer at `T`. `add_timer` is refused when the
timer is pending. -/
def Entry.exec (T : ULong m) (x : Entry m) : Call m N → Option (Entry m)
  | .addTimer _ e => if x.status = .off then some ⟨e, .due (Queues.dueAs T e e)⟩ else none
  | .modTimer _ e =>
    if x.status ≠ .off ∧ x.expires = e then some x
    else some ⟨e, .due (Queues.dueAs T x.expires e)⟩
  | .modTimerPending _ e =>
    if x.status = .off then some x else some ⟨e, .due (Queues.dueAs T x.expires e)⟩
  | .delTimer _ => some ⟨x.expires, .off⟩

namespace Queues

theorem entry_rearm (key : ULong m) {e : ULong m} (S' : (q.rearm t key e).Sound working) :
    (q.rearm t key e).entry t = ⟨e, .due (dueAs q.timerJiffies key e)⟩ := by
  have hd := (status_due S').mpr ((due_rearm (q := q) key e).mpr rfl)
  unfold entry
  rw [hd]
  simp [rearm]

theorem entry_exec_of_ne {c : Call m N} (h : u ≠ c.timer) (S : q.Sound working)
    (S' : (q.exec c).1.Sound working) : (q.exec c).1.entry u = q.entry u := by
  unfold entry
  rw [expires_exec_of_ne h, status_congr S S' (due_exec_of_ne h) (expiring_exec_of_ne h)]

theorem entry_exec_none {c : Call m N} (S : q.Sound working) (hc : ¬ q.Allows c) :
    (q.entry c.timer).exec q.timerJiffies c = none := by
  cases c with
  | addTimer t e =>
    have hs : ¬ q.status t = .off := fun h => hc ((status_off S).mp h)
    exact if_neg hs
  | modTimer | modTimerPending | delTimer => exact absurd trivial hc

/-- An allowed call does to the entry of its timer what `Entry.exec` says. -/
theorem entry_exec {c : Call m N} (hc : q.Allows c) (S : q.Sound working)
    (S' : (q.exec c).1.Sound working) :
    (q.entry c.timer).exec q.timerJiffies c = some ((q.exec c).1.entry c.timer) := by
  cases c with
  | addTimer t e =>
    have hs : q.status t = .off := (status_off S).mpr hc
    have he : (q.exec (.addTimer t e)).1.entry t = _ := entry_rearm _ S'
    exact (if_pos hs).trans (congrArg some he.symm)
  | modTimer t e =>
    by_cases hf : q.status t ≠ .off ∧ q.expires t = e
    · -- the fast path leaves the timer where it is
      have hp : q.Pending t := not_not.mp fun hp => hf.1 ((status_off S).mpr hp)
      have hq : (q.exec (.modTimer t e)).1 = q := by simp [exec, hp, hf.2]
      rw [hq]
      exact if_pos hf
    · have hq : (q.exec (.modTimer t e)).1 = q.rearm t (q.expires t) e := by
        by_cases hp : q.Pending t
        · have he : ¬ q.expires t = e := fun he => hf ⟨fun ho => (status_off S).mp ho hp, he⟩
          simp [exec, hp, he]
        · simp [exec, hp]
      rw [hq] at S' ⊢
      exact (if_neg hf).trans (congrArg some (entry_rearm _ S').symm)
  | modTimerPending t e =>
    by_cases hs : q.status t = .off
    · have hq : (q.exec (.modTimerPending t e)).1 = q.unlock := by
        simp [exec, (status_off S).mp hs]
      rw [hq] at S' ⊢
      have he : q.unlock.entry t = q.entry t := by
        unfold entry
        rw [status_congr S S' (fun _ => Iff.rfl) Iff.rfl]
        rfl
      exact (if_pos hs).trans (congrArg some he.symm)
    · have hp : q.Pending t := not_not.mp fun hp => hs ((status_off S).mpr hp)
      have hq : (q.exec (.modTimerPending t e)).1 = q.rearm t (q.expires t) e := by
        simp [exec, hp]
      rw [hq] at S' ⊢
      exact (if_neg hs).trans (congrArg some (entry_rearm _ S').symm)
  | delTimer t =>
    have hp : ¬ (q.exec (.delTimer t)).1.Pending t := by
      by_cases hp : q.Pending t
      · rintro ⟨b, hb⟩
        simp [exec, hp, mem_remove] at hb
      · simp [exec, hp]
    have hx : (q.exec (.delTimer t)).1.expires t = q.expires t := by
      simp only [exec]
      split_ifs <;> rfl
    have he : (q.exec (.delTimer t)).1.entry t = ⟨q.expires t, .off⟩ := by
      unfold entry
      rw [hx, (status_off S').mpr hp]
    exact congrArg some he.symm

/-! ## Ticks and expiry -/

theorem status_startTick (S : q.Sound false) (S' : q.startTick.Sound true) :
    q.startTick.status t = match q.status t with
      | .off => .off
      | .expiring => .expiring
      | .due 0 => .expiring
      | .due (d + 1) => .due d := by
  cases h : q.status t with
  | off =>
    rw [status_off S] at h
    rwa [status_off S', pending_startTick S]
  | expiring =>
    -- the work list is empty between two iterations
    rw [status_expiring S, Expiring, S.dead .workList rfl] at h
    cases h
  | due d =>
    rw [status_due S] at h
    cases d with
    | zero => exact (status_expiring S').mpr ((expiring_startTick S).mpr h)
    | succ d => exact (status_due S').mpr ((due_startTick S d).mpr h)

theorem status_takeTimer {ts : List (Fin N)} (h : q.list .workList = t :: ts)
    (S : q.Sound working) (S' : q.takeTimer.Sound working) :
    q.takeTimer.status u = if u = t then .off else q.status u := by
  split
  · next hu =>
    rw [status_off S', hu]
    rintro ⟨b, hb⟩
    exact ((mem_takeTimer h S).mp hb).2 rfl
  · next hu =>
    refine status_congr S S' (fun d => due_takeTimer q u d) ?_
    unfold Expiring
    rw [mem_takeTimer h S]
    exact and_iff_left hu

end Queues

end Uki
