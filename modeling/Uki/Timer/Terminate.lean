import Uki.Timer.Conservation

/-!
# A pass of `__run_timers` ends

`rank` bounds the steps the worker has still to take in a pass. A step of the
worker lowers it; a call, whatever callback makes it, does not raise it, since no
call puts a timer on the work list (`workList_exec`). So the pass ends as soon as
every callback returns, after one iteration for every tick up to `jiffies`
(`run_timers_terminates`).
-/

set_option linter.style.nameCheck false

namespace Uki

variable {m : LongModel} {N : Nat} {q q' : Queues m N} {s s' : Sys m N} {t : Fin N}

/-! ## The work list only shrinks -/

theorem workList_rearm (q : Queues m N) (t : Fin N) (key e : ULong m) :
    (q.rearm t key e).list .workList = (q.list .workList).filter (· ≠ t) := by
  obtain ⟨tv, i, h, -⟩ := internalAddVec_lt q.timerJiffies key
  simp [Queues.rearm, Queues.insert, Queues.remove, h]

/-- No call adds to the work list. -/
theorem workList_exec (q : Queues m N) (c : Call m N) :
    ((q.exec c).1.list .workList).Sublist (q.list .workList) := by
  rcases q.exec_cases c with hx | hx | hx | ⟨key, e, hx⟩ <;> rw [hx]
  · exact List.Sublist.refl _
  · exact List.filter_sublist
  · rw [workList_rearm]
    exact List.filter_sublist

theorem length_workList (S : q.Sound working) : (q.list .workList).length ≤ N := by
  have := (S.nodup .workList).length_le_card
  rwa [Fintype.card_fin] at this

/-! ## The rank of a pass -/

/-- The ticks a pass has still to process at `T`, with the clock at `j`. -/
def ticksLeft (T j : ULong m) : Nat := if timeAfterEq j T then ahead T j + 1 else 0

def Queues.ticksLeft (q : Queues m N) : Nat := Uki.ticksLeft q.timerJiffies q.jiffies

/-- A bound on the steps the worker has still to take. -/
def rank (q : Queues m N) : Ctl N → Nat
  | .idle => 0
  | .outer => q.ticksLeft * (2 * N + 2) + 1
  | .inner => q.ticksLeft * (2 * N + 2) + 2 * (q.list .workList).length + 2
  | .callback _ => q.ticksLeft * (2 * N + 2) + 2 * (q.list .workList).length + 3

/-- Once the tick after `jiffies` is reached, the comparison is negative. -/
theorem ticksLeft_succ {T j : ULong m} (h : timeAfterEq j T = true) :
    ticksLeft (T + 1) j + 1 = ticksLeft T j := by
  have hlt := (timeAfterEq_iff _ _).mp h
  simp only [ticksLeft, h, if_true]
  by_cases he : T = j
  · have hpast : timeAfterEq j (T + 1) = false := by
      rw [← Bool.not_eq_true, timeAfterEq_iff, ← he, ahead_succ_self]
      have := two_half m
      have := le_half m
      omega
    rw [hpast, he, ahead_self]
    simp
  · have hs := ahead_succ he
    have hne : ahead T j ≠ 0 := fun h0 => he (ahead_eq_zero.mp h0).symm
    have hnext : timeAfterEq j (T + 1) = true := by
      rw [timeAfterEq_iff, hs]
      omega
    rw [hnext, if_pos rfl, hs]
    omega

theorem ticksLeft_startTick (h : timeAfterEq q.jiffies q.timerJiffies = true) :
    q.startTick.ticksLeft + 1 = q.ticksLeft := by
  unfold Queues.ticksLeft
  rw [Queues.jiffies_startTick, Queues.timerJiffies_startTick]
  exact ticksLeft_succ h

theorem ticksLeft_eq_zero {T j : ULong m} (h : timeAfterEq j T = false) : ticksLeft T j = 0 := by
  simp [ticksLeft, h]

def Act.isRun : Act m N → Bool
  | .run => true
  | _ => false

/-- The clock is stored between passes only. -/
def Act.InPass : Act m N → Prop
  | .wake _ => False
  | _ => True

theorem rank_step {c c' : Ctl N} {a : Act m N} {ev : List (Event m N)} (h : q.Step c a q' c' ev)
    (S' : q'.Sound c'.working) (ha : a.InPass) :
    rank q' c' + (if a.isRun then 1 else 0) ≤ rank q c := by
  cases h with
  | @call _ cl ho hc =>
    obtain ⟨hT, hj, -⟩ := Queues.exec_frame (q := q) cl
    have ht : (q.exec cl).1.ticksLeft = q.ticksLeft := by
      rw [Queues.ticksLeft, hT, hj, Queues.ticksLeft]
    have hw := (workList_exec q cl).length_le
    cases c <;> simp only [rank, ht, Act.isRun, Bool.false_eq_true, if_false] <;> omega
  | wake j => exact ha.elim
  | iter hj =>
    have ht := ticksLeft_startTick hj
    have hw := length_workList S'
    simp only [rank, Act.isRun, if_true, ← ht]
    rw [Nat.add_mul, Nat.one_mul]
    omega
  | sleep hj => simp [rank, Act.isRun]
  | drained hw =>
    simp only [rank, Act.isRun, if_true, hw, List.length_nil]
    omega
  | @fire t ts hw =>
    have ht : q.takeTimer.unlock.ticksLeft = q.ticksLeft := rfl
    have hl : (q.takeTimer.unlock.list .workList) = ts := by
      simp [Queues.takeTimer, Queues.setList, Queues.unlock, hw]
    simp only [rank, Act.isRun, if_true, ht, hl, hw, List.length_cons]
    omega
  | resume t => simp [rank, Act.isRun, Queues.ticksLeft]

theorem rank_run {as : List (Act m N)} {ev : List (Event m N)} (H : s.Holds q)
    (has : ∀ a ∈ as, a.InPass) (hr : (wheel m N).run s as = some (s', ev)) :
    as.countP Act.isRun ≤ rank q s.ctl := by
  obtain ⟨k, -, hk⟩ := Machine.run_countP_le (R := fun s k => ∃ q, s.Holds q ∧ rank q s.ctl = k)
    (p := Act.isRun) hr has ⟨q, H, rfl⟩ (by
      rintro s k a s' ev ha ⟨q, H, rfl⟩ hs
      obtain ⟨q', H', hq⟩ := step_refines H hs
      exact ⟨_, ⟨q', H', rfl⟩, rank_step hq H'.realizes.sound ha⟩)
  omega

/-! ## The ticks of a pass -/

def iters (ev : List (Event m N)) : List (ULong m) :=
  ev.filterMap fun
    | .iter T => some T
    | _ => none

/-- The `k` ticks from `T` on. -/
def ticksFrom (T : ULong m) (k : Nat) : List (ULong m) :=
  (List.range k).map fun i => T + BitVec.ofNat _ i

/-- The pass that started at `T` with the clock at `j` has processed `k` ticks,
and all of them once the worker is idle. -/
structure Processed (T j : ULong m) (k : Nat) (q : Queues m N) (c : Ctl N)
    (ev : List (Event m N)) : Prop where
  le : k ≤ ahead T j + 1
  ticks : iters ev = ticksFrom T k
  timerJiffies : q.timerJiffies = T + BitVec.ofNat _ k
  jiffies : q.jiffies = j
  finished : c = .idle → k = ahead T j + 1

/-- The comparison of the outer loop holds for the ticks up to `jiffies` only. -/
theorem timeAfterEq_iff_le {T j : ULong m} (hj : ahead T j < half m) {k : Nat}
    (hk : k ≤ ahead T j + 1) :
    timeAfterEq j (T + BitVec.ofNat _ k) = true ↔ k ≤ ahead T j := by
  rw [timeAfterEq_iff]
  constructor
  · intro h
    by_contra hgt
    have hk : k = ahead T j + 1 := by omega
    rw [hk, add_ofNat_succ, add_ahead, ahead_succ_self] at h
    have := le_half m
    omega
  · intro hle
    rw [ahead_add hle]
    omega

theorem Processed.step {T j : ULong m} {k : Nat} {c c' : Ctl N} {a : Act m N}
    {ev ev' : List (Event m N)} (P : Processed T j k q c ev) (hj : ahead T j < half m)
    (h : q.Step c a q' c' ev') (ha : a.InPass) : ∃ k, Processed T j k q' c' (ev ++ ev') := by
  obtain ⟨hk, hi, hT, hjif, hfin⟩ := P
  have keep (he : iters ev' = []) (hTq : q'.timerJiffies = q.timerJiffies)
      (hjq : q'.jiffies = q.jiffies) (hc : c' = .idle → k = ahead T j + 1) :
      ∃ k, Processed T j k q' c' (ev ++ ev') :=
    ⟨k, hk, by rw [iters, List.filterMap_append, ← iters, ← iters, he, hi, List.append_nil],
      hTq.trans hT, hjq.trans hjif, hc⟩
  cases h with
  | @call _ cl ho hc =>
    obtain ⟨hTq, hjq, -⟩ := Queues.exec_frame (q := q) cl
    exact keep rfl hTq hjq hfin
  | wake j => exact ha.elim
  | iter hq =>
    rw [hT, hjif, timeAfterEq_iff_le hj hk] at hq
    refine ⟨k + 1, by omega, ?_, ?_, by rw [Queues.jiffies_startTick, hjif], by simp⟩
    · rw [iters, List.filterMap_append, ← iters, hi, ticksFrom, ticksFrom, List.range_succ,
        List.map_append, hT]
      rfl
    · rw [Queues.timerJiffies_startTick, hT, add_ofNat_succ]
  | sleep hq =>
    refine keep rfl rfl rfl fun _ => ?_
    rw [hT, hjif] at hq
    have hn : ¬ k ≤ ahead T j := fun hle => by
      rw [(timeAfterEq_iff_le hj hk).mpr hle] at hq
      cases hq
    omega
  | drained hw => exact keep rfl rfl rfl (by simp)
  | fire hw => exact keep rfl rfl rfl (by simp)
  | resume t => exact keep rfl rfl rfl (by simp)

/-! ## Callbacks given as a function -/

section Functional

variable {σ : Type} {w : World m N}

/-- None of the calls, made one after another, is `add_timer` on a pending timer. -/
def CallsAllowed : World m N → List (Call m N) → Prop
  | _, [] => True
  | w, c :: cs => (∀ t e, c = .addTimer t e → timerPending w t = false) ∧
      ∀ r ∈ c.exec w, CallsAllowed r.1 cs

instance (w : World m N) (c : Call m N) :
    Decidable (∀ t e, c = .addTimer t e → timerPending w t = false) :=
  match c with
  | .addTimer t e => decidable_of_iff (timerPending w t = false)
      ⟨by rintro h _ _ ⟨⟩; exact h, fun h => h t e rfl⟩
  | .modTimer _ _ | .modTimerPending _ _ | .delTimer _ => isTrue (by simp)

instance decidableCallsAllowed (w : World m N) (cs : List (Call m N)) :
    Decidable (CallsAllowed w cs) :=
  match cs with
  | [] => isTrue trivial
  | c :: cs =>
    have (r : World m N × Nat) : Decidable (CallsAllowed r.1 cs) := decidableCallsAllowed r.1 cs
    inferInstanceAs (Decidable (_ ∧ ∀ r ∈ c.exec w, CallsAllowed r.1 cs))

/-- None of the callbacks that the inner loop runs calls `add_timer` on a timer that
is pending then. -/
def WorkListAllowed (cb : Callbacks σ m N) : Nat → σ → World m N → Prop
  | 0, _, _ => True
  | fuel + 1, e, w => listEmpty w.heap (.head .workList) = false →
      ∀ r ∈ takeTimer w, CallsAllowed (spinUnlock r.1) (cb e (spinUnlock r.1) r.2.1).2 ∧
        ∀ w₂ ∈ execCalls (spinUnlock r.1) (cb e (spinUnlock r.1) r.2.1).2,
          ∀ w₃ ∈ spinLock w₂ .worker,
            WorkListAllowed cb fuel (cb e (spinUnlock r.1) r.2.1).1 w₃

/-- The same for all ticks of the outer loop. -/
def TicksAllowed (cb : Callbacks σ m N) : Nat → σ → World m N → Prop
  | 0, _, _ => True
  | fuel + 1, e, w => timeAfterEq w.jiffies w.base.timerJiffies = true →
      ∀ w₁ ∈ startTick w, WorkListAllowed cb fuel e w₁ ∧
        ∀ r ∈ runWorkList cb fuel e w₁, TicksAllowed cb fuel r.1 r.2.1

/-- The same for a pass of `__run_timers`. -/
def PassAllowed (cb : Callbacks σ m N) (fuel : Nat) (e : σ) (w : World m N) : Prop :=
  ∀ w₁ ∈ spinLock w .worker, TicksAllowed cb fuel e w₁

instance decidableWorkListAllowed (cb : Callbacks σ m N) (fuel : Nat) (e : σ) (w : World m N) :
    Decidable (WorkListAllowed cb fuel e w) :=
  match fuel with
  | 0 => isTrue trivial
  | fuel + 1 =>
    have (e : σ) (w : World m N) := decidableWorkListAllowed cb fuel e w
    inferInstanceAs (Decidable (_ → ∀ r ∈ takeTimer w, _ ∧ _))

instance decidableTicksAllowed (cb : Callbacks σ m N) (fuel : Nat) (e : σ) (w : World m N) :
    Decidable (TicksAllowed cb fuel e w) :=
  match fuel with
  | 0 => isTrue trivial
  | fuel + 1 =>
    have (e : σ) (w : World m N) := decidableTicksAllowed cb fuel e w
    inferInstanceAs (Decidable (_ → ∀ w₁ ∈ startTick w, _ ∧ _))

instance (cb : Callbacks σ m N) (fuel : Nat) (e : σ) (w : World m N) :
    Decidable (PassAllowed cb fuel e w) :=
  inferInstanceAs (Decidable (∀ w₁ ∈ spinLock w .worker, _))

theorem allows_of_allowed {working : Bool} (R : Realizes working [] w q) {c : Call m N}
    (hc : ∀ t e, c = .addTimer t e → timerPending w t = false) : q.Allows c := by
  cases c with
  | addTimer t e =>
    intro hp
    have := R.timerPending_iff.mpr hp
    rw [hc t e rfl] at this
    cases this
  | modTimer | modTimerPending | delTimer => trivial

/-- What calls leave alone. -/
structure CallFrame (q q' : Queues m N) : Prop where
  lock : q.lock = none → q'.lock = none
  timerJiffies : q'.timerJiffies = q.timerJiffies
  jiffies : q'.jiffies = q.jiffies
  workList : (q'.list .workList).Sublist (q.list .workList)

theorem callFrame_exec (q : Queues m N) (c : Call m N) : CallFrame q (q.exec c).1 :=
  have h := Queues.exec_frame (q := q) c
  ⟨Sys.Holds.exec_lock c, h.1, h.2.1, workList_exec q c⟩

theorem CallFrame.trans {q'' : Queues m N} (F : CallFrame q q') (F' : CallFrame q' q'') :
    CallFrame q q'' where
  lock h := F'.lock (F.lock h)
  timerJiffies := F'.timerJiffies.trans F.timerJiffies
  jiffies := F'.jiffies.trans F.jiffies
  workList := F'.workList.trans F.workList

theorem execCalls_total {working : Bool} {cs : List (Call m N)} (R : Realizes working [] w q)
    (hc : CallsAllowed w cs) :
    ∃ w' q', execCalls w cs = some w' ∧ Realizes working [] w' q' ∧ CallFrame q q' := by
  induction cs generalizing w q with
  | nil => exact ⟨w, q, rfl, R, fun h => h, rfl, rfl, List.Sublist.refl _⟩
  | cons c cs ih =>
    obtain ⟨w₁, hw₁, R₁⟩ := exec_spec R (allows_of_allowed R hc.1)
    obtain ⟨w', q', hw', R', F⟩ := ih R₁ (hc.2 _ hw₁)
    exact ⟨w', q', by simp [execCalls, hw₁, hw'], R', (callFrame_exec q c).trans F⟩

theorem runWorkList_total {cb : Callbacks σ m N} {fuel : Nat} {e : σ}
    (hcb : WorkListAllowed cb fuel e w) (R : Realizes true [] w q) (hl : q.lock = some .worker)
    (hf : (q.list .workList).length < fuel) :
    ∃ e' w' q' ts, runWorkList cb fuel e w = some (e', w', ts) ∧ Realizes false [] w' q' ∧
      q'.lock = some .worker ∧ q'.timerJiffies = q.timerJiffies ∧ q'.jiffies = q.jiffies := by
  induction fuel generalizing e w q with
  | zero => simp at hf
  | succ fuel ih =>
    cases hw : q.list .workList with
    | nil =>
      have he := (listEmpty_workList R).mpr hw
      exact ⟨e, w, q, [], by simp [runWorkList, he], R.forget hw, hl, rfl, rfl⟩
    | cons t ts =>
      have hne := listEmpty_workList_cons R hw
      obtain ⟨w₁, hw₁, R₁⟩ := takeTimer_spec R hw
      have R₁ := R₁.spinUnlock
      obtain ⟨hca, hrest⟩ := hcb hne _ hw₁
      obtain ⟨w₂, q₂, hw₂, R₂, F⟩ := execCalls_total R₁ hca
      have hn : w₂.base.lock = none := R₂.lock.trans (F.lock rfl)
      have hlen : (q₂.list .workList).length < fuel := by
        have h1 := F.workList.length_le
        have h2 : (q.takeTimer.unlock.list .workList) = ts := by
          simp [Queues.takeTimer, hw]
        rw [h2] at h1
        rw [hw, List.length_cons] at hf
        omega
      have hlock : spinLock w₂ .worker =
          some { w₂ with base := { w₂.base with lock := some .worker } } := by simp [spinLock, hn]
      obtain ⟨e', w', q', us, hr, R', hl', hT', hj'⟩ := ih (hrest w₂ hw₂ _ hlock)
        (Sys.Holds.realizes_locked R₂) rfl hlen
      refine ⟨e', w', q', t :: us, ?_, R', hl', hT'.trans F.timerJiffies, hj'.trans F.jiffies⟩
      rw [runWorkList_cons fuel hne hw₁ rfl]
      simp [hw₂, hlock, hr]

theorem ticksFrom_succ (T : ULong m) (k : Nat) : ticksFrom T (k + 1) = T :: ticksFrom (T + 1) k := by
  rw [ticksFrom, List.range_succ_eq_map, List.map_cons, List.map_map]
  simp only [ticksFrom, BitVec.ofNat_eq_ofNat, BitVec.add_zero, List.cons.injEq, true_and]
  refine List.map_congr_left fun i _ => ?_
  exact (add_one_add T i).symm

theorem runTicks_total {cb : Callbacks σ m N} {fuel : Nat} {e : σ} (hcb : TicksAllowed cb fuel e w)
    (R : Realizes false [] w q) (hl : q.lock = some .worker) (hf : q.ticksLeft + N + 2 ≤ fuel) :
    ∃ e' w' q' trace, runTicks cb fuel e w = some (e', w', trace) ∧ Realizes false [] w' q' ∧
      trace.map Prod.fst = ticksFrom q.timerJiffies q.ticksLeft ∧
      q'.timerJiffies = q.timerJiffies + BitVec.ofNat _ q.ticksLeft := by
  induction fuel generalizing e w q with
  | zero => omega
  | succ fuel ih =>
    cases hj : timeAfterEq q.jiffies q.timerJiffies with
    | false =>
      refine ⟨e, w, q, [], ?_, R, ?_, ?_⟩
      · simp [runTicks, R.jiffies, R.timerJiffies, hj]
      · simp [Queues.ticksLeft, ticksLeft_eq_zero hj, ticksFrom]
      · simp [Queues.ticksLeft, ticksLeft_eq_zero hj]
    | true =>
      have ht := ticksLeft_startTick hj
      obtain ⟨w₁, hw₁, R₁⟩ := startTick_spec R
      obtain ⟨hwork, hrest⟩ := hcb (by rwa [R.jiffies, R.timerJiffies]) w₁ hw₁
      obtain ⟨e₂, w₂, q₂, ts, hw₂, R₂, hl₂, hT₂, hj₂⟩ := runWorkList_total hwork R₁
        (by rw [Queues.lock_startTick, hl]) (by have := length_workList R₁.sound; omega)
      have ht₂ : q₂.ticksLeft = q.startTick.ticksLeft := by
        rw [Queues.ticksLeft, hT₂, hj₂, Queues.ticksLeft]
      obtain ⟨e', w', q', trace, hr, R', hfst, hT'⟩ := ih (hrest _ hw₂) R₂ hl₂ (by omega)
      refine ⟨e', w', q', (q.timerJiffies, ts) :: trace, ?_, R', ?_, ?_⟩
      · simp [runTicks, R.jiffies, R.timerJiffies, hj, hw₁, hw₂, hr]
      · rw [List.map_cons, hfst, hT₂, ht₂, Queues.timerJiffies_startTick, ← ht, ticksFrom_succ]
      · rw [hT', hT₂, ht₂, Queues.timerJiffies_startTick, ← ht, add_one_add]

end Functional

/-- The queues when the worker has stored `j` and taken the lock. -/
def Queues.wake (q : Queues m N) (j : ULong m) : Queues m N :=
  { q with jiffies := j, lock := some .worker }

theorem Queues.ticksLeft_wake {j : ULong m} (h : ahead q.timerJiffies j < half m) :
    (q.wake j).ticksLeft = ahead q.timerJiffies j + 1 := by
  have ha : timeAfterEq j q.timerJiffies = true := (timeAfterEq_iff j _).mpr h
  simp [Queues.ticksLeft, Uki.ticksLeft, Queues.wake, ha]

/-- Where a pass that is entered with `jiffies = j` is after some steps. -/
theorem processed_run {j : ULong m} {as : List (Act m N)} {ev : List (Event m N)} (H : s.Holds q)
    (hidle : s.ctl = .idle) (hj : ahead q.timerJiffies j < half m) (has : ∀ a ∈ as, a.InPass)
    (h : (wheel m N).run s (.wake j :: as) = some (s', ev)) :
    as.countP Act.isRun ≤ (q.wake j).ticksLeft * (2 * N + 2) + 1 ∧
      ∃ q' k, s'.Holds q' ∧ Processed q.timerJiffies j k q' s'.ctl ev := by
  obtain ⟨s₁, ev₁, ev₂, hs₁, hr₁, rfl⟩ := Machine.run_cons.mp h
  have hstep : q.Step s.ctl (.wake j) (q.wake j) .outer [] := hidle ▸ .wake j
  obtain ⟨w₁, hw₁, H₁⟩ := step_of_queues H hstep
  have hs₁' : s.step (.wake j) = some (s₁, ev₁) := hs₁
  rw [hw₁] at hs₁'
  cases hs₁'
  refine ⟨rank_run H₁ has hr₁, ?_⟩
  have P₁ : Processed q.timerJiffies j 0 (q.wake j) .outer ([] : List (Event m N)) :=
    ⟨by omega, by simp [iters, ticksFrom], by simp [Queues.wake], rfl, by simp⟩
  obtain ⟨q', H', k, P'⟩ := wheel_induction
    (P := fun q' c ev => ∃ k, Processed q.timerJiffies j k q' c ev) hr₁ has H₁ ⟨0, P₁⟩
    fun q c ev a q' c' ev' ha _ hP hs => by
      obtain ⟨k, hP⟩ := hP
      exact hP.step hj hs ha
  exact ⟨q', k, H', P'⟩

/-- The two loops return for enough fuel. -/
theorem __runTimers_total {σ : Type} {cb : Callbacks σ m N} (H : s.Holds q) (hidle : s.ctl = .idle)
    {j : ULong m} {e : σ} {fuel : Nat} (hcb : PassAllowed cb fuel e { s.world with jiffies := j })
    (hf : (q.wake j).ticksLeft + N + 2 ≤ fuel) :
    ∃ e' w' trace, __runTimers cb fuel e { s.world with jiffies := j } = some (e', w', trace) ∧
      trace.map Prod.fst = ticksFrom q.timerJiffies (q.wake j).ticksLeft ∧
      w'.base.timerJiffies = q.timerJiffies + BitVec.ofNat _ (q.wake j).ticksLeft := by
  have R := H.realizes
  rw [hidle] at R
  have hl : q.lock = none := by rw [H.lock, hidle]; rfl
  have hlw : s.world.base.lock = none := R.lock.trans hl
  have R₁ : Realizes false [] { s.world with
      jiffies := j, base := { s.world.base with lock := some .worker } } (q.wake j) :=
    ⟨R.rings, R.dead, R.null, R.expires, R.code, rfl, R.timerJiffies, rfl⟩
  have hlock : spinLock { s.world with jiffies := j } .worker = some { s.world with
      jiffies := j, base := { s.world.base with lock := some .worker } } := by simp [spinLock, hlw]
  obtain ⟨e', w', q', trace, hr, R', hfst, hT'⟩ := runTicks_total (hcb _ hlock) R₁ rfl hf
  refine ⟨e', spinUnlock w', trace, ?_, hfst, ?_⟩
  · simp [__runTimers, hlock, hr]
  · rw [R'.spinUnlock.timerJiffies, Queues.timerJiffies_unlock, hT']
    rfl

/-- A pass entered at `T` with `jiffies = j` takes boundedly many worker steps,
whatever the callbacks call, and can go on until it is over; then it has
processed the ticks from `T` to `j`, each once. No call adds to the work list.
The loops of `__runTimers` return accordingly when no callback of the pass breaks the
rule of `add_timer`. -/
theorem run_timers_terminates {memory : Heap (Node N)} {setup : Fin N → TimerSetup m}
    {jiffies j : ULong m} (h : (wheel m N).Reachable (boot memory setup jiffies) s)
    (hidle : s.ctl = .idle) (hj : 0 ≤ (j - s.world.base.timerJiffies).toInt) :
    let T := s.world.base.timerJiffies
    let n := (j - T).toNat + 1
    (∀ as s' ev, (∀ a ∈ as, a.InPass) → (wheel m N).run s (.wake j :: as) = some (s', ev) →
      as.countP Act.isRun ≤ n * (2 * N + 2) + 1 ∧
      (s'.ctl ≠ .idle → ∃ s'' ev', s'.step .run = some (s'', ev')) ∧
      (s'.ctl = .idle → iters ev = ticksFrom T n ∧ s'.world.base.timerJiffies = j + 1) ∧
      ∀ c s'' r, s'.step (.call c) = some (s'', r) → ∃ list list',
        Conserved s'.world (Head.live s'.ctl.working) [] list ∧
        Conserved s''.world (Head.live s''.ctl.working) [] list' ∧
        (list' .workList).Sublist (list .workList)) ∧
    ∀ (σ : Type) (cb : Callbacks σ m N) e fuel,
      PassAllowed cb fuel e { s.world with jiffies := j } → n + N + 2 ≤ fuel →
      ∃ e' w' trace, __runTimers cb fuel e { s.world with jiffies := j } = some (e', w', trace) ∧
        trace.map Prod.fst = ticksFrom T n ∧ w'.base.timerJiffies = j + 1 := by
  obtain ⟨q, H, -⟩ := reachable_holds h
  rw [H.realizes.timerJiffies] at hj ⊢
  intro T n
  have hlt : ahead T j < half m := (toInt_sub_nonneg_iff T j).mp hj
  have hleft : (q.wake j).ticksLeft = n := Queues.ticksLeft_wake hlt
  have hn : ahead T j + 1 = n := rfl
  have hend : T + BitVec.ofNat _ n = j + 1 := by rw [← hn, add_ofNat_succ, add_ahead]
  refine ⟨fun as s' ev has hr => ?_, fun σ cb e fuel hcb hf => ?_⟩
  · obtain ⟨hcount, q', k, H', P'⟩ := processed_run H hidle hlt has hr
    refine ⟨hleft ▸ hcount, fun hc => exists_step_of_allows (a := .run) H' hc, fun hc => ?_,
      fun c s'' r hs => ?_⟩
    · have hk : k = n := P'.finished hc
      subst hk
      exact ⟨P'.ticks, by rw [H'.realizes.timerJiffies, P'.timerJiffies, hend]⟩
    · obtain ⟨q'', H'', hq⟩ := step_refines H' hs
      refine ⟨_, _, H'.realizes.conserved, H''.realizes.conserved, ?_⟩
      rw [hq.call_inv.1]
      exact workList_exec q' c
  · obtain ⟨e', w', trace, hr, hfst, hT'⟩ := __runTimers_total H hidle hcb (hleft ▸ hf)
    rw [hleft] at hfst hT'
    exact ⟨e', w', trace, hr, hfst, hT'.trans hend⟩

/-- Two timers that start each other, with a pass over two ticks. -/
theorem run_timers_terminates_test1 :
    ∃ s : Sys .long32 2, timerPending s.world 0 = true ∧ timerPending s.world 1 = false ∧
      ∃ e' w' trace,
        __runTimers (fun (e : Unit) _ t => (e, [.addTimer (1 - t) 0])) 6 ()
          { s.world with jiffies := 1 } = some (e', w', trace) ∧
        trace.map Prod.fst = [0, 1] ∧ w'.base.timerJiffies = 2 := by
  let cb : Callbacks Unit .long32 2 := fun e _ t => (e, [.addTimer (1 - t) 0])
  have h : ((wheel .long32 2).run (boot (fun _ => ⟨.null, .null⟩) (fun _ => ⟨0, 1, 2⟩) 0)
      [.call (.addTimer 0 0)]).map (fun p => (decide (p.1.ctl = .idle), timerPending p.1.world 0,
        timerPending p.1.world 1, p.1.world.base.timerJiffies,
        decide (PassAllowed cb 6 () { p.1.world with jiffies := 1 }))) =
      some (true, true, false, 0, true) := by
    decide +kernel
  obtain ⟨⟨s, ev⟩, hr, hs⟩ := Option.map_eq_some_iff.mp h
  simp only [Prod.mk.injEq, decide_eq_true_eq] at hs
  obtain ⟨hidle, hp₀, hp₁, hT, hcb⟩ := hs
  have key := (run_timers_terminates (j := 1) ⟨_, _, hr⟩ hidle (by rw [hT]; decide)).2
    Unit cb () 6 hcb
  simp only [hT] at key
  exact ⟨s, hp₀, hp₁, key (by decide)⟩

end Uki
