import Uki.Timer.Interface
import Uki.Timer.Pair

/-!
# Which of two timers is run

A program whose callback of `x` deletes `y` and whose other callbacks delete `x`
shows which of the two is run first: the other one never is (`rivals_resume`). So
two wheels on which the same calls leave the same two timers, but in another order,
do not have the same runs (`not_sameRuns`).
-/

set_option linter.style.nameCheck false

namespace Uki

variable {m : LongModel} {N : Nat} {σ : Type} {q q' : Queues m N} {s s' : Sys m N}
  {w w' : World m N} {x y t u : Fin N} {d : Nat}

/-- The callback of either timer deletes the other. -/
def rivals (x y : Fin N) : Program Unit m N := fun _ _ t =>
  ((), [.delTimer (if t = x then y else x)])

/-- The callback of `x` deletes `y`. -/
def Deletes (cb : Program Unit m N) (x y : Fin N) : Prop := ∀ v, cb () v x = ((), [.delTimer y])

theorem rivals_left (x y : Fin N) : Deletes (rivals (m := m) x y) x y := fun v => by
  simp [rivals]

theorem rivals_right (h : x ≠ y) : Deletes (rivals (m := m) x y) y x := fun v => by
  simp [rivals, h.symm]

theorem Queues.list_delTimer (q : Queues m N) (t : Fin N) (b : Head) :
    (q.exec (.delTimer t)).1.list b = (q.list b).filter (· ≠ t) := by
  by_cases hp : q.Pending t
  · simp [exec, hp, remove]
  · have hq : (q.exec (.delTimer t)).1 = q := by simp [exec, hp]
    rw [hq, eq_comm, List.filter_eq_self]
    intro u hu
    have : u ≠ t := fun he => hp ⟨b, he ▸ hu⟩
    simpa using this

theorem Queues.expires_delTimer (q : Queues m N) (t : Fin N) :
    (q.exec (.delTimer t)).1.expires = q.expires := by
  simp only [exec]
  split_ifs <;> rfl

theorem Queues.list_eq_nil (hp : ∀ t, ¬ q.Pending t) (b : Head) : q.list b = [] := by
  rw [List.eq_nil_iff_forall_not_mem]
  exact fun t ht => hp t ⟨b, ht⟩

/-! ## Ticks -/

/-- One turn of the outer loop. -/
theorem runTicks_cons {cb : Callbacks σ m N} {fuel : Nat} {e e' : σ} {w₁ w₂ : World m N}
    {ts : List (Fin N)} (hj : timeAfterEq w.jiffies w.base.timerJiffies = true)
    (hw : startTick w = some w₁) (hl : runWorkList cb fuel e w₁ = some (e', w₂, ts)) :
    runTicks cb (fuel + 1) e w = (runTicks cb fuel e' w₂).bind fun r =>
      some (r.1, r.2.1, (w.base.timerJiffies, ts) :: r.2.2) := by
  simp [runTicks, hj, hw, hl]

/-- The inner loop finds nothing to run. -/
theorem runWorkList_nil (cb : Callbacks σ m N) (fuel : Nat) (e : σ) (R : Realizes true [] w q)
    (h : q.list .workList = []) : runWorkList cb (fuel + 1) e w = some (e, w, []) := by
  simp [runWorkList, (listEmpty_workList R).mpr h]

/-- Nothing is run while no timer is pending. -/
theorem runTicks_empty (cb : Callbacks σ m N) (fuel : Nat) (e : σ) (R : Realizes false [] w q)
    (hl : q.lock = some .worker) (hp : ∀ t, ¬ q.Pending t)
    (hf : ticksLeft q.timerJiffies q.jiffies + 2 ≤ fuel) :
    ∃ w' q' trace, runTicks cb fuel e w = some (e, w', trace) ∧ Realizes false [] w' q' ∧
      q'.lock = some .worker ∧ (∀ t, ¬ q'.Pending t) ∧ ∀ t, ticksOf t trace = [] := by
  induction fuel generalizing w q with
  | zero => omega
  | succ fuel ih =>
    cases hj : timeAfterEq q.jiffies q.timerJiffies with
    | false =>
      exact ⟨w, q, [], by simp [runTicks, R.jiffies, R.timerJiffies, hj], R, hl, hp, fun _ => rfl⟩
    | true =>
      obtain ⟨w₁, hw₁, R₁⟩ := startTick_spec R
      have hp₁ (t : Fin N) : ¬ q.startTick.Pending t := by
        rw [Queues.pending_startTick R.sound]
        exact hp t
      have hnil := Queues.list_eq_nil hp₁ .workList
      have hn := ticksLeft_succ hj
      obtain ⟨fuel, rfl⟩ : ∃ k, fuel = k + 1 := ⟨fuel - 1, by omega⟩
      obtain ⟨w', q', trace, hr, R', hl', hp', ht⟩ := ih (R₁.forget hnil)
        (q.lock_startTick.trans hl) hp₁ (by
          rw [Queues.timerJiffies_startTick, Queues.jiffies_startTick]
          omega)
      refine ⟨w', q', (q.timerJiffies, []) :: trace, ?_, R', hl', hp', fun t => ?_⟩
      · rw [runTicks_cons (by rwa [R.jiffies, R.timerJiffies]) hw₁ (runWorkList_nil cb _ e R₁ hnil),
          hr, R.timerJiffies]
        rfl
      · rw [ticksOf_cons, ht t]
        rfl

/-- The callback of `x` takes `y` off the work list. -/
theorem runWorkList_rival {cb : Program Unit m N} (hcb : Deletes cb x y) (fuel : Nat)
    (R : Realizes true [] w q) (hw : q.list .workList = [x, y])
    (honly : ∀ t, q.Pending t → t = x ∨ t = y) :
    ∃ w' q', runWorkList cb.callbacks (fuel + 2) () w = some ((), w', [x]) ∧
      Realizes false [] w' q' ∧ q'.lock = some .worker ∧ (∀ t, ¬ q'.Pending t) ∧
      q'.timerJiffies = q.timerJiffies ∧ q'.jiffies = q.jiffies := by
  obtain ⟨w₁, hw₁, R₀⟩ := takeTimer_spec R hw
  have R₁ := R₀.spinUnlock
  obtain ⟨w₂, hw₂, R₂⟩ := exec_spec R₁ (c := .delTimer y) trivial
  have F := callFrame_exec q.takeTimer.unlock (.delTimer y)
  have hn : w₂.base.lock = none := R₂.lock.trans (F.lock rfl)
  have R₃ := Sys.Holds.realizes_locked R₂
  set q₃ : Queues m N := { (q.takeTimer.unlock.exec (.delTimer y)).1 with lock := some .worker }
  have hp (t : Fin N) : ¬ q₃.Pending t := by
    rintro ⟨b, hb⟩
    have hb : t ∈ (q.takeTimer.unlock.exec (.delTimer y)).1.list b := hb
    rw [Queues.list_delTimer, List.mem_filter, Queues.list_unlock,
      Queues.mem_takeTimer hw R.sound] at hb
    obtain ⟨⟨hb, hx⟩, hy⟩ := hb
    rcases honly t ⟨b, hb⟩ with rfl | rfl
    · exact hx rfl
    · simp at hy
  have hnil := Queues.list_eq_nil hp .workList
  refine ⟨_, q₃, ?_, R₃.forget hnil, rfl, hp, F.timerJiffies, F.jiffies⟩
  rw [runWorkList_cons (fuel + 1) (listEmpty_workList_cons R hw) hw₁ (hcb _)]
  have hlast : listEmpty (w₂.heap) (.head .workList) = true := (listEmpty_workList R₃).mpr hnil
  simp [execCalls, hw₂, spinLock, hn, runWorkList, hlast]

/-- The rivals after `n` of the `d` ticks to go, counted from `T`: they are still to be
run, `x` first, or `x` was run and nothing is left. -/
inductive Standoff (x y : Fin N) (d n : Nat) (T : ULong m) (q : Queues m N) (trace : Trace m N) :
    Prop where
  | ahead (hle : n ≤ d) (D : q.Duel x y (d - n))
      (hT : q.timerJiffies = T + BitVec.ofNat _ n) (ht : ∀ t, ticksOf t trace = [])
  | ended (hlt : d < n) (hp : ∀ t, ¬ q.Pending t) (hx : ticksOf x trace ≠ [])
      (hy : ticksOf y trace = [])

/-- A tick at which nothing is run. -/
theorem Standoff.tick {n : Nat} {T : ULong m} {trace : Trace m N}
    (h : Standoff x y d n (T + 1) q trace) :
    Standoff x y (d + 1) (n + 1) T q ((T, []) :: trace) := by
  have ht (t : Fin N) : ticksOf t ((T, []) :: trace) = ticksOf t trace := by simp [ticksOf_cons]
  cases h with
  | ahead hle D hT hn =>
    rw [← Nat.add_sub_add_right d 1 n] at D
    exact .ahead (by omega) D (hT.trans (add_one_add _ _)) fun t => by rw [ht, hn]
  | ended hlt hp hx hy => exact .ended (by omega) hp (by rwa [ht]) (by rwa [ht])

/-- The ticks of a pass. -/
theorem runTicks_rivals {cb : Program Unit m N} (hcb : Deletes cb x y) (fuel : Nat)
    (R : Realizes false [] w q) (hl : q.lock = some .worker) (D : q.Duel x y d)
    (hf : ticksLeft q.timerJiffies q.jiffies + 3 ≤ fuel) :
    ∃ w' q' trace, runTicks cb.callbacks fuel () w = some ((), w', trace) ∧
      Realizes false [] w' q' ∧ q'.lock = some .worker ∧
      Standoff x y d (ticksLeft q.timerJiffies q.jiffies) q.timerJiffies q' trace := by
  induction fuel generalizing w q d with
  | zero => omega
  | succ fuel ih =>
    cases hj : timeAfterEq q.jiffies q.timerJiffies with
    | false =>
      rw [ticksLeft_eq_zero hj]
      exact ⟨w, q, [], by simp [runTicks, R.jiffies, R.timerJiffies, hj], R, hl,
        .ahead (Nat.zero_le d) D (by simp) fun _ => rfl⟩
    | true =>
      have hn := ticksLeft_succ hj
      have hjw : timeAfterEq w.jiffies w.base.timerJiffies = true := by
        rwa [R.jiffies, R.timerJiffies]
      obtain ⟨fuel, rfl⟩ : ∃ k, fuel = k + 2 := ⟨fuel - 2, by omega⟩
      rw [← hn]
      cases d with
      | zero =>
        obtain ⟨w₁, hw₁, R₁⟩ := startTick_spec R
        obtain ⟨w₂, q₂, hw₂, R₂, hl₂, hp₂, hT₂, hJ₂⟩ := runWorkList_rival hcb fuel R₁ D.first
          fun t ht => D.only t ((Queues.pending_startTick R.sound).mp ht)
        obtain ⟨w', q', trace, hr, R', hl', hp', ht⟩ := runTicks_empty cb.callbacks (fuel + 2) ()
          R₂ hl₂ hp₂ (by
            rw [hT₂, hJ₂, Queues.timerJiffies_startTick, Queues.jiffies_startTick]
            omega)
        refine ⟨w', q', (q.timerJiffies, [x]) :: trace, ?_, R', hl', .ended (by omega) hp' ?_ ?_⟩
        · rw [runTicks_cons hjw hw₁ hw₂, hr, R.timerJiffies]
          rfl
        · simp [ticksOf_cons]
        · simp [ticksOf_cons, ht, D.ne.symm]
      | succ d =>
        obtain ⟨w₁, hw₁, R₀, R₁⟩ := D.toPair.realizes R
        have D₁ := D.startTick R.sound
        obtain ⟨w', q', trace, hr, R', hl', hs⟩ := ih R₁ (q.lock_startTick.trans hl) D₁ (by
          rw [Queues.timerJiffies_startTick, Queues.jiffies_startTick]
          omega)
        rw [Queues.timerJiffies_startTick, Queues.jiffies_startTick] at hs
        refine ⟨w', q', (q.timerJiffies, []) :: trace, ?_, R', hl', hs.tick⟩
        rw [runTicks_cons hjw hw₁ (runWorkList_nil _ _ _ R₀ (D₁.workList_nil R₀.sound)), hr,
          R.timerJiffies]
        rfl

/-! ## A continuation -/

theorem ticksLeft_le (T j : ULong m) : ticksLeft T j ≤ half m := by
  unfold ticksLeft
  split
  · next h => exact (timeAfterEq_iff _ _).mp h
  · exact Nat.zero_le _

/-- A pass with the clock at the tick of the rivals, when they are still to be run. -/
theorem runBlocks_rivals {cb : Program Unit m N} (hcb : Deletes cb x y) (n : Nat) {T : ULong m}
    {trace : Trace m N} (R : Realizes false [] w q) (hl : q.lock = none)
    (hs : Standoff x y d n T q trace) (hd : d < half m) :
    ∃ rest, runBlocks cb.callbacks (half m + 3) () w [⟨[], T + BitVec.ofNat _ d⟩] = some rest ∧
      ticksOf x (trace ++ rest) ≠ [] ∧ ticksOf y (trace ++ rest) = [] := by
  have hn : w.base.lock = none := R.lock.trans hl
  let q₁ : Queues m N := { q with jiffies := T + BitVec.ofNat _ d, lock := some .worker }
  have R₁ : Realizes false [] { w with
      jiffies := T + BitVec.ofNat _ d, base := { w.base with lock := some .worker } } q₁ :=
    ⟨R.rings, R.dead, R.null, R.expires, R.code, rfl, R.timerJiffies, rfl⟩
  have hfuel := ticksLeft_le q₁.timerJiffies q₁.jiffies
  cases hs with
  | ended hlt hp hx hy =>
    obtain ⟨w', q', rest, hr, -, -, -, ht⟩ := runTicks_empty cb.callbacks (half m + 3) () R₁ rfl hp
      (by omega)
    refine ⟨rest, ?_, ?_, ?_⟩
    · simp [runBlocks, execCalls, __runTimers, spinLock, hn, hr]
    · rwa [ticksOf_append, ht, List.append_nil]
    · rw [ticksOf_append, ht, hy, List.append_nil]
  | ahead hle D hT ht =>
    have D₁ : q₁.Duel x y (d - n) := D.congr rfl rfl rfl
    obtain ⟨w', q', rest, hr, -, -, hs⟩ := runTicks_rivals hcb (half m + 3) R₁ rfl D₁ (by omega)
    have hleft : ticksLeft q₁.timerJiffies q₁.jiffies = d - n + 1 := by
      have ha : ahead q₁.timerJiffies q₁.jiffies = d - n := by
        have hj : q₁.jiffies = q₁.timerJiffies + BitVec.ofNat _ (d - n) := by
          change T + _ = q.timerJiffies + _
          rw [hT, BitVec.add_assoc, ← BitVec.ofNat_add, Nat.add_sub_cancel' hle]
        rw [hj]
        exact ahead_self_add (by omega)
      rw [ticksLeft, if_pos ((timeAfterEq_iff _ _).mpr (by omega)), ha]
    cases hs with
    | ahead hle' => omega
    | ended hlt hp hx hy =>
      refine ⟨rest, ?_, ?_, ?_⟩
      · simp [runBlocks, execCalls, __runTimers, spinLock, hn, hr]
      · rwa [ticksOf_append, ht, List.nil_append]
      · rw [ticksOf_append, ht, hy, List.nil_append]

/-- Calls that leave two rivals only, `x` in front: `x` is run and `y` is not. -/
theorem rivals_resume {cb : Program Unit m N} (hcb : Deletes cb x y) (ho : s.ctl.open = true)
    {calls : List (Call m N)} (hw : execCalls s.world calls = some w)
    (R : Realizes s.ctl.working [] w q) (hl : q.lock = none) (D : q.Duel x y d)
    (hd : d < half m) :
    ∃ trace, s.resume cb.callbacks (half m + 3) () calls
        [⟨[], q.timerJiffies + BitVec.ofNat _ d⟩] = some trace ∧
      ticksOf x trace ≠ [] ∧ ticksOf y trace = [] := by
  obtain ⟨v, c⟩ := s
  have hv : execCalls v calls = some w := hw
  have hnil := D.workList_nil R.sound
  cases c with
  | outer | inner => cases ho
  | idle =>
    have hs : Standoff x y d 0 q.timerJiffies q [] :=
      .ahead (Nat.zero_le d) D (by simp) fun _ => rfl
    obtain ⟨rest, hr, hx, hy⟩ := runBlocks_rivals hcb 0 R hl hs hd
    exact ⟨rest, by simp only [Sys.resume, hv, Option.bind_eq_bind, Option.bind_some, hr], hx, hy⟩
  | callback t =>
    have hn : w.base.lock = none := R.lock.trans hl
    let q₁ : Queues m N := { q with lock := some .worker }
    let w₁ : World m N := { w with base := { w.base with lock := some .worker } }
    have hlock : spinLock w .worker = some w₁ := by rw [spinLock, hn]
    have R₁ : Realizes true [] w₁ q₁ := Sys.Holds.realizes_locked R
    have D₁ : q₁.Duel x y d := D.congr rfl rfl rfl
    have hleft := ticksLeft_le q₁.timerJiffies q₁.jiffies
    obtain ⟨w₂, q₂, trace, hr₂, R₂, -, hs⟩ := runTicks_rivals hcb (half m + 3) (R₁.forget hnil)
      rfl D₁ (by omega)
    have hs₂ : Standoff x y d (ticksLeft q₁.timerJiffies q₁.jiffies) q.timerJiffies q₂.unlock
        trace := by
      cases hs with
      | ahead hle D hT ht => exact .ahead hle (D.congr rfl rfl rfl) hT ht
      | ended hlt hp hx hy => exact .ended hlt hp hx hy
    obtain ⟨rest, hr, hx, hy⟩ := runBlocks_rivals hcb _ R₂.spinUnlock rfl hs₂ hd
    refine ⟨(q.timerJiffies - 1, []) :: (trace ++ rest), ?_, ?_, ?_⟩
    · have hwl := runWorkList_nil cb.callbacks (half m + 2) () R₁ hnil
      simp only [Sys.resume, hv, hlock, Option.bind_eq_bind, Option.bind_some, hwl, hr₂, hr,
        R₁.timerJiffies]
      rfl
    · simpa [ticksOf_cons] using hx
    · simpa [ticksOf_cons] using hy

/-- The same calls leave `x` in front of `y` here, and behind it there. -/
theorem not_sameRuns (hc : s.ctl = s'.ctl) (ho : s.ctl.open = true) {calls : List (Call m N)}
    (hw : execCalls s.world calls = some w) (hw' : execCalls s'.world calls = some w')
    (R : Realizes s.ctl.working [] w q) (R' : Realizes s.ctl.working [] w' q')
    (hl : q.lock = none) (hl' : q'.lock = none) (hT : q.timerJiffies = q'.timerJiffies)
    (D : q.Duel x y d) (D' : q'.Duel y x d) (hd : d < half m) : ¬ SameRuns s s' := by
  intro hS
  have hF := hS Unit (rivals x y) (half m + 3) () calls [⟨[], q.timerJiffies + BitVec.ofNat _ d⟩]
  obtain ⟨trace, hr, hx, -⟩ := rivals_resume (rivals_left x y) ho hw R hl D hd
  obtain ⟨trace', hr', -, hx'⟩ := rivals_resume (rivals_right D.ne) (hc ▸ ho) hw' (hc ▸ R') hl'
    D' hd
  rw [hr, hT, hr'] at hF
  cases hF with
  | some hF =>
    rw [ticksOf_congr hF, hx'] at hx
    exact hx rfl

/-! ## Making two timers rivals -/

theorem execCalls_append (w : World m N) (cs cs' : List (Call m N)) :
    execCalls w (cs ++ cs') = (execCalls w cs).bind (execCalls · cs') := by
  induction cs generalizing w with
  | nil => rfl
  | cons c cs ih => simp [execCalls, ih, Option.bind_assoc]

/-- `del_timer` on every timer but these. -/
def clear (ts : List (Fin N)) : List (Call m N) :=
  ((List.finRange N).filter fun t => !ts.contains t).map .delTimer

/-- Calls that leave a timer `u` at the end of the bucket for `key`, with the expiry
`e`: it is set up for `key`, and then modified. -/
def put (u : Fin N) (key e : ULong m) : List (Call m N) :=
  [.addTimer u key, .delTimer u, .modTimer u e]

section Put

variable {working : Bool}

theorem execCalls_delTimer (R : Realizes working [] w q) (hl : q.lock = none) (ts : List (Fin N)) :
    ∃ w' q', execCalls w (ts.map .delTimer) = some w' ∧ Realizes working [] w' q' ∧
      q'.lock = none ∧ q'.timerJiffies = q.timerJiffies ∧ q'.expires = q.expires ∧
      ∀ b, q'.list b = (q.list b).filter (· ∉ ts) := by
  induction ts generalizing w q with
  | nil => exact ⟨w, q, rfl, R, hl, rfl, rfl, fun b => by simp⟩
  | cons t ts ih =>
    obtain ⟨w₁, hw₁, R₁⟩ := exec_spec R (c := .delTimer t) trivial
    obtain ⟨w', q', hw', R', hl', hT', hx', hlist⟩ := ih R₁ (Sys.Holds.exec_lock _ hl)
    refine ⟨w', q', by simp [execCalls, hw₁, hw'], R', hl', hT'.trans (Queues.exec_frame _).1,
      hx'.trans (q.expires_delTimer t), fun b => ?_⟩
    rw [hlist, Queues.list_delTimer, List.filter_filter]
    refine List.filter_congr fun u _ => ?_
    by_cases h : u = t <;> simp [h]

theorem execCalls_clear (R : Realizes working [] w q) (hl : q.lock = none) (ts : List (Fin N)) :
    ∃ w' q', execCalls w (clear ts) = some w' ∧ Realizes working [] w' q' ∧
      q'.lock = none ∧ q'.timerJiffies = q.timerJiffies ∧ q'.expires = q.expires ∧
      ∀ b, q'.list b = (q.list b).filter (· ∈ ts) := by
  obtain ⟨w', q', hw', R', hl', hT', hx', hlist⟩ := execCalls_delTimer R hl
    ((List.finRange N).filter fun t => !ts.contains t)
  refine ⟨w', q', hw', R', hl', hT', hx', fun b => ?_⟩
  rw [hlist]
  refine List.filter_congr fun u _ => ?_
  simp

theorem execCalls_put (R : Realizes working [] w q) (hu : ¬ q.Pending u)
    (key e : ULong m) :
    ∃ w' q', execCalls w (put u key e) = some w' ∧ Realizes working [] w' q' ∧ q'.lock = none ∧
      q'.timerJiffies = q.timerJiffies ∧ q'.expires = Function.update q.expires u e ∧
      ∀ b, q'.list b = q.list b ++ if internalAddVec q.timerJiffies key = b then [u] else [] := by
  obtain ⟨w₁, hw₁, R₁⟩ := exec_spec R (c := .addTimer u key) hu
  obtain ⟨w₂, hw₂, R₂⟩ := exec_spec R₁ (c := .delTimer u) trivial
  obtain ⟨w₃, hw₃, R₃⟩ := exec_spec R₂ (c := .modTimer u e) trivial
  set q₂ : Queues m N := ((q.exec (.addTimer u key)).1.exec (.delTimer u)).1 with hq₂
  have hx₂ : q₂.expires = Function.update q.expires u key := by
    rw [hq₂, Queues.expires_delTimer]
    rfl
  have hT₂ : q₂.timerJiffies = q.timerJiffies :=
    (Queues.exec_frame _).1.trans (Queues.exec_frame _).1
  have hself (b : Head) : (q.list b).filter (· ≠ u) = q.list b := by
    rw [List.filter_eq_self]
    intro v hv
    have : v ≠ u := fun he => hu ⟨b, he ▸ hv⟩
    simpa using this
  have hlist (b : Head) : q₂.list b = q.list b := by
    rw [hq₂, Queues.list_delTimer, show (q.exec (.addTimer u key)).1.list b = _ from
      q.list_rearm u b key key, List.filter_append, hself, hself]
    split_ifs <;> simp
  have hq₃ : (q₂.exec (.modTimer u e)).1 = q₂.rearm u key e := by
    have hp₂ : ¬ q₂.Pending u := by
      rintro ⟨b, hb⟩
      exact hu ⟨b, hlist b ▸ hb⟩
    simp [Queues.exec, hp₂, hx₂]
  refine ⟨w₃, _, by simp [put, execCalls, hw₁, hw₂, hw₃], R₃, ?_, ?_, ?_, fun b => ?_⟩
  · rw [hq₃]
    rfl
  · rw [hq₃]
    exact hT₂
  · rw [hq₃]
    simp [Queues.rearm, hx₂]
  · rw [hq₃, Queues.list_rearm, hlist, hself, hT₂]

end Put

/-- `x` and `y` are the only pending timers, in the buckets `a` and `b`. -/
def Queues.Placed (q : Queues m N) (x : Fin N) (a : Head) (y : Fin N) (b : Head) : Prop :=
  ∀ c, q.list c = (if a = c then [x] else []) ++ if b = c then [y] else []

section Placed

variable {working : Bool} {a b : Head}

/-- Everything but `t` is deleted, and `u` is put into the bucket for `key`. -/
theorem exists_placed (R : Realizes working [] w q) (hl : q.lock = none) (ht : t ∈ q.list a)
    (hu : u ≠ t) (key e : ULong m) :
    ∃ w' q', execCalls w (clear [t] ++ put u key e) = some w' ∧ Realizes working [] w' q' ∧
      q'.lock = none ∧ q'.timerJiffies = q.timerJiffies ∧
      q'.expires = Function.update q.expires u e ∧
      q'.Placed t a u (internalAddVec q.timerJiffies key) := by
  obtain ⟨w₁, q₁, hw₁, R₁, hl₁, hT₁, hx₁, hlist₁⟩ := execCalls_clear R hl [t]
  have hp : ¬ q₁.Pending u := by
    rintro ⟨b, hb⟩
    rw [hlist₁] at hb
    exact hu (by simpa using (List.mem_filter.mp hb).2)
  obtain ⟨w', q', hw', R', hl', hT', hx', hlist'⟩ := execCalls_put R₁ hp key e
  refine ⟨w', q', by rw [execCalls_append, hw₁, Option.bind_some, hw'], R', hl', hT'.trans hT₁,
    by rw [hx', hx₁], fun c => ?_⟩
  have honly : (q.list c).filter (· ∈ [t]) = if a = c then [t] else [] := by
    split_ifs with hc
    · subst hc
      refine List.perm_singleton.mp ((List.perm_ext_iff_of_nodup ((R.nodup _).filter _)
        (List.nodup_singleton t)).mpr fun v => ?_)
      simp only [List.mem_filter, List.mem_singleton, decide_eq_true_eq]
      exact ⟨fun h => h.2, fun h => ⟨h ▸ ht, h⟩⟩
    · rw [List.filter_eq_nil_iff]
      intro v hv hvt
      have hvt : v = t := by simpa using hvt
      exact hc (R.unique ht (hvt ▸ hv))
  rw [hlist', hlist₁, hT₁, honly]

theorem Queues.Placed.pair (P : q.Placed x a y b) (hne : x ≠ y) (hx : q.Due x d)
    (hy : q.Due y d) : q.Pair x y d := by
  refine ⟨hne, hx, hy, ?_⟩
  rintro t ⟨c, hc⟩
  rw [P c] at hc
  rcases List.mem_append.mp hc with hc | hc
  · exact .inl (by split_ifs at hc <;> simp_all)
  · exact .inr (by split_ifs at hc <;> simp_all)

end Placed

/-! ## Where programs see a difference -/

/-- Two rivals in memory. -/
structure Rivals (working : Bool) (w : World m N) (q : Queues m N) (x y : Fin N) (d : Nat) :
    Prop where
  realizes : Realizes working [] w q
  idle : Realizes false [] w q
  lock : q.lock = none
  pair : q.Pair x y d

section Put

variable {working : Bool} {tv tv' : Tv} {i i' : Nat}

/-- A timer that is put into a bucket with the expiry of `t` is its rival, if it is run
at the same tick. -/
theorem exists_rivals (R : Realizes working [] w q) (hl : q.lock = none)
    (ht : t ∈ q.list (.vec tv i)) (hu : u ≠ t) (hd : dueIn q.timerJiffies tv i (q.expires t) = d)
    {key : ULong m} (hkey : internalAddVec q.timerJiffies key = .vec tv' i')
    (hd' : dueIn q.timerJiffies tv' i' (q.expires t) = d) :
    ∃ w' q', execCalls w (clear [t] ++ put u key (q.expires t)) = some w' ∧
      Rivals working w' q' t u d ∧ q'.timerJiffies = q.timerJiffies ∧
      q'.expires = Function.update q.expires u (q.expires t) ∧
      q'.Placed t (.vec tv i) u (.vec tv' i') := by
  obtain ⟨w', q', hw, R', hl', hT, hx, P⟩ := exists_placed R hl ht hu key (q.expires t)
  rw [hkey] at P
  have hpair : q'.Pair t u d := by
    refine P.pair hu.symm ⟨tv, i, ?_, ?_⟩ ⟨tv', i', ?_, ?_⟩
    · rw [P, if_pos rfl]
      exact List.mem_append_left _ (List.mem_singleton_self t)
    · rw [hT, hx, Function.update_of_ne hu.symm, hd]
    · rw [P, if_pos rfl]
      exact List.mem_append_right _ (List.mem_singleton_self u)
    · rw [hT, hx, Function.update_self, hd']
  exact ⟨w', q', hw, ⟨R', hpair.idle R', hl', hpair⟩, hT, hx, P⟩

end Put

/-- In one bucket the timer that was there before the other is run first. -/
theorem Queues.Placed.duel {working : Bool} {b : Head} (P : q.Placed x b y b)
    (hr : Rivals working w q x y d) : q.Duel x y d := by
  refine ⟨hr.pair, Queues.runOf_of_precedes (b := b) hr.pair hr.idle ?_⟩
  rw [P b, if_pos rfl, if_pos rfl]
  exact List.Sublist.refl _

/-- Exchanging the timers exchanges the buckets. -/
theorem Queues.Placed.renamed {a b : Head} (hab : a ≠ b) (P : q.Placed x a y b)
    (P' : q'.Placed x b y a) (hT : q'.timerJiffies = q.timerJiffies)
    (hx : q'.expires = q.expires) (he : q.expires x = q.expires y) :
    Renamed (Equiv.swap x y) q q' := by
  refine ⟨hT, fun t => ?_, fun c => ?_⟩
  · rw [hx]
    rcases eq_or_ne t x with rfl | htx
    · rw [Equiv.swap_apply_left, he]
    rcases eq_or_ne t y with rfl | hty
    · rw [Equiv.swap_apply_right, he]
    · rw [Equiv.swap_apply_of_ne_of_ne htx hty]
  · rw [P c, P' c]
    rcases eq_or_ne a c with rfl | hac
    · simp [hab.symm]
    · rcases eq_or_ne b c with rfl | hbc
      · simp [hac]
      · simp [hac, hbc]

section Difference

variable {w₁ w₂ : World m N} {q₁ q₂ : Queues m N} {c : Ctl N} {a b : Head}
  (H₁ : Sys.Holds ⟨w₁, c⟩ q₁) (H₂ : Sys.Holds ⟨w₂, c⟩ q₂) (ho : c.open = true)
  (hT : q₁.timerJiffies = q₂.timerJiffies)

include H₁ H₂ ho hT

/-- With another timer there, programs see in which bucket `t` is, if it is run at the
same tick in both. -/
theorem bucket_of_sameRuns (hx : q₁.expires = q₂.expires) {tv tv' : Tv} {i i' : Nat}
    (ha : t ∈ q₁.list (.vec tv i)) (hb : t ∈ q₂.list (.vec tv' i'))
    (hfile : q₂.file t = .vec tv' i')
    (hda : dueIn q₁.timerJiffies tv i (q₁.expires t) = d)
    (hdb : dueIn q₂.timerJiffies tv' i' (q₂.expires t) = d) (hd : d < half m) (hu : u ≠ t)
    (h : SameRuns ⟨w₁, c⟩ ⟨w₂, c⟩) : Head.vec tv i = .vec tv' i' := by
  by_contra hab
  have hl : c.lock = none := if_pos ho
  have R₁ : Realizes c.working [] w₁ q₁ := H₁.realizes
  have R₂ : Realizes c.working [] w₂ q₂ := H₂.realizes
  have hfile₁ : internalAddVec q₁.timerJiffies (q₁.expires t) = .vec tv' i' := by
    rw [hT, hx]
    exact hfile
  -- behind `t` in its bucket of the second wheel, `u` is run last, so it is in the first one too
  obtain ⟨v₁, p₁, hv₁, S₁, hT₁, hx₁, P₁⟩ := exists_rivals R₁ (H₁.lock.trans hl) ha hu hda hfile₁
    (by rwa [hT, hx])
  obtain ⟨v₂, p₂, hv₂, S₂, hT₂, hx₂, P₂⟩ := exists_rivals R₂ (H₂.lock.trans hl) hb hu hdb hfile hdb
  rw [hx] at hv₁ hx₁
  rw [hT] at hT₁
  have D₁ : p₁.Duel t u d := by
    rcases S₁.pair.duel S₁.idle with D | D
    · exact D
    · exact absurd h (not_sameRuns rfl ho hv₁ hv₂ S₁.realizes S₂.realizes S₁.lock S₂.lock
        (hT₁.trans hT₂.symm) D (P₂.duel S₂) hd)
  have hep : p₁.expires t = p₁.expires u := by
    rw [hx₁, Function.update_of_ne hu.symm, Function.update_self]
  by_cases hturn : tv ≠ .tv1 ∧ wait q₂.timerJiffies tv i = 0
  · -- the next tick of the first wheel files `t` behind `u`
    have hft : p₁.file t = .vec tv' i' := by
      rw [Queues.file, hT₁, hx₁, Function.update_of_ne hu.symm]
      exact hfile
    have hlast := Queues.runOf_of_turns (b := .vec tv i) S₁.pair.symm S₁.idle
      (by rw [hft, P₁, if_neg hab, if_pos rfl]; simp)
      (by rw [P₁, if_pos rfl]; simp)
      (by rw [Queues.file, Queues.file, hep])
      (by rw [hT₁]; exact hturn) (by rwa [hft])
    rw [D₁.first] at hlast
    exact hu (List.cons.inj hlast).1.symm
  · -- behind `t` in its bucket of the first wheel; the second one is the first one above with
    -- `t` and `u` exchanged
    obtain ⟨key, hkey⟩ := exists_file q₂.timerJiffies (R₁.sound.lt ha) fun htv hw => hturn ⟨htv, hw⟩
    obtain ⟨v₃, p₃, hv₃, S₃, hT₃, hx₃, P₃⟩ := exists_rivals R₁ (H₁.lock.trans hl) ha hu hda
      (by rw [hT]; exact hkey) hda
    obtain ⟨v₄, p₄, hv₄, S₄, hT₄, hx₄, P₄⟩ := exists_rivals R₂ (H₂.lock.trans hl) hb hu hdb hkey
      (by rwa [hT, hx] at hda)
    rw [hx] at hv₃
    rw [hT] at hT₃
    have hren := P₁.renamed hab P₄ (hT₄.trans hT₁.symm) (hx₄.trans hx₁.symm) hep
    have D₄ : p₄.Duel u t d := by
      refine ⟨S₄.pair.symm, ?_⟩
      rw [hren.runOf, D₁.first]
      simp
    exact absurd h (not_sameRuns rfl ho hv₃ hv₄ S₃.realizes S₄.realizes S₃.lock S₄.lock
      (hT₃.trans hT₄.symm) (P₃.duel S₃) D₄ hd)

/-- Programs see whether `t` is before or behind a timer of its bucket that is run at
the same tick. -/
theorem order_of_sameRuns (hne : t ≠ u) (ht : q₁.Due t d) (hu : q₁.Due u d) (ht' : q₂.Due t d)
    (hu' : q₂.Due u d) (hd : d < half m) (h₁ : [t, u].Sublist (q₁.list b))
    (h₂ : [u, t].Sublist (q₂.list b)) : ¬ SameRuns ⟨w₁, c⟩ ⟨w₂, c⟩ := by
  have hl : c.lock = none := if_pos ho
  have keep {w : World m N} {q : Queues m N} {x y : Fin N} (R : Realizes c.working [] w q)
      (hl : q.lock = none) (hne : x ≠ y) (hxy : ∀ v, v ∈ [x, y] ↔ v ∈ [t, u]) (hx : q.Due x d)
      (hy : q.Due y d) (h : [x, y].Sublist (q.list b)) :
      ∃ w' q', execCalls w (clear [t, u]) = some w' ∧ Realizes c.working [] w' q' ∧
        q'.lock = none ∧ q'.timerJiffies = q.timerJiffies ∧ q'.Duel x y d := by
    obtain ⟨w', q', hw, R', hl', hT, hx', hlist⟩ := execCalls_clear R hl [t, u]
    have hdue {v : Fin N} (hv : v ∈ [x, y]) (hd : q.Due v d) : q'.Due v d := by
      obtain ⟨tv, i, hm, hd⟩ := hd
      refine ⟨tv, i, ?_, by rw [hT, hx', hd]⟩
      rw [hlist]
      exact List.mem_filter.mpr ⟨hm, by simpa using (hxy v).mp hv⟩
    have P : q'.Pair x y d := by
      refine ⟨hne, hdue (by simp) hx, hdue (by simp) hy, ?_⟩
      rintro v ⟨b, hv⟩
      rw [hlist] at hv
      have := (hxy v).mpr (by simpa using (List.mem_filter.mp hv).2)
      simpa using this
    refine ⟨w', q', hw, R', hl', hT, P, Queues.runOf_of_precedes (b := b) P (P.idle R') ?_⟩
    have hself : [x, y].filter (· ∈ [t, u]) = [x, y] := by
      rw [List.filter_eq_self]
      intro v hv
      simpa using (hxy v).mp hv
    rw [hlist, ← hself]
    exact h.filter _
  obtain ⟨v₁, p₁, hv₁, S₁, hl₁, hT₁, D₁⟩ :=
    keep H₁.realizes (H₁.lock.trans hl) hne (fun _ => Iff.rfl) ht hu h₁
  obtain ⟨v₂, p₂, hv₂, S₂, hl₂, hT₂, D₂⟩ :=
    keep H₂.realizes (H₂.lock.trans hl) hne.symm (fun v => by simp [or_comm]) hu' ht' h₂
  exact not_sameRuns rfl ho hv₁ hv₂ S₁ S₂ hl₁ hl₂ (hT₁.trans (hT.trans hT₂.symm)) D₁ D₂ hd

end Difference

end Uki
