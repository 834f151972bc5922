import Uki.Timer.OnTime
import Uki.Timer.Terminate
import Uki.Jiffies.Clock

/-!
# The worker thread and the clock

`init_timers` and `jiffies_worker` read the clock. Readings do not go back, but the
worker may be late by any number of ticks, and its clients call the wheel meanwhile.

Results:
1. `jiffies_worker_runs`: the worker does not stop, and it processes the ticks from
   the one at `init_timers` to that of its last reading, each once and in order.
2. `timer_runs_in_first_pass`: a timer is run in the first pass that finds the clock
   at its tick or later.
3. `timers_stop_after_last_jiffy`: on 32 bits no timer is run once `jiffies` has
   stalled, after 124 days.
-/

set_option linter.style.nameCheck false

namespace Uki

variable {m : LongModel} {N : Nat} {q q' : Queues m N} {s s' s₀ s₁ s₂ : Sys m N} {t : Fin N}
  {w : World m N} {ev ev' : List (Event m N)}

/-! ## `init_timers` and `jiffies_worker` -/

/-- `static bool initialized = false`. Nothing sets it. -/
def initialized : Bool := false

/-- `ti` is what `clock_gettime` yields, unless it fails. -/
def initTimers (w : World m N) (ti : Option (Reading m)) : Option (World m N) := do
  if initialized then none
  let ti ← ti
  some (initTimersUki { w with jiffies := timeToJiffies ti.toTimespec })

/-- What the clients call while the worker sleeps, and what the clock yields then. -/
structure Turn (m : LongModel) (N : Nat) where
  calls : List (Call m N)
  ti : Option (Reading m)

/-- The turns of `while (true)` in `jiffies_worker`, with the ticks it processes. -/
def jiffiesWorker {σ : Type} (cb : Callbacks σ m N) (fuel : Nat) :
    σ → World m N → List (Turn m N) →
      Option (σ × World m N × List (ULong m × List (Fin N)))
  | e, w, [] => some (e, w, [])
  | e, w, turn :: turns => do
    let w ← execCalls w turn.calls
    let ti ← turn.ti
    let (e, w, trace) ← __runTimers cb fuel e { w with jiffies := timeToJiffies ti.toTimespec }
    let (e, w, rest) ← jiffiesWorker cb fuel e w turns
    some (e, w, trace ++ rest)

/-- Memory with every timer set up, before `init_timers`. -/
def setupTimers (memory : Heap (Node N)) (setup : Fin N → TimerSetup m) : World m N :=
  (List.finRange N).foldl (fun w t => setupTimerKey w t (setup t).function (setup t).data)
    { heap := memory
      timer := fun t => ⟨(setup t).expires, none, 0, ukiTvecBase⟩
      base := ⟨none, 0, 0⟩
      jiffies := 0 }

/-! ## Readings -/

namespace Reading

/-- `jiffies` at a reading, up to the end of the first period. -/
def jiffy (r : Reading m) : Nat := min r.ticks (lastJiffy m)

theorem toNat_timeToJiffies_of_lt {r : Reading m} (h : r.jiffy < jiffyPeriod) :
    (timeToJiffies r.toTimespec).toNat = r.jiffy := by
  rw [toNat_timeToJiffies]
  exact Nat.mod_eq_of_lt h

theorem jiffy_mono {r r' : Reading m} (h : r.nsecs ≤ r'.nsecs) : r.jiffy ≤ r'.jiffy := by
  refine min_le_min_right _ ?_
  exact Nat.div_le_div_right (Nat.sub_le_sub_right (Nat.add_le_add_right h _) _)

end Reading

/-- In the first half of their range, `ULong`s are compared as numbers. -/
theorem ticksLeft_of_le {T j : ULong m} (hj : j.toNat < half m) (h : T.toNat ≤ j.toNat + 1) :
    ticksLeft T j = j.toNat + 1 - T.toNat := by
  have hm := two_half m
  rcases Nat.lt_or_ge j.toNat T.toNat with hlt | hle
  · have ha : ahead T j = 2 * half m - 1 := by
      have hT : T = j + 1 := by
        refine BitVec.eq_of_toNat_eq ?_
        rw [toNat_succ_mod, Nat.mod_eq_of_lt (by omega)]
        omega
      rw [hT, ahead_succ_self]
    have hf : timeAfterEq j T = false := by
      rw [← Bool.not_eq_true, timeAfterEq_iff, ha]
      omega
    rw [ticksLeft_eq_zero hf]
    omega
  · have ha : ahead T j = j.toNat - T.toNat := BitVec.toNat_sub_of_le hle
    have ht : timeAfterEq j T = true := by
      rw [timeAfterEq_iff, ha]
      omega
    rw [ticksLeft, ht, if_pos rfl, ha]
    omega

theorem toNat_ticksFrom {T : ULong m} {k : Nat} (h : T.toNat + k ≤ 2 ^ m.bits) :
    (ticksFrom T k).map BitVec.toNat = List.range' T.toNat k := by
  rw [ticksFrom, List.map_map, List.range'_eq_map_range]
  refine List.map_congr_left fun i hi => ?_
  have hik : i < 2 ^ m.bits := by
    have := List.mem_range.mp hi
    omega
  have hsum : T.toNat + i < 2 ^ m.bits := by
    have := List.mem_range.mp hi
    omega
  rw [Function.comp_apply, BitVec.toNat_add, BitVec.toNat_ofNat, Nat.mod_eq_of_lt hik,
    Nat.mod_eq_of_lt hsum]

/-- `jiffies` is below half of its range, so `timer_jiffies` does not wrap either. -/
theorem toNat_add_ticksLeft {T j : ULong m} (hj : j.toNat < half m) (h : T.toNat ≤ j.toNat + 1) :
    (T + BitVec.ofNat _ (ticksLeft T j)).toNat = j.toNat + 1 := by
  have hm := two_half m
  have hle := le_half m
  rw [ticksLeft_of_le hj h, BitVec.toNat_add, BitVec.toNat_ofNat,
    Nat.mod_eq_of_lt (show j.toNat + 1 - T.toNat < 2 ^ m.bits by omega),
    Nat.mod_eq_of_lt (show T.toNat + (j.toNat + 1 - T.toNat) < 2 ^ m.bits by omega)]
  omega

/-! ## The worker does not stop -/

section Worker

variable {σ : Type} {cb : Callbacks σ m N}

/-- A whole pass. -/
theorem __runTimers_pass (R : Realizes false [] w q) (hl : q.lock = none) {j : ULong m} {e : σ}
    {fuel : Nat} (hcb : PassAllowed cb fuel e { w with jiffies := j })
    (hf : ticksLeft q.timerJiffies j + N + 2 ≤ fuel) :
    ∃ e' w' q' trace, __runTimers cb fuel e { w with jiffies := j } = some (e', w', trace) ∧
      Realizes false [] w' q' ∧ q'.lock = none ∧
      trace.map Prod.fst = ticksFrom q.timerJiffies (ticksLeft q.timerJiffies j) ∧
      q'.timerJiffies = q.timerJiffies + BitVec.ofNat _ (ticksLeft q.timerJiffies j) := by
  have R₁ : Realizes false []
      { w with jiffies := j, base := { w.base with lock := some .worker } } (q.wake j) :=
    ⟨R.rings, R.dead, R.null, R.expires, R.code, rfl, R.timerJiffies, rfl⟩
  have hlock : spinLock { w with jiffies := j } .worker =
      some { w with jiffies := j, base := { w.base with lock := some .worker } } := by
    simp [spinLock, R.lock.trans hl]
  obtain ⟨e', w', q', trace, hr, R', hfst, hT'⟩ := runTicks_total (hcb _ hlock) R₁ rfl hf
  refine ⟨e', spinUnlock w', q'.unlock, trace, ?_, R'.spinUnlock, rfl, hfst, hT'⟩
  simp [__runTimers, hlock, hr]

/-- Neither a client nor a callback of the worker calls `add_timer` on a timer that is
pending then. -/
def TurnsAllowed (cb : Callbacks σ m N) (fuel : Nat) : σ → World m N → List (Turn m N) → Prop
  | _, _, [] => True
  | e, w, turn :: turns => CallsAllowed w turn.calls ∧
      ∀ w₁ ∈ execCalls w turn.calls, ∀ ti ∈ turn.ti,
        PassAllowed cb fuel e { w₁ with jiffies := timeToJiffies ti.toTimespec } ∧
          ∀ r ∈ __runTimers cb fuel e { w₁ with jiffies := timeToJiffies ti.toTimespec },
            TurnsAllowed cb fuel r.1 r.2.1 turns

instance decidableTurnsAllowed (cb : Callbacks σ m N) (fuel : Nat) (e : σ) (w : World m N)
    (turns : List (Turn m N)) : Decidable (TurnsAllowed cb fuel e w turns) :=
  match turns with
  | [] => isTrue trivial
  | turn :: turns =>
    have (e : σ) (w : World m N) := decidableTurnsAllowed cb fuel e w turns
    inferInstanceAs (Decidable (_ ∧ ∀ w₁ ∈ execCalls w turn.calls, ∀ ti ∈ turn.ti, _ ∧ _))

theorem jiffy_le_last {r : Reading m} {rs : List (Reading m)}
    (h : (r :: rs).Pairwise fun a b => a.nsecs ≤ b.nsecs) : r.jiffy ≤ (rs.getLastD r).jiffy := by
  rcases List.mem_cons.mp (List.getLastD_mem_cons (l := rs) (a := r)) with he | hm
  · rw [he]
  · exact Reading.jiffy_mono (List.rel_of_pairwise_cons h hm)

/-- From the tick `timer_jiffies` on, after a reading `c`. -/
theorem jiffiesWorker_total {fuel : Nat} {rs : List (Reading m)} {turns : List (Turn m N)}
    {c : Reading m} {e : σ}
    (R : Realizes false [] w q) (hl : q.lock = none) (hrs : turns.map Turn.ti = rs.map some)
    (hmono : (c :: rs).Pairwise fun a b => a.nsecs ≤ b.nsecs)
    (hperiod : ∀ r ∈ rs, r.jiffy < jiffyPeriod) (hcalls : TurnsAllowed cb fuel e w turns)
    (hT : q.timerJiffies.toNat ≤ c.jiffy + 1)
    (hf : ∀ r ∈ rs, r.jiffy + 1 - q.timerJiffies.toNat + N + 2 ≤ fuel) :
    ∃ e' w' trace, jiffiesWorker cb fuel e w turns = some (e', w', trace) ∧
      trace.map (fun p => p.1.toNat) = List.range' q.timerJiffies.toNat
        (if rs = [] then 0 else (rs.getLastD c).jiffy + 1 - q.timerJiffies.toNat) := by
  induction rs generalizing turns c e w q with
  | nil =>
    obtain rfl : turns = [] := by simpa using hrs
    exact ⟨e, w, [], rfl, rfl⟩
  | cons r rs ih =>
    obtain ⟨turn, turns, rfl, hti, hrs⟩ := List.map_eq_cons_iff.mp hrs
    obtain ⟨w₁, q₁, hw₁, R₁, F⟩ := execCalls_total R hcalls.1
    have hr := hperiod r List.mem_cons_self
    have hj : (timeToJiffies r.toTimespec).toNat = r.jiffy :=
      Reading.toNat_timeToJiffies_of_lt hr
    have hcr : c.jiffy ≤ r.jiffy :=
      Reading.jiffy_mono (List.rel_of_pairwise_cons hmono List.mem_cons_self)
    have hlast : r.jiffy ≤ (rs.getLastD r).jiffy := jiffy_le_last hmono.of_cons
    have hhalf := r.timeToJiffies_lt_half
    have hfr := hf r List.mem_cons_self
    have hleft : ticksLeft q.timerJiffies (timeToJiffies r.toTimespec) =
        r.jiffy + 1 - q.timerJiffies.toNat := by
      rw [ticksLeft_of_le hhalf (by omega), hj]
    have hend : (q.timerJiffies + BitVec.ofNat _ (ticksLeft q.timerJiffies
        (timeToJiffies r.toTimespec))).toNat = r.jiffy + 1 := by
      rw [toNat_add_ticksLeft hhalf (by omega), hj]
    have hfuel : ticksLeft q₁.timerJiffies (timeToJiffies r.toTimespec) + N + 2 ≤ fuel := by
      rw [F.timerJiffies, hleft]
      exact hfr
    obtain ⟨hpass, hnext⟩ := hcalls.2 w₁ hw₁ r hti
    obtain ⟨e₂, w₂, q₂, trace, hp, R₂, hl₂, hfst, hT₂⟩ :=
      __runTimers_pass R₁ (F.lock hl) hpass hfuel
    rw [F.timerJiffies] at hfst hT₂
    rw [← hT₂] at hend
    obtain ⟨e', w', rest, hrest, htrace⟩ := ih R₂ hl₂ hrs hmono.of_cons
      (fun r' hm => hperiod r' (List.mem_cons_of_mem _ hm))
      (hnext _ hp) hend.le fun r' hm => by
        have := hf r' (List.mem_cons_of_mem _ hm)
        omega
    refine ⟨e', w', trace ++ rest, by simp [jiffiesWorker, hw₁, hti, hp, hrest], ?_⟩
    have hticks : trace.map (fun p => p.1.toNat) =
        List.range' q.timerJiffies.toNat (r.jiffy + 1 - q.timerJiffies.toNat) := by
      have hmap : trace.map (fun p => p.1.toNat) = (trace.map Prod.fst).map BitVec.toNat := by simp
      have hm := two_half m
      have hle := le_half m
      rw [hmap, hfst, hleft, toNat_ticksFrom (by omega)]
    have happ (n : Nat) : List.range' q.timerJiffies.toNat (r.jiffy + 1 - q.timerJiffies.toNat) ++
        List.range' (r.jiffy + 1) n =
          List.range' q.timerJiffies.toNat (r.jiffy + 1 - q.timerJiffies.toNat + n) := by
      have hsplit : q.timerJiffies.toNat + (r.jiffy + 1 - q.timerJiffies.toNat) = r.jiffy + 1 := by
        omega
      rw [← List.range'_append_1, hsplit]
    rw [List.map_append, hticks, htrace, hend, happ, if_neg (List.cons_ne_nil r rs),
      List.getLastD_cons]
    congr 1
    split
    · next hnil => simp [hnil]
    · omega

end Worker

/-- The clock is stored before the heads are initialised. -/
theorem initTimers_setupTimers (memory : Heap (Node N)) (setup : Fin N → TimerSetup m)
    (c : Reading m) : initTimers (setupTimers memory setup) (some c) =
      some (boot memory setup (timeToJiffies c.toTimespec)).world := by
  have stores (ts : List (Fin N)) (w : World m N) (j : ULong m) :
      ts.foldl (fun w t => setupTimerKey w t (setup t).function (setup t).data)
        { w with jiffies := j } =
      { ts.foldl (fun w t => setupTimerKey w t (setup t).function (setup t).data) w with
        jiffies := j } := by
    induction ts generalizing w with
    | nil => rfl
    | cons t ts ih => exact ih (setupTimerKey w t (setup t).function (setup t).data)
  simp only [initTimers, initialized, boot, setupTimers, ← stores]
  rfl

/-- From `init_timers` on the worker processes every tick from the first reading of the
clock to the last one, once and in order, as long as nobody calls `add_timer` on a pending
timer. -/
theorem jiffies_worker_runs {σ : Type} {cb : Callbacks σ m N} (memory : Heap (Node N))
    (setup : Fin N → TimerSetup m) {c : Reading m} {rs : List (Reading m)}
    (hmono : (c :: rs).Pairwise fun a b => a.nsecs ≤ b.nsecs)
    (hperiod : ∀ r ∈ c :: rs, r.jiffy < jiffyPeriod) {turns : List (Turn m N)}
    (hrs : turns.map Turn.ti = rs.map some) {fuel : Nat}
    (hf : (rs.getLastD c).jiffy + 1 - c.jiffy + N + 2 ≤ fuel) (e : σ)
    (hcalls : ∀ w, initTimers (setupTimers memory setup) (some c) = some w →
      TurnsAllowed cb fuel e w turns) :
    ∃ w e' w' trace, initTimers (setupTimers memory setup) (some c) = some w ∧
      jiffiesWorker cb fuel e w turns = some (e', w', trace) ∧
      trace.map (fun p => p.1.toNat) =
        List.range' c.jiffy (if rs = [] then 0 else (rs.getLastD c).jiffy + 1 - c.jiffy) := by
  have hw := initTimers_setupTimers memory setup c
  have H := boot_holds memory setup (timeToJiffies c.toTimespec)
  have hT : (Queues.boot setup (timeToJiffies c.toTimespec)).timerJiffies.toNat = c.jiffy :=
    Reading.toNat_timeToJiffies_of_lt (hperiod c List.mem_cons_self)
  have hlast (r : Reading m) (hr : r ∈ rs) : r.jiffy ≤ (rs.getLastD c).jiffy := by
    obtain ⟨A, B, rfl⟩ := List.append_of_mem hr
    have hB : (r :: B).Pairwise fun a b => a.nsecs ≤ b.nsecs :=
      (List.pairwise_append.mp (List.pairwise_cons.mp hmono).2).2.1
    have hl : ((A ++ r :: B).getLastD c) = B.getLastD r := by
      rw [List.getLastD_eq_getLast?, List.getLastD_eq_getLast?, List.getLast?_append,
        List.getLast?_cons]
      simp
    rw [hl]
    exact jiffy_le_last hB
  obtain ⟨e', w', trace, hr, htrace⟩ := jiffiesWorker_total H.realizes H.lock hrs hmono
    (fun r hm => hperiod r (List.mem_cons_of_mem _ hm)) (hcalls _ hw) (by rw [hT]; omega)
    fun r hm => by
      have := hlast r hm
      rw [hT]
      omega
  rw [hT] at htrace
  exact ⟨_, e', w', trace, hw, hr, htrace⟩

/-- The worker is late once. A client starts the first of two timers that start each
other. -/
theorem jiffies_worker_runs_test1 :
    ∃ c r₁ r₂ : Reading .long32, c.toTimespec = ⟨0, 0⟩ ∧ r₁.toTimespec = ⟨0, 5⟩ ∧
      r₂.toTimespec = ⟨0, 30000000⟩ ∧ ∃ w e' w' trace,
        initTimers (setupTimers (N := 2) (fun _ => ⟨.null, .null⟩) (fun _ => ⟨0, 1, 2⟩))
          (some c) = some w ∧
        jiffiesWorker (fun (e : Unit) w t => (e, [.addTimer (1 - t) (w.jiffies - 1)])) 8 () w
          [⟨[], some r₁⟩, ⟨[.addTimer 0 2], some r₂⟩] = some (e', w', trace) ∧
        trace.map (fun p => p.1.toNat) = [0, 1, 2, 3] := by
  let c : Reading .long32 := ⟨⟨0, 0⟩, by decide, by decide, by decide⟩
  let r₁ : Reading .long32 := ⟨⟨0, 5⟩, by decide, by decide, by decide⟩
  let r₂ : Reading .long32 := ⟨⟨0, 30000000⟩, by decide, by decide, by decide⟩
  let cb : Callbacks Unit .long32 2 := fun e w t => (e, [.addTimer (1 - t) (w.jiffies - 1)])
  let turns : List (Turn .long32 2) := [⟨[], some r₁⟩, ⟨[.addTimer 0 2], some r₂⟩]
  have hmono : [c, r₁, r₂].Pairwise fun a b => a.nsecs ≤ b.nsecs := by decide
  have hperiod : ∀ r ∈ [c, r₁, r₂], r.jiffy < jiffyPeriod := by decide
  have hf : ([r₁, r₂].getLastD c).jiffy + 1 - c.jiffy + 2 + 2 ≤ 8 := by decide
  have hcalls : ∀ w ∈ initTimers (setupTimers (N := 2) (fun _ => ⟨.null, .null⟩)
      (fun _ => ⟨0, 1, 2⟩)) (some c), TurnsAllowed cb 8 () w turns := by
    decide +kernel
  have hticks : List.range' c.jiffy (([r₁, r₂].getLastD c).jiffy + 1 - c.jiffy) = [0, 1, 2, 3] := by
    decide
  obtain ⟨w, e', w', trace, hw, hr, htrace⟩ := jiffies_worker_runs (fun _ => ⟨.null, .null⟩)
    (fun _ => ⟨0, 1, 2⟩) hmono hperiod rfl hf () hcalls
  rw [if_neg (List.cons_ne_nil _ _), hticks] at htrace
  exact ⟨c, r₁, r₂, rfl, rfl, rfl, w, e', w', trace, hw, hr, htrace⟩

/-! ## Runs on a clock -/

/-- What the worker stores in `jiffies`. -/
def wakes (as : List (Act m N)) : List (ULong m) :=
  as.filterMap fun
    | .wake j => some j
    | _ => none

/-- After a reading `c` the worker takes the readings `rs`. They do not go back, and `period`
says that they all come before `jiffies` start again at 0, which they do after 2^39 ticks
with a 64 bit long, and never with a 32 bit long. -/
structure OnClock (c : Reading m) (rs : List (Reading m)) (as : List (Act m N)) : Prop where
  wakes : wakes as = rs.map fun r => timeToJiffies r.toTimespec
  mono : (c :: rs).Pairwise fun a b => a.nsecs ≤ b.nsecs
  period : ∀ r ∈ c :: rs, r.jiffy < jiffyPeriod

/-- Where the wheel is when the last reading was `r`. -/
structure Clocked (r : Reading m) (woken : Prop) (q : Queues m N) (c : Ctl N) : Prop where
  jiffies : q.jiffies.toNat = r.jiffy
  le : q.timerJiffies.toNat ≤ r.jiffy + 1
  idle : woken → c = .idle → q.timerJiffies.toNat = r.jiffy + 1

theorem iters_append (ev ev' : List (Event m N)) : iters (ev ++ ev') = iters ev ++ iters ev' :=
  List.filterMap_append

theorem iters_iter (T : ULong m) (ev : List (Event m N)) :
    iters (.iter T :: ev) = T :: iters ev := rfl

theorem mem_iters {T : ULong m} : T ∈ iters ev ↔ .iter T ∈ ev := by
  simp only [iters, List.mem_filterMap]
  constructor
  · rintro ⟨e, he, hT⟩
    cases e with
    | iter T' =>
      cases hT
      exact he
    | fire | ret => cases hT
  · exact fun h => ⟨_, h, rfl⟩

/-- From `q` to `q'` the ticks in `ev` were processed, each once and in order. -/
def Ticked (q q' : Queues m N) (ev : List (Event m N)) : Prop :=
  ∃ k, (iters ev).map BitVec.toNat = List.range' q.timerJiffies.toNat k ∧
    q'.timerJiffies.toNat = q.timerJiffies.toNat + k

theorem ticked_of_eq (hev : iters ev = []) (hT : q'.timerJiffies = q.timerJiffies) :
    Ticked q q' ev := ⟨0, by rw [hev]; rfl, by rw [hT]; rfl⟩

theorem Ticked.append {q'' : Queues m N} (h : Ticked q q' ev) (h' : Ticked q' q'' ev') :
    Ticked q q'' (ev ++ ev') := by
  obtain ⟨k, hk, hT⟩ := h
  obtain ⟨k', hk', hT'⟩ := h'
  refine ⟨k + k', ?_, by omega⟩
  rw [iters_append, List.map_append, hk, hk', hT, List.range'_append_1]

theorem Ticked.mem_iff (h : Ticked q q' ev) (T : ULong m) :
    .iter T ∈ ev ↔
      q.timerJiffies.toNat ≤ T.toNat ∧ T.toNat < q'.timerJiffies.toNat := by
  obtain ⟨k, hk, hT⟩ := h
  have hnat : T ∈ iters ev ↔ T.toNat ∈ (iters ev).map BitVec.toNat := by
    rw [List.mem_map]
    constructor
    · exact fun h => ⟨T, h, rfl⟩
    · rintro ⟨T', hm, he⟩
      exact BitVec.eq_of_toNat_eq he ▸ hm
  rw [← mem_iters, hnat, hk, List.mem_range'_1, hT]

theorem timeAfterEq_iff_toNat {T j : ULong m} (hj : j.toNat < half m) (h : T.toNat ≤ j.toNat + 1) :
    timeAfterEq j T = true ↔ T.toNat ≤ j.toNat := by
  have hl := ticksLeft_of_le hj h
  cases ht : timeAfterEq j T with
  | true =>
    rw [ticksLeft, ht, if_pos rfl] at hl
    simp only [true_iff]
    omega
  | false =>
    rw [ticksLeft_eq_zero ht] at hl
    simp only [Bool.false_eq_true, false_iff]
    omega

theorem Reading.jiffy_lt_half (r : Reading m) (h : r.jiffy < jiffyPeriod) : r.jiffy < half m := by
  rw [← toNat_timeToJiffies_of_lt h]
  exact r.timeToJiffies_lt_half

theorem Clocked.step {r : Reading m} {woken : Prop} {c c' : Ctl N} {a : Act m N}
    (C : Clocked r woken q c) (hr : r.jiffy < jiffyPeriod) (h : q.Step c a q' c' ev)
    (ha : a.InPass) : Clocked r woken q' c' ∧ Ticked q q' ev := by
  obtain ⟨hj, hle, hidle⟩ := C
  have hhalf : q.jiffies.toNat < half m := hj ▸ r.jiffy_lt_half hr
  have hiff := timeAfterEq_iff_toNat hhalf (hj ▸ hle)
  cases h with
  | @call _ cl ho hc =>
    obtain ⟨hT, hjif, -⟩ := Queues.exec_frame (q := q) cl
    exact ⟨⟨by rw [hjif, hj], by rw [hT]; exact hle, fun hw hc => by rw [hT]; exact hidle hw hc⟩,
      ticked_of_eq rfl hT⟩
  | wake j => exact ha.elim
  | iter ht =>
    have hTj := hiff.mp ht
    have hm := two_half m
    have hT : (q.timerJiffies + 1).toNat = q.timerJiffies.toNat + 1 := by
      rw [toNat_succ_mod, Nat.mod_eq_of_lt (by omega)]
    refine ⟨⟨by rw [Queues.jiffies_startTick, hj], ?_, fun _ hc => by cases hc⟩, 1, rfl, ?_⟩
    · rw [Queues.timerJiffies_startTick, hT]
      omega
    · rw [Queues.timerJiffies_startTick, hT]
  | sleep ht =>
    have hTj : ¬ q.timerJiffies.toNat ≤ q.jiffies.toNat := fun h => by
      rw [hiff.mpr h] at ht
      cases ht
    refine ⟨⟨hj, hle, fun _ _ => ?_⟩, ticked_of_eq rfl rfl⟩
    change q.timerJiffies.toNat = _
    omega
  | drained | fire | resume =>
    exact ⟨⟨hj, hle, fun _ hc => by cases hc⟩, ticked_of_eq rfl rfl⟩

theorem Queues.Step.wake_inv {c c' : Ctl N} {j : ULong m} (h : q.Step c (.wake j) q' c' ev) :
    c = .idle ∧ q' = q.wake j ∧ c' = .outer ∧ ev = [] := by
  cases h
  exact ⟨rfl, rfl, rfl, rfl⟩

theorem Clocked.wake {r r' : Reading m} {woken woken' : Prop} {c c' : Ctl N}
    (C : Clocked r woken q c) (hr : r'.jiffy < jiffyPeriod) (hle : r.nsecs ≤ r'.nsecs)
    (h : q.Step c (.wake (timeToJiffies r'.toTimespec)) q' c' ev) :
    Clocked r' woken' q' c' ∧ Ticked q q' ev := by
  obtain ⟨-, rfl, rfl, rfl⟩ := h.wake_inv
  exact ⟨⟨Reading.toNat_timeToJiffies_of_lt hr,
    C.le.trans (Nat.add_le_add_right (Reading.jiffy_mono hle) 1), fun _ hc => by cases hc⟩,
    ticked_of_eq rfl rfl⟩

theorem Clocked.run {c : Reading m} {woken : Prop} {rs : List (Reading m)} {as : List (Act m N)}
    (C : Clocked c woken q s.ctl) (H : s.Holds q) (hclock : OnClock c rs as)
    (h : (wheel m N).run s as = some (s', ev)) :
    ∃ q', s'.Holds q' ∧ Clocked (rs.getLastD c) (woken ∨ rs ≠ []) q' s'.ctl ∧ Ticked q q' ev := by
  let P (s : Sys m N) (as : List (Act m N)) (ev : List (Event m N)) : Prop :=
    ∀ rs, OnClock c rs as →
      ∃ q', s.Holds q' ∧ Clocked (rs.getLastD c) (woken ∨ rs ≠ []) q' s.ctl ∧ Ticked q q' ev
  have h0 : P s [] [] := fun rs hc => by
    obtain rfl : rs = [] := by simpa [wakes] using hc.wakes.symm
    exact ⟨q, H, ⟨C.jiffies, C.le, fun hw => C.idle (by simpa using hw)⟩, ticked_of_eq rfl rfl⟩
  refine Machine.run_induction_labels (P := P) (C := fun _ _ => True) h
    (Machine.meets_of_run fun _ _ _ _ _ _ _ => trivial) h0 ?_ rs hclock
  intro u as fs a u' es _ hP hs rs hc
  by_cases ha : a.InPass
  · have hw : wakes (as ++ [a]) = wakes as := by
      cases a <;> simp_all [wakes, Act.InPass]
    obtain ⟨q, H, C, hk⟩ := hP rs ⟨hw ▸ hc.wakes, hc.mono, hc.period⟩
    obtain ⟨q', H', hq⟩ := step_refines H hs
    obtain ⟨C', hk'⟩ := C.step (hc.period _ List.getLastD_mem_cons) hq ha
    exact ⟨q', H', C', hk.append hk'⟩
  · cases a with
    | call | run => exact absurd trivial ha
    | wake j =>
      have hall : rs.map (fun r => timeToJiffies r.toTimespec) = wakes as ++ [j] := by
        rw [← hc.wakes]
        simp [wakes]
      obtain ⟨rs, rs', rfl, hw, hj⟩ := List.map_eq_append_iff.mp hall
      obtain ⟨r, rfl, rfl⟩ := List.map_eq_singleton_iff.mp hj
      have hmono := hc.mono
      rw [← List.cons_append, List.pairwise_append] at hmono
      have hperiod (a : Reading m) (ha : a ∈ c :: rs) : a.jiffy < jiffyPeriod :=
        hc.period a (List.mem_append_left [r] ha)
      obtain ⟨q, H, C, hk⟩ := hP rs ⟨hw.symm, hmono.1, hperiod⟩
      obtain ⟨q', H', hq⟩ := step_refines (a := .wake _) H hs
      obtain ⟨C', hk'⟩ := C.wake (hc.period r (by simp))
        (hmono.2.2 _ List.getLastD_mem_cons r (by simp)) hq
      rw [List.getLastD_concat]
      exact ⟨q', H', C', hk.append hk'⟩

/-- Until the worker wakes for the first time, tick `jiffies` is still ahead. -/
theorem clocked_boot (setup : Fin N → TimerSetup m) {c : Reading m} (hc : c.jiffy < jiffyPeriod) :
    Clocked c False (Queues.boot setup (timeToJiffies c.toTimespec)) .idle :=
  have h : (timeToJiffies c.toTimespec).toNat = c.jiffy := Reading.toNat_timeToJiffies_of_lt hc
  ⟨h, h.le.trans (Nat.le_succ _), False.elim⟩

/-! ## The pass that runs a timer -/

theorem Phase.iter_mem_of_fire {due : ULong m} {fn : Nat} {data : ULong m}
    (P : Phase t due q ev) (hf : .fire t fn data ∈ ev) : .iter due ∈ ev := by
  cases P with
  | waiting _ _ h => exact absurd hf (h fn data)
  | expiring | fired => simp

theorem Phase.fire_of_iter_mem {due : ULong m} (P : Phase t due q ev) (S : q.Sound false)
    (hi : .iter due ∈ ev) : ∃ fn data, .fire t fn data ∈ ev := by
  cases P with
  | waiting _ h => exact absurd hi h
  | expiring h =>
    rw [Queues.Expiring, S.dead .workList rfl] at h
    cases h
  | fired => exact ⟨(q.code t).1, (q.code t).2, by simp⟩

/-- An expiry that is not past does not wrap, as `timer_jiffies` is in the first half. -/
theorem toNat_le_due {T E : ULong m} (hT : T.toNat ≤ half m) :
    T.toNat ≤ (if 0 ≤ (E - T).toInt then E else T).toNat := by
  split
  · next h =>
    have ha := (toInt_sub_nonneg_iff T E).mp h
    have hm := two_half m
    rw [toNat_of_ahead T E, Nat.mod_eq_of_lt (by omega)]
    omega
  · exact le_refl _

/-- A timer armed by `add_timer` for `E` is run once the clock has reached that tick,
in the first pass at which it has; the clock may be late, and other timers armed. -/
theorem timer_runs_in_first_pass {memory : Heap (Node N)} {setup : Fin N → TimerSetup m}
    {c : Reading m} {rs rs' : List (Reading m)} {bs as : List (Act m N)} {E : ULong m}
    {ret : List (Event m N)}
    (hboot : (wheel m N).run (boot memory setup (timeToJiffies c.toTimespec)) bs = some (s₀, ev'))
    (hclock : OnClock c rs bs) (harm : s₀.step (.call (.addTimer t E)) = some (s₁, ret))
    (hrun : (wheel m N).run s₁ as = some (s₂, ev)) (hclock' : OnClock (rs.getLastD c) rs' as)
    (has : ∀ a ∈ as, a.Spares t) :
    let T := s₀.world.base.timerJiffies
    let due := (if 0 ≤ (E - T).toInt then E else T).toNat
    let now := (rs'.getLastD (rs.getLastD c)).jiffy
    ((∃ fn data, .fire t fn data ∈ ev) → due ≤ now) ∧
      (s₂.ctl = .idle → rs ++ rs' ≠ [] → due ≤ now → ∃ fn data, .fire t fn data ∈ ev) := by
  have hperiod := hclock.period
  have H := boot_holds memory setup (timeToJiffies c.toTimespec)
  obtain ⟨q₀, H₀, C₀, -⟩ :=
    (clocked_boot setup (hperiod c List.mem_cons_self)).run H hclock hboot
  have hlast := hperiod _ (List.getLastD_mem_cons (l := rs) (a := c))
  obtain ⟨q₁, H₁, hstep⟩ := step_refines H₀ harm
  obtain ⟨C₁, -⟩ := C₀.step hlast hstep trivial
  obtain ⟨q₂, H₂, C₂, hticked⟩ := C₁.run H₁ hclock' hrun
  rw [H₀.realizes.timerJiffies]
  intro T due now
  have hT : q₁.timerJiffies = T := by
    rw [hstep.call_inv.1]
    rfl
  have P₁ : Phase t (if 0 ≤ (E - T).toInt then E else T) q₁ [] := by
    rw [hstep.call_inv.1]
    exact phase_addTimer q₀ t E
  obtain ⟨q₂', H₂', -, P₂⟩ := P₁.run H₁ has hrun
  have hmem := hticked.mem_iff (if 0 ≤ (E - T).toInt then E else T)
  rw [hT] at hmem
  have hTdue : T.toNat ≤ due := toNat_le_due (C₀.le.trans (Reading.jiffy_lt_half _ hlast))
  refine ⟨?_, fun hidle hwoken hdue => ?_⟩
  · rintro ⟨fn, data, hf⟩
    have hlt := (hmem.mp (P₂.iter_mem_of_fire hf)).2
    exact Nat.lt_succ_iff.mp (hlt.trans_le C₂.le)
  · have S := H₂'.realizes.sound
    rw [hidle] at S
    have hwoken : (False ∨ rs ≠ []) ∨ rs' ≠ [] := by
      by_contra hn
      simp only [false_or, ne_eq, not_or, not_not] at hn
      exact hwoken (by rw [hn.1, hn.2]; rfl)
    refine P₂.fire_of_iter_mem S (hmem.mpr ⟨hTdue, ?_⟩)
    rw [C₂.idle hwoken hidle]
    exact Nat.lt_succ_of_le hdue

/-- A timer for tick 2 is run in the second pass, in which the worker is late. -/
theorem timer_runs_in_first_pass_test1 :
    ∃ (r₁ r₂ : Reading .long32) (s₁ s₂ : Sys .long32 1) (ev ret : List (Event .long32 1)),
      r₁.toTimespec = ⟨0, 5⟩ ∧ r₂.toTimespec = ⟨0, 25000000⟩ ∧
      (boot (fun _ => ⟨.null, .null⟩) (fun _ => ⟨0, 1, 2⟩) 0 : Sys .long32 1).step
        (.call (.addTimer 0 2)) = some (s₁, ret) ∧
      (wheel .long32 1).run s₁ (.wake (timeToJiffies r₁.toTimespec) :: List.replicate 5 .run ++
        .wake (timeToJiffies r₂.toTimespec) :: List.replicate 7 .run) = some (s₂, ev) ∧
      s₂.ctl = .idle ∧ iters ev = [0, 1, 2, 3] ∧ ∃ fn data, .fire 0 fn data ∈ ev := by
  let c : Reading .long32 := ⟨⟨0, 0⟩, by decide, by decide, by decide⟩
  let r₁ : Reading .long32 := ⟨⟨0, 5⟩, by decide, by decide, by decide⟩
  let r₂ : Reading .long32 := ⟨⟨0, 25000000⟩, by decide, by decide, by decide⟩
  obtain ⟨s₀, hs₀⟩ : ∃ s₀ : Sys .long32 1, s₀ = boot (fun _ => ⟨.null, .null⟩) (fun _ => ⟨0, 1, 2⟩)
    0 := ⟨_, rfl⟩
  let as : List (Act .long32 1) := .wake (timeToJiffies r₁.toTimespec) :: List.replicate 5 .run ++
    .wake (timeToJiffies r₂.toTimespec) :: List.replicate 7 .run
  have h : (s₀.step (.call (.addTimer 0 2))).bind (fun p => ((wheel .long32 1).run p.1 as).map
      fun p => (p.1.ctl, iters p.2)) = some (.idle, [0, 1, 2, 3]) := by
    rw [hs₀]
    decide +kernel
  have hT : s₀.world.base.timerJiffies = 0 := by
    rw [hs₀]
    decide +kernel
  obtain ⟨⟨s₁, ret⟩, harm, h⟩ := Option.bind_eq_some_iff.mp h
  obtain ⟨⟨s₂, ev⟩, hrun, h⟩ := Option.map_eq_some_iff.mp h
  simp only [Prod.mk.injEq] at h
  have hclock : OnClock c [] ([] : List (Act .long32 1)) := ⟨rfl, by simp, by decide⟩
  have hclock' : OnClock c [r₁, r₂] as := ⟨rfl, by decide, by decide⟩
  have hboot : (wheel .long32 1).run (boot (fun _ => ⟨.null, .null⟩) (fun _ => ⟨0, 1, 2⟩)
      (timeToJiffies c.toTimespec)) [] = some (s₀, []) := by
    have hc : timeToJiffies c.toTimespec = 0 := by decide +kernel
    rw [hs₀, hc]
    rfl
  have key := (timer_runs_in_first_pass (t := 0) hboot hclock harm hrun hclock'
    (by simp [as, Act.Spares])).2 h.1 (by simp)
  simp only [hT] at key
  exact ⟨r₁, r₂, s₁, s₂, ev, ret, rfl, rfl, hs₀ ▸ harm, hrun, h.1, h.2, key (by decide)⟩

/-! ## After the last jiffy -/

theorem noFire_of_no_iter {as : List (Act m N)} (H : s.Holds q) (hidle : s.ctl = .idle)
    (h : (wheel m N).run s as = some (s', ev)) (hi : iters ev = []) : ∀ t, NoFire t ev := by
  obtain ⟨-, -, hP⟩ := wheel_induction (Q := fun _ => True)
    (P := fun _ c ev => iters ev = [] → c.working = false ∧ ∀ t, NoFire t ev) h (fun _ _ => trivial)
    H (fun _ => ⟨by rw [hidle]; rfl, fun _ => noFire_nil⟩) fun q c ev a q' c' ev' _ _ hP hs hi => by
      have hi : iters ev = [] ∧ iters ev' = [] := by
        rwa [iters_append, List.append_eq_nil_iff] at hi
      obtain ⟨hc, hf⟩ := hP hi.1
      cases hs with
      | call => exact ⟨hc, fun t => noFire_append.mpr ⟨hf t, by simp [NoFire]⟩⟩
      | wake | sleep => exact ⟨rfl, fun t => noFire_append.mpr ⟨hf t, noFire_nil⟩⟩
      | iter => cases hi.2
      | drained | fire | resume => cases hc
  exact (hP hi).2

/-- From 10737418 s on a reading has the last jiffy. -/
theorem timeToJiffies_last {r : Reading .long32} (h : 10737418 ≤ r.tvSec.toInt) :
    timeToJiffies r.toTimespec = 1073741800 := by
  have hsec : 10737418 ≤ r.tvSec.toNat := by
    rw [BitVec.toInt_eq_toNat_cond] at h
    have := r.tvSec.isLt
    split at h <;> omega
  have hticks : lastJiffy .long32 ≤ r.ticks := by
    have hl : lastJiffy .long32 = 1073741800 := rfl
    simp only [hl, Reading.ticks, Timespec64.ticks, timespecToTimespec64, Timespec64.nsecs,
      TICK_NSEC, NSEC_PER_SEC, HZ]
    omega
  refine BitVec.eq_of_toNat_eq ?_
  rw [r.toNat_timeToJiffies, min_eq_right hticks]
  rfl

/-- On 32 bits the clock is converted to the same jiffy from 10737418 s on. When the
pass at which this is reached is over, no tick is processed any more, and no timer
runs, whatever is armed. -/
theorem timers_stop_after_last_jiffy {memory : Heap (Node N)} {setup : Fin N → TimerSetup .long32}
    {c : Reading .long32} {rs rs' : List (Reading .long32)} {bs as : List (Act .long32 N)}
    {s₀ s₁ : Sys .long32 N} {ev ev' : List (Event .long32 N)}
    (hboot : (wheel .long32 N).run (boot memory setup (timeToJiffies c.toTimespec)) bs =
      some (s₀, ev'))
    (hclock : OnClock c rs bs) (hwoken : rs ≠ []) (hidle : s₀.ctl = .idle)
    (hlast : lastJiffy .long32 ≤ (rs.getLastD c).ticks)
    (hrun : (wheel .long32 N).run s₀ as = some (s₁, ev))
    (hclock' : OnClock (rs.getLastD c) rs' as) :
    (∀ r : Reading .long32, 10737418 ≤ r.tvSec.toInt →
      timeToJiffies r.toTimespec = 1073741800) ∧ iters ev = [] ∧ ∀ t, NoFire t ev := by
  have H := boot_holds memory setup (timeToJiffies c.toTimespec)
  obtain ⟨q₀, H₀, C₀, -⟩ :=
    (clocked_boot setup (hclock.period c List.mem_cons_self)).run H hclock hboot
  obtain ⟨q₁, H₁, C₁, k, hk, hT⟩ := C₀.run H₀ hclock' hrun
  have hstart : q₀.timerJiffies.toNat = lastJiffy .long32 + 1 := by
    rw [C₀.idle (.inr hwoken) hidle, Reading.jiffy, min_eq_right hlast]
  have hend : q₁.timerJiffies.toNat ≤ lastJiffy .long32 + 1 :=
    C₁.le.trans (Nat.succ_le_succ (min_le_right _ _))
  have hk0 : k = 0 := by omega
  have hi : iters ev = [] := by
    rw [hk0] at hk
    simpa using hk
  exact ⟨fun r hr => timeToJiffies_last hr, hi, noFire_of_no_iter H₀ hidle hrun hi⟩

/-- A timer that is armed at the last jiffy for the next one waits forever. -/
theorem timers_stop_after_last_jiffy_test1 :
    ∃ (c r : Reading .long32) (s₀ s₁ : Sys .long32 1) (ev ev' : List (Event .long32 1)),
      c.toTimespec = ⟨10737418, 0⟩ ∧ r.toTimespec = ⟨20737418, 0⟩ ∧
      (wheel .long32 1).run (boot (fun _ => ⟨.null, .null⟩) (fun _ => ⟨0, 1, 2⟩) 1073741800)
        [.wake (timeToJiffies c.toTimespec), .run, .run, .run] = some (s₀, ev') ∧
      (wheel .long32 1).run s₀ [.call (.addTimer 0 1073741801),
        .wake (timeToJiffies r.toTimespec), .run] = some (s₁, ev) ∧
      s₀.world.jiffies = 1073741800 ∧ timeToJiffies r.toTimespec = 1073741800 ∧
      timerPending s₁.world 0 = true ∧ (s₁.world.timer 0).expires = 1073741801 ∧
      iters ev = [] ∧ ∀ t, NoFire t ev := by
  let c : Reading .long32 := ⟨⟨10737418, 0⟩, by decide, by decide, by decide⟩
  let r : Reading .long32 := ⟨⟨20737418, 0⟩, by decide, by decide, by decide⟩
  let bs : List (Act .long32 1) := [.wake (timeToJiffies c.toTimespec), .run, .run, .run]
  let as : List (Act .long32 1) :=
    [.call (.addTimer 0 1073741801), .wake (timeToJiffies r.toTimespec), .run]
  have hc : timeToJiffies c.toTimespec = 1073741800 := by decide +kernel
  have h : ((wheel .long32 1).run (boot (fun _ => ⟨.null, .null⟩) (fun _ => ⟨0, 1, 2⟩)
      (timeToJiffies c.toTimespec)) bs).bind (fun p => ((wheel .long32 1).run p.1 as).map fun p' =>
        (p.1.ctl, p.1.world.jiffies, timerPending p'.1.world 0, (p'.1.world.timer 0).expires)) =
      some (.idle, 1073741800, true, 1073741801) := by
    decide +kernel
  obtain ⟨⟨s₀, ev'⟩, hboot, h⟩ := Option.bind_eq_some_iff.mp h
  obtain ⟨⟨s₁, ev⟩, hrun, h⟩ := Option.map_eq_some_iff.mp h
  simp only [Prod.mk.injEq] at h
  obtain ⟨hidle, hj, hp, he⟩ := h
  have hclock : OnClock c [c] bs := ⟨rfl, by decide, by decide⟩
  have hclock' : OnClock c [r] as := ⟨rfl, by decide, by decide⟩
  obtain ⟨hlast, hi, hf⟩ := timers_stop_after_last_jiffy hboot hclock (List.cons_ne_nil _ _)
    hidle (by decide) hrun hclock'
  rw [hc] at hboot
  exact ⟨c, r, s₀, s₁, ev, ev', rfl, rfl, hboot, hrun, hj, hlast r (by decide), hp, he, hi, hf⟩

end Uki
