import Uki.Timer.Periodic
import Uki.Timer.Round

/-!
# Timers that are run together

The comment on `round_jiffies` says what the rounding is for: timers whose deadlines are
rounded to whole seconds are run at the same time, so that the worker wakes up less.

1. `RoundedTo`: the deadlines that the four functions for the current cpu round to a second.
2. `Phase.fireTicks_over`: when a timer was run, counted in ticks.
3. `rounded_timers_run_together`: two timers for one second are run in one tick, whenever
   each of them was armed.
-/

set_option linter.style.nameCheck false

namespace Uki

variable {m : LongModel} {N : Nat} {q q' : Queues m N} {t u : Fin N} {ev : List (Event m N)}
  {s s' s₀ s₁ s₂ s₃ s₄ : Sys m N}

/-- There is one cpu. -/
def rawSmpProcessorId : BitVec 32 := 0

def roundJiffies (jiffies j : ULong m) : ULong m :=
  roundJiffiesCommon jiffies j rawSmpProcessorId false

def roundJiffiesRelative (jiffies j : ULong m) : ULong m :=
  __roundJiffiesRelative jiffies j rawSmpProcessorId

def roundJiffiesUp (jiffies j : ULong m) : ULong m :=
  roundJiffiesCommon jiffies j rawSmpProcessorId true

def roundJiffiesUpRelative (jiffies j : ULong m) : ULong m :=
  __roundJiffiesUpRelative jiffies j rawSmpProcessorId

/-! ## Deadlines for one second -/

/-- Up to a quarter of a second after second `k`, and more than that after the one before. -/
def Nearest (k : Nat) (j : ULong m) : Prop :=
  HZ * k + HZ / 4 ≤ j.toNat + HZ ∧ j.toNat < HZ * k + HZ / 4

/-- In the second before second `k`. -/
def Before (k : Nat) (j : ULong m) : Prop := HZ * k ≤ j.toNat + HZ ∧ j.toNat < HZ * k

/-- What a caller at `jiffies` may round to second `k`. -/
inductive RoundedTo (k : Nat) (jiffies : ULong m) : ULong m → Prop where
  | nearest {j : ULong m} (h : Nearest k j) : RoundedTo k jiffies (roundJiffies jiffies j)
  | relative {j : ULong m} (h : Nearest k (j + jiffies)) :
      RoundedTo k jiffies (roundJiffiesRelative jiffies j + jiffies)
  | up {j : ULong m} (h : Before k j) : RoundedTo k jiffies (roundJiffiesUp jiffies j)
  | upRelative {j : ULong m} (h : Before k (j + jiffies)) :
      RoundedTo k jiffies (roundJiffiesUpRelative jiffies j + jiffies)

theorem add_skew (j : ULong m) : j + skew m rawSmpProcessorId = j := by
  have hskew : skew m rawSmpProcessorId = 0 := by cases m <;> rfl
  rw [hskew]
  exact BitVec.add_zero j

theorem toNat_rounded_nearest {k : Nat} {j : ULong m} (hk : HZ * k < 2 ^ m.bits)
    (h : Nearest k j) : (rounded j rawSmpProcessorId false).toNat = HZ * k := by
  obtain ⟨hlow, hhigh⟩ := h
  rcases em (RoundsDown (j + skew m rawSmpProcessorId) false) with hdown | hup
  · have hr := toNat_rounded_down hdown
    have hquarter := hdown.1
    rw [add_skew] at hr hquarter
    unfold inSecond HZ at *
    omega
  · have hr := toNat_rounded_up hup
    have hquarter : HZ / 4 ≤ inSecond j := not_lt.mp fun hlt =>
      hup ⟨by rwa [add_skew], rfl⟩
    rw [add_skew] at hr
    unfold inSecond HZ at *
    omega

theorem toNat_rounded_before {k : Nat} {j : ULong m} (hk : HZ * k < 2 ^ m.bits)
    (h : Before k j) : (rounded j rawSmpProcessorId true).toNat = HZ * k := by
  obtain ⟨hlow, hhigh⟩ := h
  have hup : ¬ RoundsDown (j + skew m rawSmpProcessorId) true := fun hd => Bool.noConfusion hd.2
  have hr := toNat_rounded_up hup
  rw [add_skew] at hr
  unfold inSecond HZ at *
  omega

/-- The last test lets a second in the future pass. -/
theorem RoundedTo.toNat_eq {k : Nat} {jiffies e : ULong m} (h : RoundedTo k jiffies e)
    (hk : HZ * k < 2 ^ m.bits) (hnow : jiffies.toNat < HZ * k) : e.toNat = HZ * k := by
  have common {j : ULong m} {up : Bool} (hr : (rounded j rawSmpProcessorId up).toNat = HZ * k) :
      (roundJiffiesCommon jiffies j rawSmpProcessorId up).toNat = HZ * k := by
    have hgt : ¬ rounded j rawSmpProcessorId up ≤ jiffies := by
      rw [BitVec.le_def, hr]
      exact not_le.mpr hnow
    rw [roundJiffiesCommon_eq, if_neg hgt, hr]
  cases h with
  | nearest h => exact common (toNat_rounded_nearest hk h)
  | @relative j h =>
    rw [roundJiffiesRelative, (__roundJiffiesRelative_add jiffies j _).1]
    exact common (toNat_rounded_nearest hk h)
  | up h => exact common (toNat_rounded_before hk h)
  | @upRelative j h =>
    rw [roundJiffiesUpRelative, (__roundJiffiesRelative_add jiffies j _).2]
    exact common (toNat_rounded_before hk h)

/-! ## The tick of a timer -/

/-- A timer whose tick is not over is waiting. -/
theorem Phase.due_of_not_over {due : ULong m} (P : Phase t due q' ev) (h : Ticked q q' ev)
    (hnot : q'.timerJiffies.toNat ≤ due.toNat) :
    q'.Due t (ahead q'.timerJiffies due) ∧ NoFire t ev := by
  have hi : .iter due ∉ ev := fun hm => Nat.not_lt.mpr hnot ((h.mem_iff due).mp hm).2
  cases P with
  | waiting hd _ hf => exact ⟨hd, hf⟩
  | expiring | fired => simp at hi

/-- A timer whose tick is over has been run in that tick, and only then. -/
theorem Phase.fireTicks_over {due : ULong m} (P : Phase t due q' ev) (h : Ticked q q' ev)
    (S : q'.Sound false) (hle : q.timerJiffies.toNat ≤ due.toNat)
    (hover : due.toNat < q'.timerJiffies.toNat) :
    fireTicks t 0 ev = [due.toNat - q.timerJiffies.toNat + 1] ∧
      (iters ev)[due.toNat - q.timerJiffies.toNat]? = some due := by
  have hi : .iter due ∈ ev := (h.mem_iff due).mpr ⟨hle, hover⟩
  cases P with
  | waiting _ hid => exact absurd hi hid
  | expiring hx =>
    rw [Queues.Expiring, S.dead .workList rfl] at hx
    cases hx
  | @fired pre mid post _ _ hm hf hfm hfp =>
    -- the ticks count up from `timer_jiffies`
    obtain ⟨k, hk, -⟩ := h
    rw [iters_fired hm, List.map_append, List.map_cons] at hk
    have hpos : due.toNat = q.timerJiffies.toNat + (iters pre).length := by
      obtain ⟨n, -, hpre, hpost⟩ := List.range'_eq_append_iff.mp hk.symm
      obtain ⟨hfirst, -, -⟩ := List.range'_eq_cons_iff.mp hpost.symm
      have hlen := congrArg List.length hpre
      rw [List.length_map, List.length_range'] at hlen
      omega
    have hsub : due.toNat - q.timerJiffies.toNat = (iters pre).length := by omega
    rw [hsub, iters_fired hm, fireTicks_fired hm hf hfm hfp]
    exact ⟨rfl, by simp⟩

/-! ## Runs on a clock -/

section Clock

variable {c : Reading m} {woken : Prop} {rs : List (Reading m)} {as : List (Act m N)}
  {due : ULong m}

/-- The clock and the timer, along one run. -/
theorem Clocked.run_phase (C : Clocked c woken q s.ctl) (H : s.Holds q) (hclock : OnClock c rs as)
    (h : (wheel m N).run s as = some (s', ev)) (P : Phase t due q []) (has : ∀ a ∈ as, a.Spares t) :
    ∃ q', s'.Holds q' ∧ Clocked (rs.getLastD c) (woken ∨ rs ≠ []) q' s'.ctl ∧ Ticked q q' ev ∧
      Phase t due q' ev := by
  obtain ⟨q₁, H₁, C₁, k, hk, hT⟩ := C.run H hclock h
  obtain ⟨q₂, H₂, -, P₂⟩ := P.run H has h
  have hj : q₂.jiffies = q₁.jiffies := H₂.realizes.jiffies.symm.trans H₁.realizes.jiffies
  have htj : q₂.timerJiffies = q₁.timerJiffies :=
    H₂.realizes.timerJiffies.symm.trans H₁.realizes.timerJiffies
  refine ⟨q₂, H₂, ⟨by rw [hj, C₁.jiffies], by rw [htj]; exact C₁.le, ?_⟩, ⟨k, hk, ?_⟩, P₂⟩
  · rw [htj]
    exact C₁.idle
  · rw [htj]
    exact hT

/-- When the worker is idle a timer has been run if and only if the clock has reached its tick,
and then in that tick. -/
theorem Clocked.fireTicks_run (C : Clocked c woken q s.ctl) (H : s.Holds q)
    (hclock : OnClock c rs as) (h : (wheel m N).run s as = some (s', ev)) (P : Phase t due q [])
    (has : ∀ a ∈ as, a.Spares t) :
    ((rs.getLastD c).jiffy < due.toNat → NoFire t ev) ∧
      (q.timerJiffies.toNat ≤ due.toNat → due.toNat ≤ (rs.getLastD c).jiffy → rs ≠ [] →
        s'.ctl = .idle → fireTicks t 0 ev = [due.toNat - q.timerJiffies.toNat + 1] ∧
          (iters ev)[due.toNat - q.timerJiffies.toNat]? = some due) := by
  obtain ⟨q', H', C', hticked, P'⟩ := C.run_phase H hclock h P has
  refine ⟨fun hlt => ?_, fun hle hreached hwoken hidle => ?_⟩
  · exact (P'.due_of_not_over hticked (C'.le.trans hlt)).2
  · have S := H'.realizes.sound
    rw [hidle] at S
    refine P'.fireTicks_over hticked S hle ?_
    rw [C'.idle (.inr hwoken) hidle]
    exact Nat.lt_succ_of_le hreached

end Clock

/-- An expiry in the first half of the counters that is not past is the tick of the timer. -/
theorem due_eq_expires {T E : ULong m} (hle : T.toNat ≤ E.toNat) (hE : E.toNat < half m) :
    (if 0 ≤ (E - T).toInt then E else T) = E := by
  have hsub := Words.toNat_sub_cases E T
  rw [if_pos ((toInt_sub_nonneg_iff T E).mpr ?_)]
  rw [ahead]
  omega

/-- Two timers are armed for one second, each when that second is still ahead, and one maybe
long before the other. Neither is run until the clock reaches the second. When it has and
the worker is idle again, both have been run once, in the tick of the second. -/
theorem rounded_timers_run_together {memory : Heap (Node N)} {setup : Fin N → TimerSetup m}
    {c : Reading m} {rs rs₁ rs₂ : List (Reading m)} {bs as₁ as₂ : List (Act m N)} {k : Nat}
    {e e' : ULong m} {ev₀ ev₁ ev₂ ret ret' : List (Event m N)}
    (hboot : (wheel m N).run (boot memory setup (timeToJiffies c.toTimespec)) bs = some (s₀, ev₀))
    (hclock : OnClock c rs bs) (he : RoundedTo k s₀.world.jiffies e)
    (harm : s₀.step (.call (.addTimer t e)) = some (s₁, ret))
    (hrun₁ : (wheel m N).run s₁ as₁ = some (s₂, ev₁))
    (hclock₁ : OnClock (rs.getLastD c) rs₁ as₁) (has₁ : ∀ a ∈ as₁, a.Spares t) (hut : u ≠ t)
    (he' : RoundedTo k s₂.world.jiffies e')
    (harm' : s₂.step (.call (.addTimer u e')) = some (s₃, ret'))
    (hrun₂ : (wheel m N).run s₃ as₂ = some (s₄, ev₂))
    (hclock₂ : OnClock (rs₁.getLastD (rs.getLastD c)) rs₂ as₂)
    (has₂ : ∀ a ∈ as₂, a.Spares t ∧ a.Spares u) (hk : HZ * k < half m)
    (hnow : s₂.world.jiffies.toNat < HZ * k) :
    let now := (rs₂.getLastD (rs₁.getLastD (rs.getLastD c))).jiffy
    NoFire t ev₁ ∧ (now < HZ * k → NoFire t ev₂ ∧ NoFire u ev₂) ∧
      (HZ * k ≤ now → s₄.ctl = .idle → ∃ i, (iters ev₂)[i]? = some (BitVec.ofNat _ (HZ * k)) ∧
        fireTicks t 0 ev₂ = [i + 1] ∧ fireTicks u 0 ev₂ = [i + 1]) := by
  intro now
  have hbits : HZ * k < 2 ^ m.bits := by
    have := two_half m
    omega
  obtain ⟨q₀, H₀, C₀, -⟩ := (clocked_boot setup (hclock.period c List.mem_cons_self)).run
    (boot_holds memory setup _) hclock hboot
  obtain ⟨q₁, H₁, hstep₁⟩ := step_refines H₀ harm
  obtain ⟨C₁, -⟩ := C₀.step (hclock.period _ List.getLastD_mem_cons) hstep₁ trivial
  obtain ⟨q, H, C, -⟩ := C₁.run H₁ hclock₁ hrun₁
  -- the second is ahead when the first timer is armed, as the clock does not go back
  have hsecond : (rs₁.getLastD (rs.getLastD c)).jiffy < HZ * k := by
    rwa [← C.jiffies, ← H.realizes.jiffies]
  have hfirst : (rs.getLastD c).jiffy < HZ * k := (jiffy_le_last hclock₁.mono).trans_lt hsecond
  have hval : e.toNat = HZ * k := he.toNat_eq hbits (by rwa [H₀.realizes.jiffies, C₀.jiffies])
  obtain rfl : e' = e := BitVec.eq_of_toNat_eq ((he'.toNat_eq hbits hnow).trans hval.symm)
  have P₁ : Phase t e' q₁ [] := by
    have P := phase_addTimer q₀ t e'
    rw [due_eq_expires (hval ▸ C₀.le.trans hfirst) (hval ▸ hk)] at P
    rwa [hstep₁.call_inv.1]
  obtain ⟨q₂, H₂, C₂, hticked, P₂⟩ := C₁.run_phase H₁ hclock₁ hrun₁ P₁ has₁
  have hahead : q₂.timerJiffies.toNat ≤ e'.toNat := hval ▸ C₂.le.trans hsecond
  obtain ⟨hdue, hf⟩ := P₂.due_of_not_over hticked hahead
  obtain ⟨q₃, H₃, hstep₃⟩ := step_refines H₂ harm'
  obtain ⟨C₃, -⟩ := C₂.step (hclock₁.period _ List.getLastD_mem_cons) hstep₃ trivial
  have hq₃ : q₃ = (q₂.exec (.addTimer u e')).1 := hstep₃.call_inv.1
  have hT₃ : q₃.timerJiffies = q₂.timerJiffies := by rw [hq₃, (Queues.exec_frame _).1]
  have Pt : Phase t e' q₃ [] := by
    refine .waiting ?_ List.not_mem_nil noFire_nil
    rw [hT₃, hq₃]
    exact (Queues.due_exec_of_ne hut.symm _).mpr hdue
  have Pu : Phase u e' q₃ [] := by
    have P := phase_addTimer q₂ u e'
    rw [due_eq_expires hahead (hval ▸ hk)] at P
    rwa [hq₃]
  obtain ⟨hnt, ht⟩ := C₃.fireTicks_run H₃ hclock₂ hrun₂ Pt fun a ha => (has₂ a ha).1
  obtain ⟨hnu, hu⟩ := C₃.fireTicks_run H₃ hclock₂ hrun₂ Pu fun a ha => (has₂ a ha).2
  rw [hval] at hnt hnu
  refine ⟨hf, fun hlt => ⟨hnt hlt, hnu hlt⟩, fun hle hidle => ?_⟩
  have hwoken : rs₂ ≠ [] := by
    rintro rfl
    exact absurd hsecond (not_lt.mpr hle)
  rw [← hT₃] at hahead
  obtain ⟨ht, hi⟩ := ht hahead (hval ▸ hle) hwoken hidle
  have he' : e' = BitVec.ofNat _ (HZ * k) := by rw [← hval, BitVec.ofNat_toNat, BitVec.setWidth_eq]
  exact ⟨_, he' ▸ hi, ht, (hu hahead (hval ▸ hle) hwoken hidle).1⟩

/-- Deadlines 120 and 117, asked for at 95 and 97. -/
theorem rounded_timers_run_together_test1 :
    ∃ (r₁ r₂ : Reading .long32) (s₁ s₂ s₃ s₄ : Sys .long32 2)
      (ev₁ ev₂ ret ret' : List (Event .long32 2)),
      r₁.toTimespec = ⟨0, 970000000⟩ ∧ r₂.toTimespec = ⟨1, 10000000⟩ ∧
      (boot (fun _ => ⟨.null, .null⟩) (fun _ => ⟨0, 1, 2⟩) 95 : Sys .long32 2).step
        (.call (.addTimer 0 (roundJiffies 95 120))) = some (s₁, ret) ∧
      (wheel .long32 2).run s₁ (.wake (timeToJiffies r₁.toTimespec) :: List.replicate 7 .run) =
        some (s₂, ev₁) ∧
      s₂.step (.call (.addTimer 1 (roundJiffiesRelative 97 20 + 97))) = some (s₃, ret') ∧
      (wheel .long32 2).run s₃ (.wake (timeToJiffies r₂.toTimespec) :: List.replicate 13 .run) =
        some (s₄, ev₂) ∧
      s₂.world.jiffies = 97 ∧ s₄.world.jiffies = 101 ∧ ∃ i, (iters ev₂)[i]? = some 100 ∧
        fireTicks 0 0 ev₂ = [i + 1] ∧ fireTicks 1 0 ev₂ = [i + 1] := by
  let c : Reading .long32 := ⟨⟨0, 950000000⟩, by decide, by decide, by decide⟩
  let r₁ : Reading .long32 := ⟨⟨0, 970000000⟩, by decide, by decide, by decide⟩
  let r₂ : Reading .long32 := ⟨⟨1, 10000000⟩, by decide, by decide, by decide⟩
  let as₁ : List (Act .long32 2) :=
    .wake (timeToJiffies r₁.toTimespec) :: List.replicate 7 .run
  let as₂ : List (Act .long32 2) :=
    .wake (timeToJiffies r₂.toTimespec) :: List.replicate 13 .run
  obtain ⟨s₀, hs₀⟩ : ∃ s₀ : Sys .long32 2,
      s₀ = boot (fun _ => ⟨.null, .null⟩) (fun _ => ⟨0, 1, 2⟩) 95 := ⟨_, rfl⟩
  have h : (s₀.step (.call (.addTimer 0 (roundJiffies 95 120)))).bind (fun p =>
      ((wheel .long32 2).run p.1 as₁).bind fun p =>
        (p.1.step (.call (.addTimer 1 (roundJiffiesRelative 97 20 + 97)))).bind fun p' =>
          ((wheel .long32 2).run p'.1 as₂).map fun p'' =>
            (p.1.world.jiffies, p''.1.ctl, p''.1.world.jiffies)) = some (97, .idle, 101) := by
    rw [hs₀]
    decide +kernel
  have hj : s₀.world.jiffies = 95 := by
    rw [hs₀]
    decide +kernel
  obtain ⟨⟨s₁, ret⟩, harm, h⟩ := Option.bind_eq_some_iff.mp h
  obtain ⟨⟨s₂, ev₁⟩, hrun₁, h⟩ := Option.bind_eq_some_iff.mp h
  obtain ⟨⟨s₃, ret'⟩, harm', h⟩ := Option.bind_eq_some_iff.mp h
  obtain ⟨⟨s₄, ev₂⟩, hrun₂, h⟩ := Option.map_eq_some_iff.mp h
  simp only [Prod.mk.injEq] at h
  obtain ⟨hj₂, hidle, hj₄⟩ := h
  have hboot : (wheel .long32 2).run (boot (fun _ => ⟨.null, .null⟩) (fun _ => ⟨0, 1, 2⟩)
      (timeToJiffies c.toTimespec)) [] = some (s₀, []) := by
    have hc : timeToJiffies c.toTimespec = 95 := by decide +kernel
    rw [hs₀, hc]
    rfl
  have hclock : OnClock c [] ([] : List (Act .long32 2)) := ⟨rfl, by simp, by decide⟩
  have hclock₁ : OnClock c [r₁] as₁ := ⟨rfl, by decide, by decide⟩
  have hclock₂ : OnClock r₁ [r₂] as₂ := ⟨rfl, by decide, by decide⟩
  have he : RoundedTo 1 s₀.world.jiffies (roundJiffies 95 120) := by
    rw [hj]
    exact .nearest ⟨by decide, by decide⟩
  have he' : RoundedTo 1 s₂.world.jiffies (roundJiffiesRelative 97 20 + 97) := by
    rw [hj₂]
    exact .relative ⟨by decide, by decide⟩
  have key := (rounded_timers_run_together hboot hclock he harm hrun₁ hclock₁
    (by simp [as₁, Act.Spares]) (by decide) he' harm' hrun₂ hclock₂ (by simp [as₂, Act.Spares])
    (by decide) (by rw [hj₂]; decide)).2.2 (by decide) hidle
  exact ⟨r₁, r₂, s₁, s₂, s₃, s₄, ev₁, ev₂, ret, ret', rfl, rfl, hs₀ ▸ harm, hrun₁, harm', hrun₂, hj₂,
    hj₄, key⟩

end Uki
