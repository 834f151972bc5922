import Uki.Timer.Conservation

/-!
# Timers run on time

`add_timer` makes a timer due at a tick that depends on its expiry and on
`timer_jiffies` alone. Until the timer is called on again, it is first waiting
for that tick, then on the work list of that tick, and then it has been run
(`Phase`). `add_timer_runs_on_time` reads this off for whole runs.
-/

namespace Uki

variable {m : LongModel} {N : Nat} {q q' : Queues m N} {s₀ s₁ s₂ : Sys m N} {t : Fin N}
  {due : ULong m} {ev ev' : List (Event m N)}

/-! ## Events -/

def NoIter (ev : List (Event m N)) : Prop := ∀ T, .iter T ∉ ev

/-- `t` is not run in `ev`. -/
def NoFire (t : Fin N) (ev : List (Event m N)) : Prop := ∀ fn data, .fire t fn data ∉ ev

@[simp] theorem noIter_nil : NoIter ([] : List (Event m N)) := by simp [NoIter]

@[simp] theorem noFire_nil : NoFire t ([] : List (Event m N)) := by simp [NoFire]

@[simp] theorem noIter_append : NoIter (ev ++ ev') ↔ NoIter ev ∧ NoIter ev' := by
  simp only [NoIter, List.mem_append, not_or, forall_and]

@[simp] theorem noFire_append : NoFire t (ev ++ ev') ↔ NoFire t ev ∧ NoFire t ev' := by
  simp only [NoFire, List.mem_append, not_or, forall_and]

@[simp] theorem noFire_iter (T : ULong m) : NoFire t (.iter T :: ev) ↔ NoFire t ev := by
  simp [NoFire]

/-- The only element with a property splits a list in one way. -/
theorem append_cons_unique {α : Type} {p : α → Prop} {A B C D : List α} {x y : α}
    (hA : ∀ z ∈ A, ¬ p z) (hB : ∀ z ∈ B, ¬ p z) (hy : p y) (h : A ++ x :: B = C ++ y :: D) :
    A = C ∧ x = y ∧ B = D := by
  induction A generalizing C with
  | nil =>
    cases C with
    | nil => simpa using h
    | cons c C =>
      simp only [List.nil_append, List.cons_append, List.cons.injEq] at h
      exact absurd hy (hB y (by simp [h.2]))
  | cons a A ih =>
    cases C with
    | nil =>
      simp only [List.nil_append, List.cons_append, List.cons.injEq] at h
      exact absurd hy (hA y (by simp [h.1]))
    | cons c C =>
      simp only [List.cons_append, List.cons.injEq] at h
      obtain ⟨hAC, hxy, hBD⟩ := ih (fun z hz => hA z (List.mem_cons_of_mem _ hz)) h.2
      exact ⟨by rw [h.1, hAC], hxy, hBD⟩

/-- A list is split by the first occurrence of an element in one way. -/
theorem append_cons_first {α : Type} {A B C D : List α} {x : α} (hA : x ∉ A) (hC : x ∉ C)
    (h : A ++ x :: B = C ++ x :: D) : A = C ∧ B = D := by
  induction A generalizing C with
  | nil =>
    cases C with
    | nil => simpa using h
    | cons c C =>
      simp only [List.nil_append, List.cons_append, List.cons.injEq] at h
      exact absurd (by simp [h.1]) hC
  | cons a A ih =>
    cases C with
    | nil =>
      simp only [List.nil_append, List.cons_append, List.cons.injEq] at h
      exact absurd (by simp [h.1]) hA
    | cons c C =>
      simp only [List.cons_append, List.cons.injEq] at h
      obtain ⟨hAC, hBD⟩ := ih (fun hm => hA (List.mem_cons_of_mem _ hm))
        (fun hm => hC (List.mem_cons_of_mem _ hm)) h.2
      exact ⟨by rw [h.1, hAC], hBD⟩

/-! ## The three phases of an armed timer -/

/-- Where a timer is that was armed for the tick `due`, and what has been seen of
it since. -/
inductive Phase (t : Fin N) (due : ULong m) (q : Queues m N) : List (Event m N) → Prop where
  | waiting {ev : List (Event m N)} (h : q.Due t (ahead q.timerJiffies due))
      (hi : .iter due ∉ ev) (hf : NoFire t ev) : Phase t due q ev
  | expiring {pre mid : List (Event m N)} (h : q.Expiring t) (hi : .iter due ∉ pre)
      (hm : NoIter mid) (hf : NoFire t pre) (hfm : NoFire t mid) :
      Phase t due q (pre ++ .iter due :: mid)
  | fired {pre mid post : List (Event m N)} (h : ¬ q.Pending t) (hi : .iter due ∉ pre)
      (hm : NoIter mid) (hf : NoFire t pre) (hfm : NoFire t mid) (hfp : NoFire t post) :
      Phase t due q (pre ++ .iter due :: mid ++ .fire t (q.code t).1 (q.code t).2 :: post)

/-- A step that does not touch `t` and starts no iteration. -/
theorem Phase.frame (P : Phase t due q ev) (hd : ∀ d, q.Due t d → q'.Due t d)
    (hx : q.Expiring t → q'.Expiring t) (hp : q'.Pending t → q.Pending t)
    (hT : q'.timerJiffies = q.timerJiffies) (hc : q'.code = q.code) (hi : NoIter ev')
    (hf : NoFire t ev') : Phase t due q' (ev ++ ev') := by
  cases P with
  | waiting h hid hfd =>
    refine .waiting (hT ▸ hd _ h) ?_ (by simp [hfd, hf])
    simp [hid, hi due]
  | @expiring pre mid h hid hm hfd hfm =>
    rw [List.append_assoc, List.cons_append]
    exact .expiring (hx h) hid (by simp [hm, hi]) hfd (by simp [hfm, hf])
  | @fired pre mid post h hid hm hfd hfm hfp =>
    rw [← hc, List.append_assoc, List.cons_append]
    exact .fired (fun h' => h (hp h')) hid hm hfd hfm (by simp [hfp, hf])

/-- The tick that is processed is `due` when no delay is left. -/
theorem Phase.iter (P : Phase t due q ev) (S : q.Sound false) :
    Phase t due q.startTick (ev ++ [.iter q.timerJiffies]) := by
  cases P with
  | waiting h hi hf =>
    rcases eq_or_ne q.timerJiffies due with rfl | hT
    · rw [ahead_self] at h
      exact .expiring ((Queues.expiring_startTick S).mpr h) hi noIter_nil hf noFire_nil
    · have hd := ahead_succ hT
      have hne : ahead q.timerJiffies due ≠ 0 := fun h0 => hT (ahead_eq_zero.mp h0).symm
      refine .waiting ((Queues.due_startTick S _).mpr ?_) ?_ (by simp [hf])
      · rw [Queues.timerJiffies_startTick, hd, Nat.sub_add_cancel (Nat.pos_of_ne_zero hne)]
        exact h
      · simp [hi, Ne.symm hT]
  | expiring h =>
    rw [Queues.Expiring, S.dead .workList rfl] at h
    cases h
  | fired h hi hm hf hfm hfp =>
    rw [List.append_assoc, List.cons_append, ← q.code_startTick]
    exact .fired (fun h' => h ((Queues.pending_startTick S).mp h')) hi hm hf hfm (by simp [hfp])

/-- The first timer of the work list is run. -/
theorem Phase.fire (P : Phase t due q ev) {working : Bool} (S : q.Sound working) {u : Fin N}
    {us : List (Fin N)} (hw : q.list .workList = u :: us) :
    Phase t due q.takeTimer.unlock (ev ++ [.fire u (q.code u).1 (q.code u).2]) := by
  have hu : q.Expiring u := by simp [Queues.Expiring, hw]
  rcases eq_or_ne u t with rfl | hut
  · cases P with
    | waiting h hi hf => exact absurd h (S.not_due_of_expiring hu _)
    | expiring h hi hm hf hfm =>
      refine .fired ?_ hi hm hf hfm noFire_nil
      rintro ⟨b, hb⟩
      exact ((Queues.mem_takeTimer hw S).mp hb).2 rfl
    | fired h => exact absurd ⟨_, hu⟩ h
  · refine P.frame (fun d hd => (Queues.due_takeTimer q t d).mpr hd) ?_ ?_ rfl rfl ?_ ?_
    · exact fun hm => (Queues.mem_takeTimer hw S).mpr ⟨hm, Ne.symm hut⟩
    · rintro ⟨b, hb⟩
      exact ⟨b, ((Queues.mem_takeTimer hw S).mp hb).1⟩
    · simp [NoIter]
    · simp [NoFire, Ne.symm hut]

/-- No call on `t`. -/
def Act.Spares (t : Fin N) : Act m N → Prop
  | .call c => c.timer ≠ t
  | _ => True

theorem Phase.step {c c' : Ctl N} {a : Act m N} (P : Phase t due q ev) (ha : a.Spares t)
    (S : q.Sound c.working) (h : q.Step c a q' c' ev') : Phase t due q' (ev ++ ev') := by
  cases h with
  | @call _ c ho hc =>
    have hne : t ≠ c.timer := Ne.symm ha
    obtain ⟨hT, -, hcode⟩ := Queues.exec_frame (q := q) c
    exact P.frame (fun d hd => (Queues.due_exec_of_ne hne d).mpr hd)
      (Queues.expiring_exec_of_ne hne).mpr (Queues.pending_exec_of_ne hne).mp hT hcode
      (by simp [NoIter]) (by simp [NoFire])
  | iter hj => exact P.iter S
  | fire hw => exact P.fire S hw
  | wake | sleep | drained | resume =>
    exact P.frame (fun _ hd => hd) (fun hx => hx) (fun hp => hp) rfl rfl noIter_nil noFire_nil

theorem Phase.run {s s' : Sys m N} {as : List (Act m N)} (P : Phase t due q []) (H : s.Holds q)
    (has : ∀ a ∈ as, a.Spares t) (h : (wheel m N).run s as = some (s', ev)) :
    ∃ q', s'.Holds q' ∧ q'.code = q.code ∧ Phase t due q' ev := by
  obtain ⟨q', H', hc, P'⟩ := wheel_induction
    (P := fun q' _ ev => q'.code = q.code ∧ Phase t due q' ev) h has H ⟨rfl, P⟩
    fun q c ev a q' c' ev' ha S hP hs => ⟨hs.code.trans hP.1, hP.2.step ha S hs⟩
  exact ⟨q', H', hc, P'⟩

/-! ## Whole runs -/

/-- `add_timer` at `T` makes the timer due at its expiry, or at once if that is
past. -/
theorem ahead_due (T E : ULong m) :
    ahead T (if 0 ≤ (E - T).toInt then E else T) = delay T E := by
  simp only [toInt_sub_nonneg_iff]
  split
  · next h => rw [delay_of_lt h]
  · next h => rw [ahead_self, delay_of_le (Nat.not_lt.mp h)]

theorem phase_addTimer (q : Queues m N) (t : Fin N) (E : ULong m) :
    Phase t (if 0 ≤ (E - q.timerJiffies).toInt then E else q.timerJiffies)
      (q.exec (.addTimer t E)).1 [] := by
  refine .waiting ?_ (by simp) noFire_nil
  refine (Queues.due_rearm E E).mpr ?_
  rw [Queues.dueAs_self]
  exact (ahead_due q.timerJiffies E).symm

/-- A timer that has been run since it was armed is not pending. -/
theorem Phase.noFire_of_pending (P : Phase t due q ev) (hp : q.Pending t) : NoFire t ev := by
  cases P with
  | waiting h hi hf => exact hf
  | expiring h hi hm hf hfm => simp [hf, hfm]
  | fired h => exact absurd hp h

/-- A timer armed by `add_timer` at `T₀` for `E` and not called on since is run
in the first iteration for `due`, only there and only once; once this iteration
is over it has been run. If it is deleted before, it is not run at all. -/
theorem add_timer_runs_on_time {memory : Heap (Node N)} {setup : Fin N → TimerSetup m}
    {jiffies E : ULong m} {ret : List (Event m N)} {as : List (Act m N)}
    (h : (wheel m N).Reachable (boot memory setup jiffies) s₀)
    (harm : s₀.step (.call (.addTimer t E)) = some (s₁, ret))
    (hrun : (wheel m N).run s₁ as = some (s₂, ev)) (has : ∀ a ∈ as, a.Spares t) :
    let T₀ := s₀.world.base.timerJiffies
    let due := if 0 ≤ (E - T₀).toInt then E else T₀
    (∀ pre fn data post, ev = pre ++ .fire t fn data :: post →
      fn = (setup t).function ∧ data = (setup t).data ∧ NoFire t pre ∧ NoFire t post ∧
      ∃ before mid, pre = before ++ .iter due :: mid ∧ .iter due ∉ before ∧ NoIter mid) ∧
    (∀ before rest, ev = before ++ .iter due :: rest → .iter due ∉ before →
      (¬ NoIter rest ∨ s₂.ctl.working = false) → ∃ fn data, .fire t fn data ∈ rest) ∧
    ∀ s₃, s₂.step (.call (.delTimer t)) = some (s₃, [.ret (.delTimer t) 1]) →
      NoFire t ev ∧ ∀ bs s₄ ev', (∀ a ∈ bs, a.SparesInactive t) →
        (wheel m N).run s₃ bs = some (s₄, ev') → NoFire t ev' := by
  obtain ⟨q₀, H₀, hcode⟩ := reachable_holds h
  obtain ⟨q₁, H₁, hstep⟩ := step_refines H₀ harm
  have hq₁ := hstep.call_inv.1
  rw [H₀.realizes.timerJiffies]
  intro T₀ due
  have P₁ : Phase t due q₁ [] := hq₁ ▸ phase_addTimer q₀ t E
  have hc₁ : q₁.code t = ((setup t).function, (setup t).data) := by rw [hstep.code, hcode]
  obtain ⟨q₂, H₂, hc₂, P₂⟩ := P₁.run H₁ has hrun
  have S₂ := H₂.realizes.sound
  refine ⟨fun pre fn data post he => ?_, fun before rest he hi hover => ?_, fun s₃ hdel => ?_⟩
  · subst he
    generalize hev : pre ++ .fire t fn data :: post = ev at P₂
    have hm : Event.fire t fn data ∈ ev := by simp [← hev]
    cases P₂ with
    | waiting _ _ hf => exact absurd hm (hf fn data)
    | expiring _ _ _ hf hfm =>
      exact absurd hm ((by simp [hf, hfm] : NoFire t _) fn data)
    | @fired before mid after _ hi hn hf hfm hfp =>
      have hpre : NoFire t (before ++ .iter due :: mid) := by simp [hf, hfm]
      obtain ⟨rfl, hfire, rfl⟩ := append_cons_unique (p := fun z => ∃ fn data, z = .fire t fn data)
        (by rintro z hz ⟨fn, data, rfl⟩; exact hpre fn data hz)
        (by rintro z hz ⟨fn, data, rfl⟩; exact hfp fn data hz) ⟨fn, data, rfl⟩ hev.symm
      rw [hc₂, hc₁] at hfire
      simp only [Event.fire.injEq, true_and] at hfire
      exact ⟨hfire.1.symm, hfire.2.symm, hpre, hfp, before, mid, rfl, hi, hn⟩
  · subst he
    generalize hev : before ++ .iter due :: rest = ev at P₂
    cases P₂ with
    | waiting _ hid => exact absurd (by simp [← hev]) hid
    | expiring hx hid hm =>
      obtain ⟨rfl, rfl⟩ := append_cons_first hi hid hev
      rcases hover with hn | hw
      · exact absurd hm hn
      · rw [hw] at S₂
        rw [Queues.Expiring, S₂.dead .workList rfl] at hx
        cases hx
    | @fired pre mid post _ hid =>
      rw [List.append_assoc, List.cons_append] at hev
      obtain ⟨-, rfl⟩ := append_cons_first hi hid hev
      exact ⟨(q₂.code t).1, (q₂.code t).2, by simp⟩
  · obtain ⟨q₃, H₃, hs₃⟩ := step_refines H₂ hdel
    obtain ⟨hq₃, -, hr⟩ := hs₃.call_inv
    have hp₂ : q₂.Pending t := by
      by_contra hp
      simp [Queues.exec, hp] at hr
    have hp₃ : ¬ q₃.Pending t := by
      rintro ⟨b, hb⟩
      simp [hq₃, Queues.exec, hp₂, Queues.mem_remove] at hb
    refine ⟨P₂.noFire_of_pending hp₂, fun bs s₄ ev' hbs hr => ?_⟩
    obtain ⟨q₄, -, I⟩ := wheel_induction (P := fun q _ ev => Inactive t (q₃.expires t) q ev) hr hbs H₃
      ⟨hp₃, rfl, by simp, by simp⟩ fun q c ev a q' c' ev' ha S I hs => I.step ha S hs
    exact I.no_fire

/-- Another timer is armed for 65. The one for 130 is cascaded at 128, and its tick is
processed in a second pass. -/
theorem add_timer_runs_on_time_test1 :
    ∃ (s₀ s₁ s₂ : Sys .long32 2) (ev₀ ev ret : List (Event .long32 2)),
      (wheel .long32 2).run (boot (fun _ => ⟨.null, .null⟩) (fun _ => ⟨0, 1, 2⟩) 63)
        [.call (.addTimer 1 65)] = some (s₀, ev₀) ∧
      s₀.step (.call (.addTimer 0 130)) = some (s₁, ret) ∧
      (wheel .long32 2).run s₁ (.wake 127 :: List.replicate 133 .run ++
        .wake 130 :: List.replicate 9 .run) = some (s₂, ev) ∧ s₂.ctl = .idle ∧
      ∃ before mid post, ev = before ++ .iter 130 :: mid ++ .fire 0 1 2 :: post ∧
        .iter 130 ∉ before ∧ NoIter mid ∧ NoFire 0 (before ++ .iter 130 :: mid) ∧ NoFire 0 post := by
  obtain ⟨s, hs⟩ : ∃ s : Sys .long32 2,
      s = boot (fun _ => ⟨.null, .null⟩) (fun _ => ⟨0, 1, 2⟩) 63 := ⟨_, rfl⟩
  let as : List (Act .long32 2) := .wake 127 :: List.replicate 133 .run ++
    .wake 130 :: List.replicate 9 .run
  let before : List (Event .long32 2) := [.iter 63, .iter 64, .iter 65, .fire 1 1 2] ++
    (List.range 64).map fun i => .iter (BitVec.ofNat _ (66 + i))
  have h : ((wheel .long32 2).run s [.call (.addTimer 1 65)]).bind (fun p =>
      (p.1.step (.call (.addTimer 0 130))).bind fun u => ((wheel .long32 2).run u.1 as).map fun v =>
        (p.1.world.base.timerJiffies, v.1.ctl, v.2)) =
      some (63, .idle, before ++ .iter 130 :: [.fire 0 1 2]) := by
    rw [hs]
    decide +kernel
  obtain ⟨⟨s₀, ev₀⟩, hr₀, h⟩ := Option.bind_eq_some_iff.mp h
  obtain ⟨⟨s₁, ret⟩, harm, h⟩ := Option.bind_eq_some_iff.mp h
  obtain ⟨⟨s₂, ev⟩, hrun, h⟩ := Option.map_eq_some_iff.mp h
  simp only [Prod.mk.injEq] at h
  obtain ⟨hT, hidle, hev⟩ := h
  have hreach : (wheel .long32 2).Reachable (boot (fun _ => ⟨.null, .null⟩) (fun _ => ⟨0, 1, 2⟩) 63)
      s₀ := hs ▸ ⟨_, _, hr₀⟩
  obtain ⟨hfires, hruns, -⟩ := add_timer_runs_on_time (t := 0) hreach harm hrun
    (by simp [as, Act.Spares])
  simp only [hT] at hfires hruns
  have hdue : (if 0 ≤ ((130 : ULong .long32) - 63).toInt then (130 : ULong .long32) else 63) = 130 :=
    by decide
  rw [hdue] at hfires hruns
  obtain ⟨fn, data, hm⟩ := hruns before [.fire 0 1 2] hev (by decide +kernel) (.inr (by rw [hidle]; rfl))
  obtain ⟨mid, post, hsplit⟩ := List.append_of_mem hm
  have he : ev = before ++ .iter 130 :: mid ++ .fire 0 fn data :: post := by
    rw [hev, hsplit]
    exact (List.append_assoc before (.iter 130 :: mid) _).symm
  obtain ⟨hfn, hdata, hnf, hnf', before', mid', hpre, hi, hn⟩ := hfires _ fn data post he
  obtain rfl : fn = 1 := hfn
  obtain rfl : data = 2 := hdata
  exact ⟨s₀, s₁, s₂, ev₀, ev, ret, hs ▸ hr₀, harm, hrun, hidle, before', mid', post,
    he.trans (by rw [hpre]), hi, hn, hpre ▸ hnf, hnf'⟩

end Uki
