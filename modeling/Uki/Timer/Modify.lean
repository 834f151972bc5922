import Uki.Timer.Alike
import Uki.Timer.Rivals

/-!
# `mod_timer` and its comment

`mod_timer(timer, expires)` is documented as `del_timer(timer)`, the store of
`expires`, and `add_timer(timer)`. `__mod_timer` chooses the bucket before it
stores the new expiry, so the bucket is the one for the old expiry. Programs whose
callbacks may call anything see a difference unless the timer is left at the place
where the three statements put it. Callbacks that keep to their own timer see only
whether the turn of the bucket comes in time (`mod_timer_means_its_comment_iff`).
The fast path keeps the bucket. Without further calls it agrees with the slow path
when that bucket has its turn in time (`mod_timer_fast_path_iff`).
-/

set_option linter.style.nameCheck false

namespace Uki

variable {m : LongModel} {N : Nat} {q : Queues m N} {s : Sys m N} {t u : Fin N}

/-- At `T`, a timer in this bucket with expiry `e` is run when `e` is reached: a
bucket of `tv1` has its turn then, a bucket of a higher vector has it by then. -/
def Head.timely (T e : ULong m) : Head → Prop
  | .vec .tv1 i => wait T .tv1 i = delay T e
  | .vec tv i => wait T tv i ≤ delay T e
  | _ => False

instance (T e : ULong m) (b : Head) : Decidable (b.timely T e) :=
  match b with
  | .vec .tv1 _ => inferInstanceAs (Decidable (_ = _))
  | .vec .tv2 _ | .vec .tv3 _ | .vec .tv4 _ | .vec .tv5 _ => inferInstanceAs (Decidable (_ ≤ _))
  | .workList | .tvList => inferInstanceAs (Decidable False)

theorem Head.timely_vec (T e : ULong m) (tv : Tv) (i : Nat) :
    (Head.vec tv i).timely T e ↔ dueIn T tv i e = delay T e := by
  rcases eq_or_ne tv .tv1 with rfl | htv
  · rfl
  · rw [dueIn_eq_delay_iff htv]
    cases tv with
    | tv1 => exact absurd rfl htv
    | tv2 | tv3 | tv4 | tv5 => rfl

theorem timely_file (T key e : ULong m) :
    (internalAddVec T key).timely T e ↔ Queues.dueAs T key e = delay T e := by
  obtain ⟨tv, i, h, -⟩ := internalAddVec_lt T key
  unfold Queues.dueAs
  rw [h, Head.timely_vec]

namespace Queues

theorem status_eq_delay_iff {working : Bool} (S : q.Sound working) (t : Fin N) :
    q.status t = .due (delay q.timerJiffies (q.expires t)) ↔
      ∃ b, t ∈ q.list b ∧ b.timely q.timerJiffies (q.expires t) := by
  rw [status_due S]
  constructor
  · rintro ⟨tv, i, hm, hd⟩
    exact ⟨_, hm, (Head.timely_vec _ _ _ _).mpr hd⟩
  · rintro ⟨b, hm, hb⟩
    cases b with
    | vec tv i => exact ⟨tv, i, hm, (Head.timely_vec _ _ _ _).mp hb⟩
    | workList | tvList => exact hb.elim

theorem modTimer_slow {e : ULong m} (h : ¬ (q.Pending t ∧ q.expires t = e)) :
    (q.exec (.modTimer t e)).1 = q.rearm t (q.expires t) e := by
  by_cases hp : q.Pending t
  · have he : ¬ q.expires t = e := fun he => h ⟨hp, he⟩
    simp [exec, hp, he]
  · simp [exec, hp]

theorem modTimer_fast {e : ULong m} (h : q.Pending t ∧ q.expires t = e) :
    (q.exec (.modTimer t e)).1 = q := by
  simp [exec, h]

theorem pending_modTimer (q : Queues m N) (t : Fin N) (e : ULong m) :
    (q.exec (.modTimer t e)).1.Pending t := by
  by_cases h : q.Pending t ∧ q.expires t = e
  · rw [modTimer_fast h]
    exact h.1
  · rw [modTimer_slow h]
    exact pending_rearm _ _ _ _

theorem expires_modTimer (q : Queues m N) (t : Fin N) (e : ULong m) :
    (q.exec (.modTimer t e)).1.expires t = e := by
  by_cases h : q.Pending t ∧ q.expires t = e
  · rw [modTimer_fast h]
    exact h.2
  · rw [modTimer_slow h]
    simp [rearm]

end Queues

/-! ## `del_timer`, store, `add_timer` -/

/-- `del_timer(t); t->expires = expires; add_timer(t)`. -/
def delSetAdd (w : World m N) (t : Fin N) (expires : ULong m) : Option (World m N) := do
  let (w, _) ← delTimer w t
  addTimer (w.setExpires t expires) t

/-- A call that is allowed keeps memory in step with the queues. -/
theorem Sys.Holds.exec (H : s.Holds q) (ho : s.ctl.open = true) {c : Call m N} (hc : q.Allows c) :
    ∃ w, c.exec s.world = some (w, (q.exec c).2) ∧ Sys.Holds ⟨w, s.ctl⟩ (q.exec c).1 := by
  obtain ⟨w, hw, R⟩ := exec_spec H.realizes hc
  refine ⟨w, hw, R, ?_⟩
  have hl := H.lock
  rw [Ctl.lock, if_pos ho] at hl ⊢
  exact Sys.Holds.exec_lock c hl

theorem not_pending_delTimer (q : Queues m N) (t : Fin N) :
    ¬ (q.exec (.delTimer t)).1.Pending t := by
  by_cases hp : q.Pending t
  · rintro ⟨b, hb⟩
    simp [Queues.exec, hp, Queues.mem_remove] at hb
  · simp [Queues.exec, hp]

theorem rearm_delTimer (q : Queues m N) (t : Fin N) (key e : ULong m) :
    (q.exec (.delTimer t)).1.rearm t key e = q.rearm t key e := by
  simp only [Queues.exec]
  split
  · simp [Queues.rearm, Queues.remove, Queues.insert, Queues.store, Queues.unlock]
  · rfl

/-- The three statements put `t` into the bucket for `e`. -/
theorem delSetAdd_spec (H : s.Holds q) (ho : s.ctl.open = true) (t : Fin N) (e : ULong m) :
    ∃ w, delSetAdd s.world t e = some w ∧ Sys.Holds ⟨w, s.ctl⟩ (q.rearm t e e) := by
  obtain ⟨w₁, hw₁, H₁⟩ := H.exec ho (c := .delTimer t) trivial
  obtain ⟨w₂, hw₂, H₂⟩ := H₁.exec ho (c := .addTimer t e) (not_pending_delTimer q t)
  refine ⟨w₂, ?_, ?_⟩
  · have hd : delTimer s.world t = some (w₁, (q.exec (.delTimer t)).2) := hw₁
    obtain ⟨w, hw, he⟩ := Option.bind_eq_some_iff.mp hw₂
    cases he
    simp [delSetAdd, hd, hw]
  · rw [← rearm_delTimer]
    exact H₂

/-- `mod_timer(t, e)` and the three statements of its comment succeed, arm `t` for
`e` and go on alike, and `mod_timer` returns 1 when `t` was pending. -/
def MeansItsComment (Alike : Sys m N → Sys m N → Prop) (s : Sys m N) (t : Fin N) (e : ULong m) :
    Prop :=
  ∃ w r w', modTimer s.world t e = some (w, r) ∧ delSetAdd s.world t e = some w' ∧
    (timerPending w t = true ∧ (w.timer t).expires = e) ∧
    (timerPending w' t = true ∧ (w'.timer t).expires = e) ∧
    Alike ⟨w, s.ctl⟩ ⟨w', s.ctl⟩ ∧
    (r = 1 ↔ timerPending s.world t = true)

/-- Two continuations of `s` in which the timers other than `t` have not changed
agree when the status of `t` does. -/
theorem sameOwnRuns_iff_of_entry {q₁ q₂ : Queues m N} {w₁ w₂ : World m N} {c : Ctl N}
    (H₁ : Sys.Holds ⟨w₁, c⟩ q₁) (H₂ : Sys.Holds ⟨w₂, c⟩ q₂) (ho : c.open = true)
    (hT : q₁.timerJiffies = q₂.timerJiffies) (hJ : q₁.jiffies = q₂.jiffies)
    (hx : q₁.expires t = q₂.expires t) (hu : ∀ u, u ≠ t → q₁.entry u = q₂.entry u) :
    (SameOwnRuns ⟨w₁, c⟩ ⟨w₂, c⟩ ↔ q₁.status t = q₂.status t) ∧
      (SamePasses ⟨w₁, c⟩ ⟨w₂, c⟩ ↔ q₁.status t = q₂.status t) := by
  have he : q₁.expires = q₂.expires := by
    funext u
    by_cases h : u = t
    · rw [h, hx]
    · exact congrArg Entry.expires (hu u h)
  have hs : (∀ u, q₁.status u = q₂.status u) ↔ q₁.status t = q₂.status t := by
    refine ⟨fun h => h t, fun h u => ?_⟩
    by_cases hut : u = t
    · rw [hut, h]
    · exact congrArg Entry.status (hu u hut)
  exact ⟨(sameOwnRuns_iff H₁ H₂ rfl ho hT hJ he).trans hs,
    (samePasses_iff H₁ H₂ rfl ho hT hJ he).trans hs⟩

/-- What `mod_timer` and the three statements do, whatever they are compared by. -/
theorem meansItsComment_iff (H : s.Holds q) (ho : s.ctl.open = true) (t : Fin N) (e : ULong m) :
    ∃ w₁ w₂, Sys.Holds ⟨w₁, s.ctl⟩ (q.exec (.modTimer t e)).1 ∧
      Sys.Holds ⟨w₂, s.ctl⟩ (q.rearm t e e) ∧
      ∀ Alike, MeansItsComment Alike s t e ↔ Alike ⟨w₁, s.ctl⟩ ⟨w₂, s.ctl⟩ := by
  have R := H.realizes
  obtain ⟨w₁, hw₁, H₁⟩ := H.exec ho (c := .modTimer t e) trivial
  obtain ⟨w₂, hw₂, H₂⟩ := delSetAdd_spec H ho t e
  have hw₁ : modTimer s.world t e = some (w₁, (q.exec (.modTimer t e)).2) := hw₁
  refine ⟨w₁, w₂, H₁, H₂, fun Alike => ⟨?_, fun hS => ?_⟩⟩
  · rintro ⟨w, r, w', hw, hw', -, -, hS, -⟩
    rw [hw] at hw₁
    rw [hw'] at hw₂
    cases hw₁
    cases hw₂
    exact hS
  · refine ⟨w₁, _, w₂, hw₁, hw₂,
      ⟨H₁.realizes.timerPending_iff.mpr (Queues.pending_modTimer q t e), ?_⟩,
      ⟨H₂.realizes.timerPending_iff.mpr (Queues.pending_rearm _ _ _ _), ?_⟩, hS, ?_⟩
    · rw [H₁.realizes.expires, Queues.expires_modTimer]
    · rw [H₂.realizes.expires]
      simp [Queues.rearm]
    · rw [R.timerPending_iff]
      simp only [Queues.exec]
      split_ifs <;> simp_all

/-! ## When the two agree -/

theorem Queues.expires_modTimer_eq (q : Queues m N) (t : Fin N) (e : ULong m) :
    (q.exec (.modTimer t e)).1.expires = (q.rearm t e e).expires := by
  funext u
  by_cases hu : u = t
  · rw [hu, expires_modTimer]
    simp [rearm]
  · rw [expires_exec_of_ne (c := .modTimer t e) hu]
    simp [rearm, hu]

/-- A slow path that chooses the bucket for `e`. -/
theorem modTimer_of_bucket {e : ULong m} (hf : ¬ (q.Pending t ∧ q.expires t = e))
    (hb : internalAddVec q.timerJiffies (q.expires t) = internalAddVec q.timerJiffies e) :
    (q.exec (.modTimer t e)).1 = q.rearm t e e := by
  rw [Queues.modTimer_slow hf, Queues.rearm, Queues.rearm, hb]

/-- `mod_timer(t, e)` leaves `t` in a bucket that has its turn in time for `e`: the
bucket `t` is in, when `t` is pending with that expiry, and the bucket for the old
expiry otherwise. -/
def InTime (w : World m N) (list : Head → List (Fin N)) (t : Fin N) (e : ULong m) : Prop :=
  if timerPending w t = true ∧ (w.timer t).expires = e then
    ∃ b, t ∈ list b ∧ b.timely w.base.timerJiffies e
  else
    (internalAddVec w.base.timerJiffies (w.timer t).expires).timely w.base.timerJiffies e

/-- `mod_timer(t, e)` leaves `t` at its place in the bucket for `e`: when `t` is pending
with that expiry, it is in this bucket and no timer behind it there is run at the same
tick, and otherwise the old expiry has the same bucket. -/
def InPlace (w : World m N) (list : Head → List (Fin N)) (t : Fin N) (e : ULong m) : Prop :=
  if timerPending w t = true ∧ (w.timer t).expires = e then
    ∃ A B, list (internalAddVec w.base.timerJiffies e) = A ++ t :: B ∧
      ∀ u ∈ B, Queues.dueAs w.base.timerJiffies e (w.timer u).expires ≠
        delay w.base.timerJiffies e
  else
    internalAddVec w.base.timerJiffies (w.timer t).expires = internalAddVec w.base.timerJiffies e

section Places

variable {e : ULong m} {working : Bool} {w w₁ w₂ : World m N} (R : Realizes working [] w q)

include R

theorem fast_iff : timerPending w t = true ∧ (w.timer t).expires = e ↔
    q.Pending t ∧ q.expires t = e := by
  rw [R.timerPending_iff, R.expires]

/-- The two treat the other timers alike. -/
theorem entry_modTimer (R₁ : Realizes working [] w₁ (q.exec (.modTimer t e)).1)
    (R₂ : Realizes working [] w₂ (q.rearm t e e)) (hu : u ≠ t) :
    (q.exec (.modTimer t e)).1.entry u = (q.rearm t e e).entry u := by
  rw [Queues.entry_exec_of_ne hu R.sound R₁.sound]
  exact (Queues.entry_exec_of_ne (c := .addTimer t e) hu R.sound R₂.sound).symm

/-- The new expiry is reached exactly when its timer is run. -/
theorem status_modTimer_iff (R₁ : Realizes working [] w₁ (q.exec (.modTimer t e)).1) :
    (q.exec (.modTimer t e)).1.status t = .due (delay q.timerJiffies e) ↔
      InTime w q.list t e := by
  unfold InTime
  rw [R.timerJiffies, R.expires]
  by_cases hf : q.Pending t ∧ q.expires t = e
  · rw [if_pos ((R.expires t) ▸ (fast_iff R).mpr hf), Queues.modTimer_fast hf, ← hf.2]
    exact Queues.status_eq_delay_iff R.sound t
  · rw [Queues.modTimer_slow hf] at R₁ ⊢
    rw [if_neg ((R.expires t) ▸ (fast_iff R).not.mpr hf), timely_file,
      show (q.rearm t (q.expires t) e).status t = _ from
        congrArg Entry.status (Queues.entry_rearm _ R₁.sound)]
    exact Status.due.injEq _ _ ▸ Iff.rfl

theorem alike_of_inPlace (h : InPlace w q.list t e) :
    (q.exec (.modTimer t e)).1.Alike (q.rearm t e e) := by
  unfold InPlace at h
  rw [R.timerJiffies] at h
  by_cases hf : q.Pending t ∧ q.expires t = e
  · rw [if_pos ((fast_iff R).mpr hf)] at h
    obtain ⟨A, B, hl, hB⟩ := h
    rw [Queues.modTimer_fast hf]
    obtain rfl := hf.2
    refine Queues.alike_rearm R.sound hl fun u hu => ?_
    rw [← R.expires u, Queues.file, Head.due_file, Head.due_file, Queues.dueAs_self]
    exact hB u hu
  · rw [if_neg ((fast_iff R).not.mpr hf), R.expires] at h
    rw [modTimer_of_bucket hf h]
    exact Queues.Alike.refl _

/-- With another timer there, programs that see no difference leave `t` its place. -/
theorem inPlace_of_sameRuns {c : Ctl N} (ho : c.open = true)
    (H₁ : Sys.Holds ⟨w₁, c⟩ (q.exec (.modTimer t e)).1) (H₂ : Sys.Holds ⟨w₂, c⟩ (q.rearm t e e))
    (hu : u ≠ t) (h : SameRuns ⟨w₁, c⟩ ⟨w₂, c⟩)
    (hs : (q.exec (.modTimer t e)).1.status t = .due (delay q.timerJiffies e)) :
    InPlace w q.list t e := by
  have R₁ := H₁.realizes
  have R₂ := H₂.realizes
  have hx := q.expires_modTimer_eq t e
  obtain ⟨hT, -, -⟩ := Queues.exec_frame (q := q) (.modTimer t e)
  have he : (q.rearm t e e).expires t = e := by simp [Queues.rearm]
  obtain ⟨tv, i, hm, hd⟩ := (Queues.status_due R₁.sound).mp hs
  obtain ⟨tv', i', hf, -⟩ := internalAddVec_lt q.timerJiffies e
  have hm' : t ∈ (q.rearm t e e).list (.vec tv' i') := by
    rw [Queues.list_rearm, if_pos hf]
    exact List.mem_append_right _ (List.mem_singleton_self t)
  have hd' : dueIn q.timerJiffies tv' i' e = delay q.timerJiffies e := dueIn_file hf
  have hb : Head.vec tv i = internalAddVec q.timerJiffies e := by
    rw [hf]
    refine bucket_of_sameRuns H₁ H₂ ho hT hx hm hm' ?_ hd ?_ (delay_lt q.timerJiffies e) hu h
    · rw [Queues.file, he]
      exact hf
    · rw [he]
      exact hd'
  unfold InPlace
  rw [R.timerJiffies]
  by_cases hfast : q.Pending t ∧ q.expires t = e
  · rw [if_pos ((fast_iff R).mpr hfast), ← hb]
    rw [Queues.modTimer_fast hfast] at hm hd H₁ hT
    obtain ⟨A, B, hl⟩ := List.append_of_mem hm
    refine ⟨A, B, hl, fun v hv hdv => ?_⟩
    have hnd := R.sound.nodup (.vec tv i)
    rw [hl] at hnd
    have hne : v ≠ t := fun htv => (List.nodup_middle.mp hnd).notMem (by simp [← htv, hv])
    -- `v` is behind `t` in the first wheel, and in front of it in the second one
    have hmv : v ∈ q.list (.vec tv i) := by
      rw [hl]
      simp [hv]
    have hv₁ : q.Due v (delay q.timerJiffies e) := by
      refine ⟨tv, i, hmv, ?_⟩
      rw [Queues.dueAs, ← hb, R.expires] at hdv
      exact hdv
    have hv₂ := (Queues.due_exec_of_ne (c := .addTimer t e) hne _).mpr hv₁
    have ht₂ : (q.rearm t e e).Due t (delay q.timerJiffies e) :=
      (Queues.due_rearm e e).mpr (Queues.dueAs_self _ _)
    have hbefore : [t, v].Sublist (q.list (.vec tv i)) := by
      rw [hl]
      exact ((List.singleton_sublist.mpr hv).cons_cons t).trans (List.sublist_append_right A _)
    have hbehind : [v, t].Sublist ((q.rearm t e e).list (.vec tv i)) := by
      rw [Queues.list_rearm, if_pos hb.symm]
      refine List.Sublist.append (List.singleton_sublist.mpr ?_) (List.Sublist.refl [t])
      exact List.mem_filter.mpr ⟨hmv, by simpa using hne⟩
    exact order_of_sameRuns H₁ H₂ ho hT hne.symm ⟨tv, i, hm, hd⟩ hv₁ ht₂ hv₂
      (delay_lt q.timerJiffies e) hbefore hbehind h
  · rw [if_neg ((fast_iff R).not.mpr hfast), R.expires, ← hb]
    rw [Queues.modTimer_slow hfast] at hm R₁
    obtain ⟨tv₁, i₁, hf₁, -⟩ := internalAddVec_lt q.timerJiffies (q.expires t)
    refine R₁.sound.unique t _ _ ?_ hm
    rw [Queues.list_rearm, if_pos rfl]
    exact List.mem_append_right _ (List.mem_singleton_self t)

end Places

/-- With callbacks that may call any operation on any timer, `mod_timer` is what its
comment says exactly when it leaves `t` at its place in the bucket for the new expiry,
or when `t` is the only timer and has its turn in time. Callbacks that keep to their
own timer do not see the place, and for them it is enough that `t` has its turn in
time. The two are the same in every run of the worker when the old and the new expiry
have the same bucket. -/
theorem mod_timer_means_its_comment_iff {memory : Heap (Node N)} {setup : Fin N → TimerSetup m}
    {jiffies : ULong m} (h : (wheel m N).Reachable (boot memory setup jiffies) s)
    (ho : s.ctl.open = true) (t : Fin N) (e : ULong m) :
    let T := s.world.base.timerJiffies
    let old := (s.world.timer t).expires
    ∃ list, Conserved s.world (Head.live s.ctl.working) [] list ∧
      (MeansItsComment SameRuns s t e ↔
        InPlace s.world list t e ∨ ((∀ u, u = t) ∧ InTime s.world list t e)) ∧
      (MeansItsComment SameOwnRuns s t e ↔ InTime s.world list t e) ∧
      (¬ (timerPending s.world t = true ∧ old = e) → internalAddVec T old = internalAddVec T e →
        MeansItsComment SameEvents s t e) := by
  obtain ⟨q, H, -⟩ := reachable_holds h
  intro T old
  have R := H.realizes
  obtain ⟨w₁, w₂, H₁, H₂, hmeans⟩ := meansItsComment_iff H ho t e
  have R₁ : Realizes s.ctl.working [] w₁ _ := H₁.realizes
  have R₂ : Realizes s.ctl.working [] w₂ _ := H₂.realizes
  obtain ⟨hT₁, hJ₁, -⟩ := Queues.exec_frame (q := q) (.modTimer t e)
  have hx := q.expires_modTimer_eq t e
  have hu (u : Fin N) (hu : u ≠ t) := entry_modTimer R R₁ R₂ hu
  have hs₂ : (q.rearm t e e).status t = .due (delay q.timerJiffies e) := by
    have he₂ := Queues.entry_rearm _ R₂.sound
    rw [Queues.dueAs_self] at he₂
    exact congrArg Entry.status he₂
  have hown : SameOwnRuns ⟨w₁, s.ctl⟩ ⟨w₂, s.ctl⟩ ↔ InTime s.world q.list t e := by
    rw [(sameOwnRuns_iff_of_entry H₁ H₂ ho hT₁ hJ₁ (congrFun hx t) hu).1, hs₂,
      status_modTimer_iff R R₁]
  refine ⟨q.list, R.conserved, ?_, (hmeans _).trans hown, fun hslow hb => ?_⟩
  · rw [hmeans]
    constructor
    · intro hS
      have hin := hown.mp hS.sameOwnRuns
      by_cases hone : ∀ u, u = t
      · exact .inr ⟨hone, hin⟩
      · obtain ⟨u, hu⟩ := not_forall.mp hone
        exact .inl (inPlace_of_sameRuns R ho H₁ H₂ hu hS ((status_modTimer_iff R R₁).mpr hin))
    · rintro (hin | ⟨hone, hin⟩)
      · exact sameRuns_of_bisim Queues.alike_bisim H₁ H₂ rfl (alike_of_inPlace R hin)
      · refine sameRuns_of_bisim Queues.alone_bisim H₁ H₂ rfl
          ⟨fun u v => (hone u).trans (hone v).symm, ?_, hJ₁, hT₁⟩
        funext u
        rw [hone u, Queues.entry, Queues.entry, hx, (status_modTimer_iff R R₁).mpr hin, hs₂]
  · rw [hmeans]
    have hq := modTimer_of_bucket (t := t) (e := e) ((fast_iff R).not.mp hslow) (by
      rw [← R.timerJiffies, ← R.expires]
      exact hb)
    rw [hq] at H₁
    exact sameEvents_of_holds H₁ H₂ rfl

/-- In the callback of timer 1, at `timer_jiffies` 62. Timer 0 was set up for 126, and
timers 2 and 3 are pending for 200 in this order. 127 has the bucket of 126. The one of
70 is another, which has its turn later, but in time. Timer 3 is the last one of its
bucket, and timer 2 is not. -/
theorem mod_timer_means_its_comment_iff_test1 :
    ∃ (s : Sys .long32 4) (ev : List (Event .long32 4)),
      (wheel .long32 4).run (boot (fun _ => ⟨.null, .null⟩) (fun _ => ⟨126, 1, 2⟩) 60)
        [.call (.addTimer 1 61), .call (.addTimer 2 200), .call (.addTimer 3 200), .wake 61, .run,
          .run, .run, .run] = some (s, ev) ∧
      s.ctl = .callback 1 ∧ s.world.base.timerJiffies = 62 ∧
      MeansItsComment SameRuns s 0 127 ∧
      MeansItsComment SameOwnRuns s 0 70 ∧ ¬ MeansItsComment SameRuns s 0 70 ∧
      MeansItsComment SameRuns s 3 200 ∧ ¬ MeansItsComment SameRuns s 2 200 := by
  have h : ((wheel .long32 4).run (boot (fun _ => ⟨.null, .null⟩) (fun _ => ⟨126, 1, 2⟩) 60)
      [.call (.addTimer 1 61), .call (.addTimer 2 200), .call (.addTimer 3 200), .wake 61, .run,
        .run, .run, .run]).map (fun p => (p.1.ctl, p.1.world.base.timerJiffies,
          decide (timerPending p.1.world 0 = false ∧ timerPending p.1.world 2 = true ∧
            timerPending p.1.world 3 = true),
          decide ((p.1.world.timer 0).expires = 126 ∧ (p.1.world.timer 2).expires = 200 ∧
            (p.1.world.timer 3).expires = 200),
          decide (p.1.world.Reads (.vec .tv2 3) [2, 3]))) =
      some (.callback 1, 62, true, true, true) := by
    decide +kernel
  obtain ⟨⟨s, ev⟩, hr, hs⟩ := Option.map_eq_some_iff.mp h
  simp only [Prod.mk.injEq, decide_eq_true_eq] at hs
  obtain ⟨hc, hT, ⟨hp₀, hp₂, hp₃⟩, ⟨hx₀, hx₂, hx₃⟩, hl⟩ := hs
  have ho : s.ctl.open = true := by rw [hc]; rfl
  have hslow (list : Head → List (Fin 4)) (e : ULong .long32) :
      InPlace s.world list 0 e ↔
        internalAddVec (62 : ULong .long32) 126 = internalAddVec 62 e := by
    rw [InPlace, if_neg (by simp [hp₀]), hT, hx₀]
  have hfast {list : Head → List (Fin 4)}
      (C : Conserved s.world (Head.live s.ctl.working) [] list) :
      list (internalAddVec (62 : ULong .long32) 200) = [2, 3] := C.list_eq (by rw [hc]; rfl) hl
  have others (u : Fin 4) : ¬ ∀ v, v = u := fun hall =>
    absurd ((hall 0).trans (hall 1).symm) (by decide)
  obtain ⟨l₁, -, h₁, -⟩ := mod_timer_means_its_comment_iff ⟨_, _, hr⟩ ho 0 127
  obtain ⟨l₂, -, h₂, h₂', -⟩ := mod_timer_means_its_comment_iff ⟨_, _, hr⟩ ho 0 70
  obtain ⟨l₃, C₃, h₃, -⟩ := mod_timer_means_its_comment_iff ⟨_, _, hr⟩ ho 3 200
  obtain ⟨l₄, C₄, h₄, -⟩ := mod_timer_means_its_comment_iff ⟨_, _, hr⟩ ho 2 200
  refine ⟨s, ev, hr, hc, hT, h₁.mpr (.inl ((hslow _ _).mpr (by decide))), h₂'.mpr ?_, fun h => ?_,
    h₃.mpr (.inl ?_), fun h => ?_⟩
  · rw [InTime, if_neg (by simp [hp₀]), hT, hx₀]
    decide
  · rcases h₂.mp h with h | h
    · exact absurd ((hslow _ _).mp h) (by decide)
    · exact others 0 h.1
  · rw [InPlace, if_pos ⟨hp₃, hx₃⟩, hT, hfast C₃]
    exact ⟨[2], [], rfl, by simp⟩
  · rcases h₄.mp h with h | h
    · rw [InPlace, if_pos ⟨hp₂, hx₂⟩, hT, hfast C₄] at h
      obtain ⟨A, B, hAB, hB⟩ := h
      have h3 : (3 : Fin 4) ∈ B := by
        match A, hAB with
        | [], hAB => simpa using congrArg (3 ∈ ·) (List.cons.inj hAB).2
        | [_], hAB => simp at hAB
        | _ :: _ :: _, hAB => simp at hAB
      refine hB 3 h3 ?_
      rw [hx₃]
      decide
    · exact others 2 h.1

/-- A timer that was set up for 0 and is armed for 5 runs at 0. -/
theorem mod_timer_means_its_comment_counterexample :
    ¬ ∀ s : Sys .long32 1, (wheel .long32 1).Reachable
      (boot (fun _ => ⟨.null, .null⟩) (fun _ => ⟨0, 1, 2⟩) 0) s → s.ctl.open = true →
      ∀ t e, MeansItsComment SameRuns s t e := by
  intro hall
  set s : Sys .long32 1 := boot (fun _ => ⟨.null, .null⟩) (fun _ => ⟨0, 1, 2⟩) 0 with hs
  have h₁ : (modTimer s.world 0 5).bind (fun p => Sys.resume ⟨p.1, .idle⟩ quiet.toCallbacks 10
      (fun _ => ()) [] [⟨[], 5⟩]) =
        some [(0, [0]), (1, []), (2, []), (3, []), (4, []), (5, [])] := by
    decide +kernel
  have h₂ : (delSetAdd s.world 0 5).bind (fun w => Sys.resume ⟨w, .idle⟩ quiet.toCallbacks 10
      (fun _ => ()) [] [⟨[], 5⟩]) =
        some [(0, []), (1, []), (2, []), (3, []), (4, []), (5, [0])] := by
    decide +kernel
  obtain ⟨w, r, w', hw, hw', -, -, hS, -⟩ := hall s (Machine.Reachable.refl _) rfl 0 5
  have hF := hS.sameOwnRuns Unit quiet 10 (fun _ => ()) [] [⟨[], 5⟩]
  rw [hw, Option.bind_some] at h₁
  rw [hw', Option.bind_some] at h₂
  have hc : s.ctl = .idle := rfl
  rw [hc, h₁, h₂] at hF
  cases hF with
  | some hF => simp [SameTick] at hF

/-! ## The fast path -/

/-- On its own expiry `mod_timer` changes nothing and returns 1,
`mod_timer_pending` succeeds, and without further calls both go on alike. -/
def FastPathAgrees (s : Sys m N) (t : Fin N) : Prop :=
  ∃ w, modTimer s.world t (s.world.timer t).expires = some (s.world, 1) ∧
    modTimerPending s.world t (s.world.timer t).expires = some (w, 1) ∧
    SamePasses s ⟨w, s.ctl⟩

/-- The fast path agrees with the slow path exactly when the bucket the timer is in
has its turn in time for the expiry of the timer. -/
theorem mod_timer_fast_path_iff {memory : Heap (Node N)} {setup : Fin N → TimerSetup m}
    {jiffies : ULong m} (h : (wheel m N).Reachable (boot memory setup jiffies) s)
    (ho : s.ctl.open = true) (hp : timerPending s.world t = true) :
    ∃ list, Conserved s.world (Head.live s.ctl.working) [] list ∧
      (FastPathAgrees s t ↔
        ∃ b, t ∈ list b ∧ b.timely s.world.base.timerJiffies (s.world.timer t).expires) := by
  obtain ⟨q, H, -⟩ := reachable_holds h
  have R := H.realizes
  have hq : q.Pending t := R.timerPending_iff.mp hp
  refine ⟨q.list, R.conserved, ?_⟩
  rw [R.timerJiffies, R.expires, ← Queues.status_eq_delay_iff R.sound]
  obtain ⟨w, hw, H'⟩ := H.exec ho (c := .modTimerPending t (q.expires t)) trivial
  have hx : q.exec (.modTimerPending t (q.expires t)) =
      (q.rearm t (q.expires t) (q.expires t), 1) := if_pos hq
  rw [hx] at hw H'
  have he := Queues.entry_rearm _ H'.realizes.sound
  rw [Queues.dueAs_self] at he
  have hS : SamePasses s ⟨w, s.ctl⟩ ↔
      q.status t = .due (delay q.timerJiffies (q.expires t)) := by
    refine (sameOwnRuns_iff_of_entry (t := t) H H' ho rfl rfl ?_ fun u hu => ?_).2.trans ?_
    · exact (congrArg Entry.expires he).symm
    · have hxu := Queues.entry_exec_of_ne (c := .modTimerPending t (q.expires t)) hu R.sound
        (by rw [hx]; exact H'.realizes.sound)
      rw [hx] at hxu
      exact hxu.symm
    · rw [show (q.rearm t (q.expires t) (q.expires t)).status t = _ from congrArg Entry.status he]
  rw [← hS]
  have hold := R.expires t
  constructor
  · rintro ⟨w', -, hw', hP⟩
    have hw₁ : modTimerPending s.world t (q.expires t) = some (w, 1) := hw
    rw [hold, hw₁] at hw'
    cases hw'
    exact hP
  · intro hP
    refine ⟨w, if_pos ⟨hp, rfl⟩, ?_, hP⟩
    rw [hold]
    exact hw

/-- At `timer_jiffies` 62, timers 0 and 2 are in the bucket of 126, which has its turn
at 64, and timer 1 is in the bucket of 200. That is in time for 70 and 200, and too late
for 62. -/
theorem mod_timer_fast_path_iff_test1 :
    ∃ (s : Sys .long32 3) (ev : List (Event .long32 3)),
      (wheel .long32 3).run (boot (fun _ => ⟨.null, .null⟩) (fun _ => ⟨126, 1, 2⟩) 60)
        [.call (.modTimer 0 70), .call (.addTimer 1 200), .call (.modTimer 2 62), .wake 61, .run,
          .run, .run, .run, .run] = some (s, ev) ∧
      s.ctl = .idle ∧ s.world.base.timerJiffies = 62 ∧
      FastPathAgrees s 0 ∧ FastPathAgrees s 1 ∧ ¬ FastPathAgrees s 2 := by
  have h : ((wheel .long32 3).run (boot (fun _ => ⟨.null, .null⟩) (fun _ => ⟨126, 1, 2⟩) 60)
      [.call (.modTimer 0 70), .call (.addTimer 1 200), .call (.modTimer 2 62), .wake 61, .run,
        .run, .run, .run, .run]).map (fun p => (p.1.ctl, p.1.world.base.timerJiffies,
          decide (∀ t, timerPending p.1.world t = true),
          decide ((p.1.world.timer 0).expires = 70 ∧ (p.1.world.timer 1).expires = 200 ∧
            (p.1.world.timer 2).expires = 62),
          decide (p.1.world.Reads (.vec .tv2 1) [0, 2] ∧ p.1.world.Reads (.vec .tv2 3) [1]))) =
      some (.idle, 62, true, true, true) := by
    decide +kernel
  obtain ⟨⟨s, ev⟩, hr, hs⟩ := Option.map_eq_some_iff.mp h
  simp only [Prod.mk.injEq, decide_eq_true_eq] at hs
  obtain ⟨hc, hT, hp, ⟨hx₀, hx₁, hx₂⟩, hl₁, hl₃⟩ := hs
  have ho : s.ctl.open = true := by rw [hc]; rfl
  have live {i : Nat} (hi : i < 16) : Head.live s.ctl.working (.vec .tv2 i) = true :=
    decide_eq_true hi
  obtain ⟨l₀, C₀, h₀⟩ := mod_timer_fast_path_iff ⟨_, _, hr⟩ ho (hp 0)
  obtain ⟨l₁, C₁, h₁⟩ := mod_timer_fast_path_iff ⟨_, _, hr⟩ ho (hp 1)
  obtain ⟨l₂, C₂, h₂⟩ := mod_timer_fast_path_iff ⟨_, _, hr⟩ ho (hp 2)
  rw [hT, hx₀] at h₀
  rw [hT, hx₁] at h₁
  rw [hT, hx₂] at h₂
  refine ⟨s, ev, hr, hc, hT, h₀.mpr ⟨.vec .tv2 1, ?_, by decide⟩,
    h₁.mpr ⟨.vec .tv2 3, ?_, by decide⟩, fun h => ?_⟩
  · rw [C₀.list_eq (live (by decide)) hl₁]
    decide
  · rw [C₁.list_eq (live (by decide)) hl₃]
    decide
  · obtain ⟨b, hb, htimely⟩ := h₂.mp h
    have hm : 2 ∈ l₂ (.vec .tv2 1) := by
      rw [C₂.list_eq (live (by decide)) hl₁]
      decide
    rw [ringHeads_unique C₂.rings (C₂.inLive _ _ hb) (live (by decide)) hb hm] at htimely
    exact absurd htimely (by decide)

/-- A timer that was set up for 0 and is armed for 5 runs at 0 after the fast path,
and at 5 after the slow path. -/
theorem mod_timer_fast_path_counterexample :
    ¬ ∀ s : Sys .long32 1, (wheel .long32 1).Reachable
      (boot (fun _ => ⟨.null, .null⟩) (fun _ => ⟨0, 1, 2⟩) 0) s → s.ctl.open = true →
      ∀ t, timerPending s.world t = true → FastPathAgrees s t := by
  intro hall
  let r := (wheel .long32 1).run (boot (fun _ => ⟨.null, .null⟩) (fun _ => ⟨0, 1, 2⟩) 0)
    [.call (.modTimer 0 5)]
  have h : r.map (fun p => (p.1.ctl.open, timerPending p.1.world 0)) = some (true, true) := by
    decide +kernel
  have h₁ : r.bind (fun p => p.1.resume quiet.toCallbacks 10 (fun _ => ()) [] [⟨[], 5⟩]) =
      some [(0, [0]), (1, []), (2, []), (3, []), (4, []), (5, [])] := by
    decide +kernel
  have h₂ : r.bind (fun p => (modTimerPending p.1.world 0 (p.1.world.timer 0).expires).bind fun x =>
      Sys.resume ⟨x.1, p.1.ctl⟩ quiet.toCallbacks 10 (fun _ => ()) [] [⟨[], 5⟩]) =
      some [(0, []), (1, []), (2, []), (3, []), (4, []), (5, [0])] := by
    decide +kernel
  obtain ⟨⟨s, ev⟩, hr, hs⟩ := Option.map_eq_some_iff.mp h
  rw [Prod.mk.injEq] at hs
  obtain ⟨w, -, hw, hP⟩ := hall s ⟨_, _, hr⟩ hs.1 0 hs.2
  have hF := hP 10 [⟨[], 5⟩] (by simp)
  rw [hr, Option.bind_some] at h₁
  rw [hr, Option.bind_some, hw, Option.bind_some] at h₂
  rw [h₁, h₂] at hF
  cases hF with
  | some hF => simp [SameTick] at hF

end Uki
