import Uki.Timer.Fifo
import Mathlib.Data.List.Permutation
import Mathlib.Logic.Function.Iterate

/-!
# Two timers alone on the wheel

When two timers are the only pending ones and are run at the same tick, the buckets
they are in decide which of them is run first (`runOf`). In one bucket it is the
one that stands first (`runOf_of_precedes`). A timer whose bucket is cascaded at the
next tick is filed behind one that is already in its bucket (`runOf_of_turns`). In
all other cases it is enough to know that the two can be exchanged (`Renamed`).
-/

namespace Uki

variable {m : LongModel} {N : Nat} {q q' : Queues m N} {w : World m N} {x y t u : Fin N}
  {a b : Head} {d : Nat}

namespace Queues

/-- `x` and `y` are the only pending timers, and both are run in `d` ticks. -/
structure Pair (q : Queues m N) (x y : Fin N) (d : Nat) : Prop where
  ne : x ≠ y
  left : q.Due x d
  right : q.Due y d
  only : ∀ t, q.Pending t → t = x ∨ t = y

theorem Pair.symm (P : q.Pair x y d) : q.Pair y x d :=
  ⟨P.ne.symm, P.right, P.left, fun t ht => (P.only t ht).symm⟩

/-- The timers that are run in `d` ticks, when none is before. -/
def runOf (q : Queues m N) (d : Nat) : List (Fin N) := (startTick^[d + 1] q).list .workList

theorem runOf_zero (q : Queues m N) : q.runOf 0 = q.startTick.list .workList := rfl

theorem runOf_succ (q : Queues m N) (d : Nat) : q.runOf (d + 1) = q.startTick.runOf d := rfl

/-- A tick at which nothing is run brings both timers closer. -/
theorem Pair.startTick (P : q.Pair x y (d + 1)) (S : q.Sound false) : q.startTick.Pair x y d :=
  ⟨P.ne, (due_startTick S d).mpr P.left, (due_startTick S d).mpr P.right,
    fun t ht => P.only t ((pending_startTick S).mp ht)⟩

theorem Pair.workList_nil (P : q.Pair x y d) {working : Bool} (S : q.Sound working) :
    q.list .workList = [] := by
  rw [List.eq_nil_iff_forall_not_mem]
  intro t ht
  rcases P.only t ⟨_, ht⟩ with rfl | rfl
  · exact S.not_due_of_expiring ht d P.left
  · exact S.not_due_of_expiring ht d P.right

/-- The work list is not needed. -/
theorem Pair.idle (P : q.Pair x y d) {working : Bool} (R : Realizes working [] w q) :
    Realizes false [] w q := by
  cases working with
  | false => exact R
  | true => exact R.forget (P.workList_nil R.sound)

/-- The next tick leaves memory that realizes the queues. -/
theorem Pair.realizes (P : q.Pair x y (d + 1)) (R : Realizes false [] w q) :
    ∃ w', Uki.startTick w = some w' ∧ Realizes true [] w' q.startTick ∧
      Realizes false [] w' q.startTick := by
  obtain ⟨w', hw', R'⟩ := startTick_spec R
  exact ⟨w', hw', R', (P.startTick R.sound).idle R'⟩

/-- Both are run at the same tick. -/
theorem Pair.runOf (P : q.Pair x y d) (R : Realizes false [] w q) :
    q.runOf d = [x, y] ∨ q.runOf d = [y, x] := by
  induction d generalizing q w with
  | zero =>
    obtain ⟨w', -, R'⟩ := startTick_spec R
    rw [runOf_zero]
    refine List.perm_pair.mp ((List.perm_ext_iff_of_nodup (R'.nodup _) ?_).mpr fun t => ?_)
    · simpa using P.ne
    · have hx := (expiring_startTick (t := t) R.sound)
      rw [Expiring] at hx
      rw [hx, List.mem_cons, List.mem_singleton]
      constructor
      · intro h
        exact P.only t ((pending_iff R.sound).mpr (.inr ⟨0, h⟩))
      · rintro (rfl | rfl)
        · exact P.left
        · exact P.right
  | succ d ih =>
    obtain ⟨w', -, -, R'⟩ := P.realizes R
    rw [runOf_succ]
    exact ih (P.startTick R.sound) R'

/-! ## In one bucket -/

/-- Timers with the same delay are filed in the same bucket. -/
theorem file_congr {T e e' : ULong m} (h : delay T e = delay T e') :
    internalAddVec T e = internalAddVec T e' := by
  have past {e e' : ULong m} (he : half m ≤ ahead T e) (h : delay T e = delay T e') :
      internalAddVec T e = internalAddVec T e' := by
    have hh := le_half m
    rw [delay_of_le he] at h
    have hpast (e : ULong m) (he : half m ≤ ahead T e) :
        internalAddVec T e = .vec .tv1 (T.toNat % 64) := by
      rw [internalAddVec_eq, if_neg (by omega), if_neg (by omega), if_neg (by omega),
        if_neg (by omega), if_pos he]
    rw [hpast e he]
    rcases Nat.lt_or_ge (ahead T e') (half m) with he' | he'
    · rw [delay_of_lt he'] at h
      obtain rfl := ahead_eq_zero.mp h.symm
      rw [internalAddVec_eq, if_pos (by rw [ahead_self]; decide)]
    · exact (hpast e' he').symm
  rcases Nat.lt_or_ge (ahead T e) (half m) with he | he
  · rcases Nat.lt_or_ge (ahead T e') (half m) with he' | he'
    · rw [delay_of_lt he, delay_of_lt he'] at h
      rw [← add_ahead T e, h, add_ahead]
    · exact (past he' h.symm).symm
  · exact past he h

/-- The two stay in order in a turn, wherever it leaves them. -/
theorem precedes_turned {tv : Tv} (htv : tv ≠ .tv1) (h : [x, y].Sublist (q.list b))
    (hf : q.file y = q.file x ∨ ∀ tv ≠ .tv1, ¬ b.moves q.timerJiffies tv) :
    ∃ c, [x, y].Sublist ((q.turn tv).list c) ∧
      (q.file y = q.file x ∨ ∀ tv ≠ .tv1, ¬ c.moves q.timerJiffies tv) := by
  rcases hf with hf | hb
  · exact ⟨_, precedes_turn tv h hf, .inl hf⟩
  · obtain ⟨ts, hts⟩ := list_turn_of_not_moves tv (hb tv htv)
    exact ⟨b, hts ▸ h.trans (List.sublist_append_left _ _), .inr hb⟩

theorem precedes_cascadeTimers (h : [x, y].Sublist (q.list b))
    (hf : q.file y = q.file x ∨ ∀ tv ≠ .tv1, ¬ b.moves q.timerJiffies tv) :
    ∃ c, [x, y].Sublist (q.cascadeTimers.list c) := by
  have next {q' : Queues m N} {b : Head} (tv : Tv) (htv : tv ≠ .tv1)
      (hT : q'.timerJiffies = q.timerJiffies) (hx : q'.expires = q.expires)
      (h : [x, y].Sublist (q'.list b) ∧
        (q.file y = q.file x ∨ ∀ tv ≠ .tv1, ¬ b.moves q.timerJiffies tv)) :
      ∃ c, [x, y].Sublist ((q'.turn tv).list c) ∧
        (q.file y = q.file x ∨ ∀ tv ≠ .tv1, ¬ c.moves q.timerJiffies tv) := by
    have := precedes_turned htv h.1
    simp only [file, hT, hx] at this
    exact this h.2
  obtain ⟨c₂, h₂⟩ := next .tv2 (by decide) rfl rfl ⟨h, hf⟩
  obtain ⟨c₃, h₃⟩ := next .tv3 (by decide) (by simp) (by simp) h₂
  obtain ⟨c₄, h₄⟩ := next .tv4 (by decide) (by simp) (by simp) h₃
  obtain ⟨c₅, h₅⟩ := next .tv5 (by decide) (by simp) (by simp) h₄
  exact ⟨c₅, h₅.1⟩

/-- Two timers of one bucket that are run together stay in order in the cascades. -/
theorem precedes_of_due (S : q.Sound false) (h : [x, y].Sublist (q.list b)) (hx : q.Due x d)
    (hy : q.Due y d) : ∃ c, [x, y].Sublist (q.cascadeTimers.list c) := by
  refine precedes_cascadeTimers h ?_
  by_cases hm : ∃ tv, tv ≠ .tv1 ∧ b.moves q.timerJiffies tv
  · left
    obtain ⟨tv, htv, hb⟩ := hm
    obtain ⟨hturn, -⟩ := hb.turns htv
    obtain ⟨tv₁, i₁, hm₁, hd₁⟩ := hx
    obtain ⟨tv₂, i₂, hm₂, hd₂⟩ := hy
    obtain rfl := S.unique x _ _ hm₁ (h.subset (by simp))
    cases S.unique y _ _ hm₂ (h.subset (by simp))
    -- the bucket is cascaded now, so both have the same delay
    rw [dueIn_of_ne hturn.1, hturn.2] at hd₁ hd₂
    refine file_congr ?_
    simpa using hd₂.trans hd₁.symm
  · exact .inr fun tv htv hb => hm ⟨tv, htv, hb⟩

/-- `y` is still to be filed by the cascades from level `k` on, or stands behind `x`. -/
def Meeting (q : Queues m N) (x y : Fin N) (b c : Head) (k : Nat) : Prop :=
  [x, y].Sublist (q.list c) ∨ (x ∈ q.list c ∧ y ∈ q.list b ∧ k ≤ b.shift)

theorem Meeting.turn {c : Head} {tv : Tv} {k : Nat} (M : q.Meeting x y b c tv.shift)
    (htv : tv ≠ .tv1) (hk : ∀ tv' : Tv, tv.shift < tv'.shift → k ≤ tv'.shift)
    (hx : q.file x = c) (hy : q.file y = c) (hb : b.turns q.timerJiffies) (hne : b ≠ c)
    (S : y ∈ q.list b → ∃ tv' i, b = .vec tv' i ∧ i < tv'.size) :
    (q.turn tv).Meeting x y b c k := by
  have hturned : c.turned q.timerJiffies tv (q.expires x) = c := by
    rw [← hx]
    exact Head.turned_file _ _ _
  rcases M with h | ⟨hmx, hmy, hle⟩
  · left
    have := precedes_turn tv h (hy.trans hx.symm)
    rwa [hturned] at this
  · by_cases hm : b.moves q.timerJiffies tv
    · left
      refine precedes_of_meet hmx hmy (fun hc => hne (hm.2.trans hc.2.symm)) hm hy
    · right
      refine ⟨?_, ?_, ?_⟩
      · have := mem_turned tv hmx
        rwa [hturned] at this
      · have := mem_turned tv hmy
        rwa [Head.turned_of_not_moves hm] at this
      · obtain ⟨tv', i, rfl, hi⟩ := S hmy
        refine hk tv' (lt_of_le_of_ne hle fun hs => hm ?_)
        have htt : tv = tv' := by
          cases tv <;> cases tv' <;> first | rfl | cases hs
        subst htt
        have h0 := (wait_eq_zero_iff q.timerJiffies htv hi).mp hb.2
        exact ⟨h0.1, by rw [← h0.2]⟩

/-- A timer that is filed by the next cascades comes behind one that is already there. -/
theorem precedes_of_turns (S : q.Sound false) (hx : x ∈ q.list (q.file y)) (hy : y ∈ q.list b)
    (hf : q.file x = q.file y) (hb : b.turns q.timerJiffies) (hne : b ≠ q.file y) :
    ∃ c, [x, y].Sublist (q.cascadeTimers.list c) := by
  have hvec : ∃ tv i, b = .vec tv i ∧ i < tv.size := by
    cases b with
    | vec tv i => exact ⟨tv, i, rfl, S.lt hy⟩
    | workList | tvList => exact hb.elim
  have hge : Tv.tv2.shift ≤ b.shift := by
    have lowest (tv : Tv) : tv ≠ .tv1 → Tv.tv2.shift ≤ tv.shift := by cases tv <;> decide
    obtain ⟨tv, i, rfl, -⟩ := hvec
    exact lowest tv hb.1
  have next {q' : Queues m N} {tv : Tv} {k : Nat} (htv : tv ≠ .tv1)
      (hT : q'.timerJiffies = q.timerJiffies) (hex : q'.expires = q.expires)
      (hk : ∀ tv' : Tv, tv.shift < tv'.shift → k ≤ tv'.shift)
      (M : q'.Meeting x y b (q.file y) tv.shift) : (q'.turn tv).Meeting x y b (q.file y) k := by
    refine M.turn htv hk ?_ ?_ (hT ▸ hb) hne fun _ => hvec
    · rw [file, hT, hex]
      exact hf
    · rw [file, hT, hex]
      rfl
  have M₂ : q.Meeting x y b (q.file y) Tv.tv2.shift := .inr ⟨hx, hy, hge⟩
  have M₃ := next (k := Tv.tv3.shift) (by decide) rfl rfl (by intro tv; cases tv <;> decide) M₂
  have M₄ := next (k := Tv.tv4.shift) (by decide) (by simp) (by simp)
    (by intro tv; cases tv <;> decide) M₃
  have M₅ := next (k := Tv.tv5.shift) (by decide) (by simp) (by simp)
    (by intro tv; cases tv <;> decide) M₄
  have M₆ := next (k := 19) (by decide) (by simp) (by simp)
    (by intro tv; cases tv <;> decide) M₅
  rcases M₆ with h | ⟨-, -, hle⟩
  · exact ⟨_, h⟩
  · -- there is no level above
    obtain ⟨tv, i, rfl, -⟩ := hvec
    have : tv.shift < 19 := by cases tv <;> decide
    exact absurd hle (Nat.not_le.mpr this)

/-- What stands first in a bucket after the next cascades is run first. -/
theorem runOf_of_cascade (P : q.Pair x y d) (R : Realizes false [] w q)
    (h : ∃ c, [x, y].Sublist (q.cascadeTimers.list c)) : q.runOf d = [x, y] := by
  have S := R.sound
  induction d generalizing q w with
  | zero =>
    have hs : [x, y].Sublist (q.runOf 0) := precedes_startTick S (.inl h)
      ((expiring_startTick S).mpr P.left) ((expiring_startTick S).mpr P.right)
    rcases P.runOf R with hr | hr
    · exact hr
    · rw [hr] at hs
      have hxy := (hs.eq_of_length rfl)
      exact absurd (List.cons.inj hxy).1 P.ne
  | succ d ih =>
    obtain ⟨w', -, -, R'⟩ := P.realizes R
    have P' := P.startTick S
    refine ih P' R' ?_ R'.sound
    obtain ⟨c, hc⟩ := h
    rw [← list_startTick_of_due S P'.left (hc.subset (by simp))] at hc
    exact precedes_of_due R'.sound hc P'.left P'.right

/-- In one bucket, what stands first is run first. -/
theorem runOf_of_precedes (P : q.Pair x y d) (R : Realizes false [] w q)
    (h : [x, y].Sublist (q.list b)) : q.runOf d = [x, y] :=
  runOf_of_cascade P R (precedes_of_due R.sound h P.left P.right)

/-- The one that is filed by the next cascades is run last. -/
theorem runOf_of_turns (P : q.Pair x y d) (R : Realizes false [] w q) (hx : x ∈ q.list (q.file y))
    (hy : y ∈ q.list b) (hf : q.file x = q.file y) (hb : b.turns q.timerJiffies)
    (hne : b ≠ q.file y) : q.runOf d = [x, y] :=
  runOf_of_cascade P R (precedes_of_turns R.sound hx hy hf hb hne)

/-! ## Exchanging timers -/

/-- `q'` is `q` with the timers renamed. -/
structure Renamed (π : Equiv.Perm (Fin N)) (q q' : Queues m N) : Prop where
  timerJiffies : q'.timerJiffies = q.timerJiffies
  expires : ∀ t, q'.expires (π t) = q.expires t
  list : ∀ b, q'.list b = (q.list b).map π

namespace Renamed

variable {π : Equiv.Perm (Fin N)}

theorem file (h : Renamed π q q') (t : Fin N) : q'.file (π t) = q.file t := by
  rw [Queues.file, Queues.file, h.timerJiffies, h.expires]

theorem turn (h : Renamed π q q') (tv : Tv) : Renamed π (q.turn tv) (q'.turn tv) where
  timerJiffies := by rw [timerJiffies_turn, timerJiffies_turn, h.timerJiffies]
  expires t := by rw [expires_turn, expires_turn, h.expires]
  list b := by
    have hmap (l : List (Fin N)) : (l.map π).filter (fun t => q'.file t = b) =
        (l.filter fun t => q.file t = b).map π := by
      rw [List.filter_map]
      refine congrArg (List.map π) (List.filter_congr fun t _ => ?_)
      rw [Function.comp_apply, h.file]
    unfold Queues.turn
    rw [h.timerJiffies]
    split
    · simp only [cascade, fileAll, list_setList, h.list, List.map_append]
      congr 1
      · split
        · rfl
        · rfl
      · exact hmap _
    · exact h.list b

theorem startTick (h : Renamed π q q') : Renamed π q.startTick q'.startTick where
  timerJiffies := congrArg (· + 1) h.timerJiffies
  expires t := by rw [expires_startTick, expires_startTick, h.expires]
  list b := by
    have hc : Renamed π q.cascadeTimers q'.cascadeTimers :=
      (((h.turn _).turn _).turn _).turn _
    have hcur : q'.current = q.current := by rw [current, current, h.timerJiffies]
    simp only [Queues.startTick, list_setList, hcur, hc.list]
    split_ifs <;> rfl

theorem runOf (h : Renamed π q q') (d : Nat) : q'.runOf d = (q.runOf d).map π := by
  induction d generalizing q q' with
  | zero =>
    rw [runOf_zero, runOf_zero]
    exact h.startTick.list _
  | succ d ih =>
    rw [runOf_succ, runOf_succ]
    exact ih h.startTick

end Renamed

/-! ## Which one is run first -/

/-- Two timers alone on the wheel, of which `x` is run first. -/
structure Duel (q : Queues m N) (x y : Fin N) (d : Nat) : Prop extends q.Pair x y d where
  first : q.runOf d = [x, y]

theorem Duel.startTick (D : q.Duel x y (d + 1)) (S : q.Sound false) : q.startTick.Duel x y d :=
  ⟨D.toPair.startTick S, D.first⟩

theorem Pair.duel (P : q.Pair x y d) (R : Realizes false [] w q) : q.Duel x y d ∨ q.Duel y x d :=
  (P.runOf R).imp (⟨P, ·⟩) (⟨P.symm, ·⟩)

/-- The lock and the clock do not matter. -/
theorem Duel.congr (D : q.Duel x y d) (hT : q'.timerJiffies = q.timerJiffies)
    (hx : q'.expires = q.expires) (hl : q'.list = q.list) : q'.Duel x y d where
  ne := D.ne
  left := by simpa only [Due, hT, hx, hl] using D.left
  right := by simpa only [Due, hT, hx, hl] using D.right
  only := by simpa only [Pending, hl] using D.only
  first := by
    have h : Renamed (Equiv.refl _) q q' := ⟨hT, fun t => congrFun hx t, fun b => by simp [hl]⟩
    rw [h.runOf, D.first]
    rfl

end Queues

end Uki
