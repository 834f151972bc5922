import Uki.Timer.OnTime
import Uki.Timer.Terminate

/-!
# Timers with the same expiry

A timer joins its bucket at the tail, and a cascade files the timers of a bucket
in their order, so two timers in one bucket with the same expiry stay in order.
Two such timers in different buckets meet when a cascade files one of them where
the other is; the one that is filed is then behind. This happens to the timer
armed first when time has passed between the two armings: the later one is put
directly into a lower vector (`timers_are_fifo_counterexample`). The callbacks run
in the order of arming when no tick does this (`timers_are_fifo`).
-/

namespace Uki

variable {m : LongModel} {N : Nat} {q q' : Queues m N} {A B : Fin N} {T E : ULong m} {a b : Head}

/-! ## Meeting in a cascade -/

/-- The turn of `tv` at `T` cascades this bucket. -/
def Head.moves (T : ULong m) (tv : Tv) (b : Head) : Prop :=
  T.toNat % 2 ^ tv.shift = 0 ∧ b = .vec tv (T.toNat / 2 ^ tv.shift % 16)

theorem Head.turned_of_moves {tv : Tv} (h : b.moves T tv) (e : ULong m) :
    b.turned T tv e = internalAddVec T e := by
  obtain ⟨h0, rfl⟩ := h
  exact if_pos ⟨h0, rfl, rfl⟩

theorem Head.turned_of_not_moves {tv : Tv} (h : ¬ b.moves T tv) (e : ULong m) :
    b.turned T tv e = b := by
  cases b with
  | vec tv' i =>
    refine if_neg fun hc => h ⟨hc.1, ?_⟩
    rw [hc.2.1, hc.2.2]
  | workList | tvList => rfl

/-- The bucket is cascaded at `T`. -/
def Head.turns (T : ULong m) : Head → Prop
  | .vec tv i => tv ≠ .tv1 ∧ wait T tv i = 0
  | _ => False

def Head.shift : Head → Nat
  | .vec tv _ => tv.shift
  | _ => 0

/-- Cascades happen at the multiples of 64 only. -/
theorem Head.turns.mod (h : b.turns T) : T.toNat % 64 = 0 := by
  cases b with
  | workList | tvList => exact h.elim
  | vec tv i =>
    obtain ⟨htv, hw⟩ := h
    cases tv with
    | tv1 => exact absurd rfl htv
    | tv2 | tv3 | tv4 | tv5 =>
      simp only [wait, Tv.span, Tv.size, Tv.shift, TVN_SIZE, TVR_BITS, TVN_BITS,
        Nat.shiftLeft_eq] at hw
      omega

/-- At `T`, timers with expiry `E` in the buckets `a` and `b`: the one in `a` is
filed where the other one already is, or is filed by the cascade of a lower
vector. -/
def Head.FiledBehind (T E : ULong m) (a b : Head) : Prop :=
  a ≠ b ∧ a.turns T ∧ (b = internalAddVec T E ∨ (b.turns T ∧ b.shift < a.shift))

theorem Head.moves.turns {tv : Tv} (htv : tv ≠ .tv1) (h : b.moves T tv) :
    b.turns T ∧ b.shift = tv.shift := by
  obtain ⟨h0, rfl⟩ := h
  refine ⟨⟨htv, (wait_eq_zero_iff T htv ?_).mpr ⟨h0, rfl⟩⟩, rfl⟩
  exact lt_of_lt_of_le (Nat.mod_lt _ (by decide)) (by cases tv <;> decide)

namespace Queues

theorem mem_turned (tv : Tv) (hm : A ∈ q.list b) :
    A ∈ (q.turn tv).list (b.turned q.timerJiffies tv (q.expires A)) :=
  (mem_turn tv).mpr ⟨b, hm, rfl⟩

theorem list_turn_of_not_moves (tv : Tv) (h : ¬ b.moves q.timerJiffies tv) :
    ∃ ts, (q.turn tv).list b = q.list b ++ ts := by
  unfold turn
  split
  · next h0 =>
    have hb : b ≠ .vec tv (q.timerJiffies.toNat / 2 ^ tv.shift % 16) := fun hb => h ⟨h0, hb⟩
    refine ⟨(q.list (.vec tv (q.timerJiffies.toNat / 2 ^ tv.shift % 16))).filter fun t =>
      q.file t = b, ?_⟩
    simp only [cascade, fileAll, list_setList, if_neg hb]
    rfl
  · exact ⟨[], (List.append_nil _).symm⟩

/-- A cascaded bucket, seen from the bucket its timers join. -/
theorem list_turn_of_moves {tv : Tv} (h : b.moves q.timerJiffies tv) (b' : Head) :
    (q.turn tv).list b' = (if b' = b then [] else q.list b') ++
      (q.list b).filter fun t => q.file t = b' := by
  obtain ⟨h0, rfl⟩ := h
  unfold turn
  rw [if_pos h0]
  simp only [cascade, fileAll, list_setList]
  rfl

/-- Two timers that are filed in the same bucket stay in order in a turn. -/
theorem precedes_turn (tv : Tv) (h : [A, B].Sublist (q.list b)) (hf : q.file B = q.file A) :
    [A, B].Sublist ((q.turn tv).list (b.turned q.timerJiffies tv (q.expires A))) := by
  by_cases hb : b.moves q.timerJiffies tv
  · have hAB : [A, B].filter (fun t => q.file t = q.file A) = [A, B] := by simp [hf]
    rw [Head.turned_of_moves hb, list_turn_of_moves hb]
    refine List.Sublist.trans ?_ (List.sublist_append_right _ _)
    rw [← hAB]
    exact h.filter _
  · obtain ⟨ts, hts⟩ := list_turn_of_not_moves tv hb
    rw [Head.turned_of_not_moves hb, hts]
    exact h.trans (List.sublist_append_left _ _)

/-- A timer that is filed by a turn where another one is comes after it. -/
theorem precedes_of_meet {tv : Tv} (hA : A ∈ q.list a) (hB : B ∈ q.list b)
    (ha : ¬ a.moves q.timerJiffies tv) (hb : b.moves q.timerJiffies tv) (hf : q.file B = a) :
    [A, B].Sublist ((q.turn tv).list a) := by
  have hab : a ≠ b := fun h => ha (h ▸ hb)
  rw [list_turn_of_moves hb, if_neg hab]
  refine List.Sublist.append (List.singleton_sublist.mpr hA) ?_
  exact List.singleton_sublist.mpr (List.mem_filter.mpr ⟨hB, by simpa using hf⟩)

end Queues

/-! ## A tick -/

/-- In the cascades of a tick, once the vectors below level `k` have had their turn:
`A` precedes `B` in a bucket, or they are in different buckets. They started in
`a` and `b`. -/
inductive Cascading (T E : ULong m) (A B : Fin N) (a b : Head) (k : Nat) (q : Queues m N) :
    Prop where
  | met {c : Head} (h : [A, B].Sublist (q.list c))
  | apart {a' b' : Head} (hne : a' ≠ b') (hA : A ∈ q.list a') (hB : B ∈ q.list b')
      (ha : a' = a ∨ a' = internalAddVec T E)
      (hb : b' = b ∨ (b' = internalAddVec T E ∧ b.turns T ∧ b.shift < k))

theorem Cascading.turn {tv : Tv} {k : Nat} (C : Cascading T E A B a b tv.shift q) (htv : tv ≠ .tv1)
    (hlt : tv.shift < k) (hT : q.timerJiffies = T) (hA : q.expires A = E)
    (hB : q.expires B = E) (hf : ¬ a.FiledBehind T E b) :
    Cascading T E A B a b k (q.turn tv) := by
  subst hT
  cases C with
  | met h => exact .met (Queues.precedes_turn tv h (by rw [Queues.file, Queues.file, hB, hA]))
  | @apart a' b' hne hmA hmB ha hb =>
    have hmA' := Queues.mem_turned tv hmA
    have hmB' := Queues.mem_turned tv hmB
    rw [hA] at hmA'
    rw [hB] at hmB'
    by_cases hmeet : a'.turned q.timerJiffies tv E = b'.turned q.timerJiffies tv E
    · by_cases hma : a'.moves q.timerJiffies tv
      · -- `A` cannot be the one that is filed
        have hmb : ¬ b'.moves q.timerJiffies tv := fun hmb => hne (hma.2.trans hmb.2.symm)
        rw [Head.turned_of_moves hma, Head.turned_of_not_moves hmb] at hmeet
        have haa : a' = a := by
          rcases ha with ha | ha
          · exact ha
          · exact absurd (ha.trans hmeet) hne
        subst haa
        obtain ⟨hat, has⟩ := hma.turns htv
        refine absurd ?_ hf
        rcases hb with rfl | ⟨-, hbt, hbs⟩
        · exact ⟨hne, hat, .inl hmeet.symm⟩
        · have hab : a' ≠ b := fun h => by
            rw [h] at has
            omega
          exact ⟨hab, hat, .inr ⟨hbt, by omega⟩⟩
      · have hmb : b'.moves q.timerJiffies tv := by
          by_contra hmb
          rw [Head.turned_of_not_moves hma, Head.turned_of_not_moves hmb] at hmeet
          exact hne hmeet
        rw [Head.turned_of_not_moves hma, Head.turned_of_moves hmb] at hmeet
        exact .met (Queues.precedes_of_meet hmA hmB hma hmb (by rw [Queues.file, hB, hmeet]))
    · refine .apart hmeet hmA' hmB' ?_ ?_
      · by_cases hma : a'.moves q.timerJiffies tv
        · exact .inr (Head.turned_of_moves hma E)
        · rw [Head.turned_of_not_moves hma]
          exact ha
      · by_cases hmb : b'.moves q.timerJiffies tv
        · right
          refine ⟨Head.turned_of_moves hmb E, ?_⟩
          rcases hb with rfl | ⟨-, hbt, hbs⟩
          · obtain ⟨hbt, hbs⟩ := hmb.turns htv
            exact ⟨hbt, by omega⟩
          · exact ⟨hbt, by omega⟩
        · rw [Head.turned_of_not_moves hmb]
          rcases hb with hb | ⟨hb, hbt, hbs⟩
          · exact .inl hb
          · exact .inr ⟨hb, hbt, by omega⟩

namespace Queues

theorem cascade_unique (S : q.Sound false) (h : A ∈ q.cascadeTimers.list a)
    (h' : A ∈ q.cascadeTimers.list b) : a = b := by
  obtain ⟨a₀, hm, rfl⟩ := (mem_cascadeTimers S).mp h
  obtain ⟨b₀, hm', rfl⟩ := (mem_cascadeTimers S).mp h'
  rw [S.unique A _ _ hm hm']

/-- `A` precedes `B` in a queue, or they are in different queues. -/
def Ordered (q : Queues m N) (A B : Fin N) : Prop :=
  (∃ c, [A, B].Sublist (q.list c)) ∨ ∃ a b, a ≠ b ∧ A ∈ q.list a ∧ B ∈ q.list b

theorem ordered_cascadeTimers (hA : q.expires A = E) (hB : q.expires B = E) (h : q.Ordered A B)
    (hf : ∀ a b, A ∈ q.list a → B ∈ q.list b → ¬ a.FiledBehind q.timerJiffies E b) :
    q.cascadeTimers.Ordered A B := by
  have go {a b : Head} (hf : ¬ a.FiledBehind q.timerJiffies E b)
      (C : Cascading q.timerJiffies E A B a b Tv.tv2.shift q) : q.cascadeTimers.Ordered A B := by
    have h3 := C.turn (k := Tv.tv3.shift) (by decide) (by decide) rfl hA hB hf
    have h4 := h3.turn (k := Tv.tv4.shift) (by decide) (by decide) (by simp) (by simpa) (by simpa) hf
    have h5 := h4.turn (k := Tv.tv5.shift) (by decide) (by decide) (by simp) (by simpa) (by simpa) hf
    have h6 := h5.turn (k := 19) (by decide) (by decide) (by simp) (by simpa) (by simpa) hf
    cases h6 with
    | met h => exact .inl ⟨_, h⟩
    | apart hne hmA hmB => exact .inr ⟨_, _, hne, hmA, hmB⟩
  rcases h with ⟨c, hc⟩ | ⟨a, b, hne, hmA, hmB⟩
  · exact go (a := c) (b := c) (fun hf => hf.1 rfl) (.met hc)
  · exact go (hf a b hmA hmB) (.apart hne hmA hmB (.inl rfl) (.inl rfl))

/-- The bucket of a timer that is not run in this tick stays as the cascades left it. -/
theorem list_startTick_of_due {t : Fin N} {d : Nat} {c : Head} (S : q.Sound false)
    (ht : q.startTick.Due t d) (hm : t ∈ q.cascadeTimers.list c) :
    q.startTick.list c = q.cascadeTimers.list c := by
  obtain ⟨tv, i, hm', -⟩ := ht
  rcases mem_startTick.mp hm' with ⟨hc, -⟩ | ⟨-, hne, hm'⟩
  · cases hc
  · rw [cascade_unique S hm hm']
    simp [startTick, hne]

/-- Two timers that are due at the same time and are not run in this tick stay
ordered. -/
theorem ordered_startTick {d : Nat} (S : q.Sound false) (h : q.cascadeTimers.Ordered A B)
    (hA : q.startTick.Due A d) (hB : q.startTick.Due B d) : q.startTick.Ordered A B := by
  rcases h with ⟨c, hc⟩ | ⟨a, b, hne, hmA, hmB⟩
  · have hmA : A ∈ q.cascadeTimers.list c := hc.subset (by simp)
    exact .inl ⟨c, by rwa [list_startTick_of_due S hA hmA]⟩
  · refine .inr ⟨a, b, hne, ?_, ?_⟩
    · rwa [list_startTick_of_due S hA hmA]
    · rwa [list_startTick_of_due S hB hmB]

/-- Two timers that are run in this tick join the work list in order. -/
theorem precedes_startTick (S : q.Sound false) (h : q.cascadeTimers.Ordered A B)
    (hA : q.startTick.Expiring A) (hB : q.startTick.Expiring B) :
    [A, B].Sublist (q.startTick.list .workList) := by
  have here {t : Fin N} (ht : q.startTick.Expiring t) : t ∈ q.cascadeTimers.list q.current := by
    rcases mem_startTick.mp ht with ⟨-, hm⟩ | ⟨hne, -⟩
    · exact hm
    · exact absurd rfl hne
  rcases h with ⟨c, hc⟩ | ⟨a, b, hne, hmA, hmB⟩
  · have hmA : A ∈ q.cascadeTimers.list c := hc.subset (by simp)
    rw [cascade_unique S hmA (here hA)] at hc
    simpa [startTick, current] using hc
  · exact absurd ((cascade_unique S hmA (here hA)).trans (cascade_unique S hmB (here hB)).symm) hne

/-- Another timer is armed. -/
theorem ordered_rearm {t : Fin N} (key e : ULong m) (hA : A ≠ t) (hB : B ≠ t)
    (h : q.Ordered A B) : (q.rearm t key e).Ordered A B := by
  rcases h with ⟨c, hc⟩ | ⟨a, b, hne, hmA, hmB⟩
  · have hAB : [A, B].filter (· ≠ t) = [A, B] := by simp [hA, hB]
    refine .inl ⟨c, ?_⟩
    rw [← hAB]
    refine (hc.filter _).trans ?_
    simp only [rearm, insert, remove, list_unlock, list_store, Function.update_apply]
    split
    · next h => rw [h]; exact List.sublist_append_left _ _
    · exact List.Sublist.refl _
  · exact .inr ⟨a, b, hne, (mem_rearm key e).mpr (.inl ⟨hmA, hA⟩),
      (mem_rearm key e).mpr (.inl ⟨hmB, hB⟩)⟩

theorem ordered_takeTimer {working : Bool} {u : Fin N} {us : List (Fin N)}
    (hw : q.list .workList = u :: us) (hA : A ≠ u) (hB : B ≠ u) (S : q.Sound working)
    (h : q.Ordered A B) : q.takeTimer.Ordered A B := by
  rcases h with ⟨c, hc⟩ | ⟨a, b, hne, hmA, hmB⟩
  · refine .inl ⟨c, ?_⟩
    simp only [takeTimer, list_setList]
    split
    · next h =>
      rw [h, hw] at hc
      rw [hw]
      rcases List.sublist_cons_iff.mp hc with hc | ⟨r, hr, -⟩
      · exact hc
      · cases hr
        exact absurd rfl hA
    · exact hc
  · exact .inr ⟨a, b, hne, (mem_takeTimer hw S).mpr ⟨hmA, hA⟩, (mem_takeTimer hw S).mpr ⟨hmB, hB⟩⟩

/-- A timer that is armed joins its bucket behind those that are in it. -/
theorem ordered_arm (key e : ULong m) (hne : A ≠ B) (h : q.Pending A) :
    (q.rearm B key e).Ordered A B := by
  obtain ⟨a, hm⟩ := h
  by_cases ha : a = internalAddVec q.timerJiffies key
  · refine .inl ⟨a, ?_⟩
    subst ha
    simp only [rearm, insert, remove, list_unlock, list_store, Function.update_self]
    refine List.Sublist.append (List.singleton_sublist.mpr ?_) (List.Sublist.refl [B])
    exact List.mem_filter.mpr ⟨hm, by simpa using hne⟩
  · exact .inr ⟨a, _, ha, (mem_rearm key e).mpr (.inl ⟨hm, hne⟩),
      (mem_rearm key e).mpr (.inr ⟨rfl, rfl⟩)⟩

end Queues

/-! ## Runs without deletions and modifications -/

/-- The only calls are `add_timer`. -/
def Act.AddOnly : Act m N → Prop
  | .call (.addTimer _ _) => True
  | .call _ => False
  | _ => True

/-- An allowed `add_timer` is not on a pending timer. -/
theorem ne_of_allows {t : Fin N} {e : ULong m} (hp : q.Pending A) (hc : q.Allows (.addTimer t e)) :
    A ≠ t := by
  rintro rfl
  exact hc hp

/-- `A` was armed for `E`, and is waiting, on the work list of `E`, or has been run
since. -/
inductive Armed (A : Fin N) (E : ULong m) (q : Queues m N) (ev : List (Event m N)) : Prop where
  | waiting (h : q.Due A (ahead q.timerJiffies E)) (he : q.expires A = E)
  | expiring (h : q.Expiring A) (hT : q.timerJiffies = E + 1)
  | fired {fn : Nat} {data : ULong m} (h : .fire A fn data ∈ ev)

theorem Armed.step {c c' : Ctl N} {a : Act m N} {ev ev' : List (Event m N)} (P : Armed A E q ev)
    (ha : a.AddOnly) (S : q.Sound c.working) (h : q.Step c a q' c' ev') :
    Armed A E q' (ev ++ ev') := by
  have frame (hd : q.Pending A → ∀ d, q.Due A d → q'.Due A d)
      (hx : q.Pending A → q.Expiring A → q'.Expiring A)
      (hT : q'.timerJiffies = q.timerJiffies) (he : q.Pending A → q'.expires A = q.expires A) :
      Armed A E q' (ev ++ ev') := by
    cases P with
    | waiting h hE =>
      have hp := (Queues.pending_iff S).mpr (.inr ⟨_, h⟩)
      exact .waiting (hT ▸ hd hp _ h) ((he hp).trans hE)
    | expiring h hT' => exact .expiring (hx ⟨_, h⟩ h) (hT.trans hT')
    | fired h => exact .fired (List.mem_append_left _ h)
  cases h with
  | @call _ cl ho hc =>
    cases cl with
    | modTimer | modTimerPending | delTimer => exact ha.elim
    | addTimer t e =>
      have hne (hp : q.Pending A) : A ≠ (Call.addTimer t e : Call m N).timer := ne_of_allows hp hc
      exact frame (fun hp d hd => (Queues.due_exec_of_ne (hne hp) d).mpr hd)
        (fun hp hx => (Queues.expiring_exec_of_ne (hne hp)).mpr hx)
        (Queues.exec_frame _).1 fun hp => Queues.expires_exec_of_ne (hne hp)
  | iter hj =>
    cases P with
    | waiting h hE =>
      by_cases hT : q.timerJiffies = E
      · rw [hT, ahead_self] at h
        refine .expiring ((Queues.expiring_startTick S).mpr h) ?_
        rw [Queues.timerJiffies_startTick, hT]
      · have hne : ahead q.timerJiffies E ≠ 0 := fun h0 => hT (ahead_eq_zero.mp h0).symm
        refine .waiting ((Queues.due_startTick S _).mpr ?_) (by rw [Queues.expires_startTick, hE])
        rwa [Queues.timerJiffies_startTick, ahead_succ hT,
          Nat.sub_add_cancel (Nat.pos_of_ne_zero hne)]
    | expiring h =>
      rw [Queues.Expiring, S.dead .workList rfl] at h
      cases h
    | fired h => exact .fired (List.mem_append_left _ h)
  | @fire u us hw =>
    rcases eq_or_ne u A with rfl | hu
    · exact .fired (List.mem_append_right _ List.mem_cons_self)
    · exact frame (fun _ d hd => (Queues.due_takeTimer q A d).mpr hd)
        (fun _ hx => (Queues.mem_takeTimer hw S).mpr ⟨hx, Ne.symm hu⟩) rfl fun _ => rfl
  | wake | sleep | drained | resume =>
    exact frame (fun _ _ hd => hd) (fun _ hx => hx) rfl fun _ => rfl

/-- `A` and `B` were armed for `E` in this order. -/
inductive InOrder (A B : Fin N) (E : ULong m) (q : Queues m N) (ev : List (Event m N)) : Prop where
  | waiting {d : Nat} (hA : q.Due A d) (hB : q.Due B d) (heA : q.expires A = E)
      (heB : q.expires B = E) (ho : q.Ordered A B) (hf : NoFire B ev)
  | expiring (h : [A, B].Sublist (q.list .workList)) (hf : NoFire B ev)
  | fired {pre post : List (Event m N)} {fn : Nat} {data : ULong m} (hf : NoFire B pre)
      (he : ev = pre ++ .fire A fn data :: post)

theorem InOrder.mono {ev' : List (Event m N)} {pre post : List (Event m N)} {fn : Nat}
    {data : ULong m} (hf : NoFire B pre) :
    InOrder A B E q (pre ++ .fire A fn data :: post ++ ev') := by
  rw [List.append_assoc, List.cons_append]
  exact .fired hf rfl

theorem noFire_fire {t u : Fin N} {fn : Nat} {data : ULong m} (h : t ≠ u) :
    NoFire t [(.fire u fn data : Event m N)] := by
  simp [NoFire, h]

/-- Another timer is armed. -/
theorem InOrder.addTimer {working : Bool} {t : Fin N} {e : ULong m} {ev : List (Event m N)}
    (P : InOrder A B E q ev) (S : q.Sound working) (hc : q.Allows (.addTimer t e)) (r : Nat) :
    InOrder A B E (q.exec (.addTimer t e)).1 (ev ++ [.ret (.addTimer t e) r]) := by
  have hfr : NoFire B [(Event.ret (.addTimer t e) r : Event m N)] := by simp [NoFire]
  cases P with
  | @waiting d hA hB heA heB ho hf =>
    have hAt := ne_of_allows ((Queues.pending_iff S).mpr (.inr ⟨_, hA⟩)) hc
    have hBt := ne_of_allows ((Queues.pending_iff S).mpr (.inr ⟨_, hB⟩)) hc
    refine .waiting (d := d) ?_ ?_ ?_ ?_ (Queues.ordered_rearm e e hAt hBt ho) (by simp [hf, hfr])
    · exact (Queues.due_exec_of_ne (c := .addTimer t e) hAt d).mpr hA
    · exact (Queues.due_exec_of_ne (c := .addTimer t e) hBt d).mpr hB
    · exact (Queues.expires_exec_of_ne (c := .addTimer t e) hAt).trans heA
    · exact (Queues.expires_exec_of_ne (c := .addTimer t e) hBt).trans heB
  | expiring h hf =>
    have hAt := ne_of_allows ⟨_, h.subset List.mem_cons_self⟩ hc
    have hBt := ne_of_allows ⟨_, h.subset (List.mem_cons_of_mem _ List.mem_cons_self)⟩ hc
    have hAB : [A, B].filter (· ≠ t) = [A, B] := by simp [hAt, hBt]
    refine .expiring ?_ (by simp [hf, hfr])
    have hw : (q.exec (.addTimer t e)).1.list .workList = _ := workList_rearm q t e e
    rw [← hAB, hw]
    exact h.filter _
  | fired hf he =>
    subst he
    exact .mono hf

/-- A tick whose cascades do not file `A` behind `B`. -/
theorem InOrder.iter {ev : List (Event m N)} (P : InOrder A B E q ev) (S : q.Sound false)
    (hb : ∀ a b, A ∈ q.list a → B ∈ q.list b → q.expires A = E → q.expires B = E →
      ¬ a.FiledBehind q.timerJiffies E b) :
    InOrder A B E q.startTick (ev ++ [.iter q.timerJiffies]) := by
  cases P with
  | @waiting d hA hB heA heB ho hf =>
    have hoc := Queues.ordered_cascadeTimers heA heB ho fun a b hmA hmB => hb a b hmA hmB heA heB
    cases d with
    | zero =>
      refine .expiring (Queues.precedes_startTick S hoc ?_ ?_) (by simp [hf])
      · exact (Queues.expiring_startTick S).mpr hA
      · exact (Queues.expiring_startTick S).mpr hB
    | succ d =>
      have hA' := (Queues.due_startTick S d).mpr hA
      have hB' := (Queues.due_startTick S d).mpr hB
      exact .waiting hA' hB' (by rwa [Queues.expires_startTick])
        (by rwa [Queues.expires_startTick]) (Queues.ordered_startTick S hoc hA' hB') (by simp [hf])
  | expiring h =>
    rw [S.dead .workList rfl] at h
    cases h
  | fired hf he =>
    subst he
    exact .mono hf

/-- A timer is run. -/
theorem InOrder.fire {working : Bool} {u : Fin N} {us : List (Fin N)} {ev : List (Event m N)}
    (P : InOrder A B E q ev) (S : q.Sound working) (hw : q.list .workList = u :: us) (fn : Nat)
    (data : ULong m) : InOrder A B E q.takeTimer.unlock (ev ++ [.fire u fn data]) := by
  have hu : q.Expiring u := by simp [Queues.Expiring, hw]
  cases P with
  | waiting hA hB heA heB ho hf =>
    have hAu : A ≠ u := by
      rintro rfl
      exact S.not_due_of_expiring hu _ hA
    have hBu : B ≠ u := by
      rintro rfl
      exact S.not_due_of_expiring hu _ hB
    exact .waiting ((Queues.due_takeTimer q A _).mpr hA) ((Queues.due_takeTimer q B _).mpr hB)
      heA heB (Queues.ordered_takeTimer hw hAu hBu S ho) (noFire_append.mpr ⟨hf, noFire_fire hBu⟩)
  | expiring h hf =>
    have hnd := S.nodup .workList
    rw [hw] at h hnd
    rcases List.sublist_cons_iff.mp h with hs | ⟨r, hr, -⟩
    · have hBu : B ≠ u := by
        rintro rfl
        exact (List.nodup_cons.mp hnd).1 (hs.subset (by simp))
      refine .expiring ?_ (noFire_append.mpr ⟨hf, noFire_fire hBu⟩)
      simpa [Queues.takeTimer, hw] using hs
    · -- `A` is the head of the work list
      cases hr
      exact .fired hf rfl
  | fired hf he =>
    subst he
    exact .mono hf

/-- One step, when the cascades of a tick do not file `A` behind `B`. -/
theorem InOrder.step {c c' : Ctl N} {a : Act m N} {ev ev' : List (Event m N)}
    (P : InOrder A B E q ev) (ha : a.AddOnly) (S : q.Sound c.working)
    (hb : a = .run → c = .outer → timeAfterEq q.jiffies q.timerJiffies = true → ∀ a b,
      A ∈ q.list a → B ∈ q.list b → q.expires A = E → q.expires B = E →
        ¬ a.FiledBehind q.timerJiffies E b)
    (h : q.Step c a q' c' ev') : InOrder A B E q' (ev ++ ev') := by
  cases h with
  | @call _ cl ho hc =>
    cases cl with
    | modTimer | modTimerPending | delTimer => exact ha.elim
    | addTimer t e => exact P.addTimer S hc _
  | iter hj => exact P.iter S (hb rfl rfl hj)
  | fire hw => exact P.fire S hw _ _
  | wake | sleep | drained | resume =>
    rw [List.append_nil]
    cases P with
    | waiting hA hB heA heB ho hf => exact .waiting hA hB heA heB ho hf
    | expiring h hf => exact .expiring h hf
    | fired hf he => exact .fired hf he

/-! ## Whole runs -/

/-- The tick that is about to be processed files `A` behind `B`, and both expire at
`E`. -/
def Sys.FilesBehind (s : Sys m N) (E : ULong m) (A B : Fin N) : Prop :=
  s.ctl = .outer ∧ timeAfterEq s.world.jiffies s.world.base.timerJiffies = true ∧
    (s.world.timer A).expires = E ∧ (s.world.timer B).expires = E ∧
    ∃ list a b, Conserved s.world (Head.live false) [] list ∧ A ∈ list a ∧ B ∈ list b ∧
      a.FiledBehind s.world.base.timerJiffies E b

theorem not_filedBehind {s : Sys m N} (H : s.Holds q) (hn : ¬ s.FilesBehind E A B)
    (hc : s.ctl = .outer) (hj : timeAfterEq q.jiffies q.timerJiffies = true) {a b : Head}
    (hmA : A ∈ q.list a) (hmB : B ∈ q.list b) (heA : q.expires A = E) (heB : q.expires B = E) :
    ¬ a.FiledBehind q.timerJiffies E b := by
  intro hf
  have R := H.realizes
  have C := R.conserved
  rw [hc] at C
  refine hn ⟨hc, ?_, ?_, ?_, q.list, a, b, C, hmA, hmB, ?_⟩
  · rw [R.jiffies, R.timerJiffies, hj]
  · rw [R.expires, heA]
  · rw [R.expires, heB]
  · rwa [R.timerJiffies]

/-- What stands first in a list stands before everything else. -/
theorem mem_of_append_cons {α : Type} {pre post before after : List α} {x y : α} (hne : x ≠ y)
    (hy : y ∉ before) (h : pre ++ y :: post = before ++ x :: after) : x ∈ pre := by
  rcases List.append_eq_append_iff.mp h with ⟨l, hl, hr⟩ | ⟨l, hl, hr⟩
  · cases l with
    | nil =>
      cases hr
      exact absurd rfl hne
    | cons z l =>
      cases hr
      exact absurd (by simp [hl]) hy
  · cases l with
    | nil =>
      cases hr
      exact absurd rfl hne
    | cons z l =>
      cases hr
      simp [hl]

theorem timeBefore_eq_false {T E : ULong m} : timeBefore E T = false ↔ ahead T E < half m := by
  unfold timeBefore timeAfter
  rw [decide_eq_false_iff_not, not_lt, toInt_sub_nonneg_iff]

/-- A timer that is armed for `E` in time is due when `E` is reached. -/
theorem due_addTimer {t : Fin N} (h : ahead q.timerJiffies E < half m) :
    (q.exec (.addTimer t E)).1.Due t (ahead q.timerJiffies E) :=
  (Queues.due_rearm E E).mpr ((Queues.dueAs_self _ _).trans (delay_of_lt h))

theorem armed_addTimer (h : ahead q.timerJiffies E < half m) :
    Armed A E (q.exec (.addTimer A E)).1 [] := by
  refine .waiting ?_ (by simp [Queues.exec, Queues.rearm])
  rw [(Queues.exec_frame _).1]
  exact due_addTimer h

theorem inOrder_addTimer (h : ahead q.timerJiffies E < half m) (hne : A ≠ B)
    (hdA : q.Due A (ahead q.timerJiffies E)) (heA : q.expires A = E) (hpA : q.Pending A) :
    InOrder A B E (q.exec (.addTimer B E)).1 [] := by
  have hA : A ≠ (Call.addTimer B E : Call m N).timer := hne
  refine .waiting ((Queues.due_exec_of_ne hA _).mpr hdA) (due_addTimer h) ?_ ?_
    (Queues.ordered_arm E E hne hpA) noFire_nil
  · rw [Queues.expires_exec_of_ne hA, heA]
  · simp [Queues.exec, Queues.rearm]

theorem InOrder.run {s s' : Sys m N} {as : List (Act m N)} {ev : List (Event m N)}
    (P : InOrder A B E q []) (H : s.Holds q) (has : ∀ a ∈ as, a.AddOnly)
    (hbehind : (wheel m N).Meets (fun s a => a = .run → ¬ s.FilesBehind E A B) s as)
    (h : (wheel m N).run s as = some (s', ev)) : ∃ q', InOrder A B E q' ev := by
  have h0 : ∃ q, s.Holds q ∧ InOrder A B E q [] := ⟨q, H, P⟩
  obtain ⟨q', -, P'⟩ := Machine.run_induction_meets
    (P := fun s ev => ∃ q, s.Holds q ∧ InOrder A B E q ev) h hbehind has h0 (by
      rintro s ev a s' ev' hn ha ⟨q, H, P⟩ hs
      obtain ⟨q', H', hq⟩ := step_refines H hs
      refine ⟨q', H', P.step ha H.realizes.sound ?_ hq⟩
      exact fun hrun hc hj a b => not_filedBehind H (hn hrun) hc hj)
  exact ⟨q', P'⟩

/-- `A` and `B` are armed in this order for `E`, neither of them too late, and no
call but `add_timer` is made since. If no tick in between files `A` behind `B`,
`A` is run before `B`. -/
theorem timers_are_fifo {s₀ s₁ s₂ s₃ s₄ : Sys m N} {memory : Heap (Node N)}
    {setup : Fin N → TimerSetup m} {jiffies : ULong m} {as bs : List (Act m N)}
    {ret₁ ret₂ ev₁ ev₂ : List (Event m N)}
    (h : (wheel m N).Reachable (boot memory setup jiffies) s₀)
    (hA : s₀.step (.call (.addTimer A E)) = some (s₁, ret₁))
    (has : ∀ a ∈ as, a.AddOnly) (hr₁ : (wheel m N).run s₁ as = some (s₂, ev₁))
    (hB : s₂.step (.call (.addTimer B E)) = some (s₃, ret₂))
    (hbs : ∀ a ∈ bs, a.AddOnly) (hr₂ : (wheel m N).run s₃ bs = some (s₄, ev₂))
    (hEA : timeBefore E s₀.world.base.timerJiffies = false)
    (hEB : timeBefore E s₂.world.base.timerJiffies = false)
    (hbehind : (wheel m N).Meets (fun s a => a = .run → ¬ s.FilesBehind E A B) s₃ bs)
    {pre post : List (Event m N)} {fn : Nat} {data : ULong m}
    (he : ev₂ = pre ++ .fire B fn data :: post) :
    ∃ fn data, .fire A fn data ∈ ev₁ ++ pre := by
  obtain ⟨q₀, H₀, -⟩ := reachable_holds h
  obtain ⟨q₁, H₁, hs₁⟩ := step_refines H₀ hA
  rw [H₀.realizes.timerJiffies, timeBefore_eq_false] at hEA
  have P₁ : Armed A E q₁ [] := by
    rw [hs₁.call_inv.1]
    exact armed_addTimer hEA
  obtain ⟨q₂, H₂, P₂⟩ := wheel_induction (P := fun q _ ev => Armed A E q ev) hr₁ has H₁ P₁
    fun q c ev a q' c' ev' ha S P hs => P.step ha S hs
  rw [H₂.realizes.timerJiffies, timeBefore_eq_false] at hEB
  obtain ⟨q₃, H₃, hs₃⟩ := step_refines H₂ hB
  cases P₂ with
  | fired h => exact ⟨_, _, List.mem_append_left _ h⟩
  | expiring h hT =>
    -- `B` would have been armed too late
    rw [hT, ahead_succ_self] at hEB
    have := le_half m
    omega
  | waiting hdA heA =>
    have hpA : q₂.Pending A := (Queues.pending_iff H₂.realizes.sound).mpr (.inr ⟨_, hdA⟩)
    have hne : A ≠ B := ne_of_allows hpA hs₃.call_allows
    have P₃ : InOrder A B E q₃ [] := by
      rw [hs₃.call_inv.1]
      exact inOrder_addTimer hEB hne hdA heA hpA
    obtain ⟨q₄, P₄⟩ := P₃.run H₃ hbs hbehind hr₂
    have hm : Event.fire B fn data ∈ ev₂ := by simp [he]
    cases P₄ with
    | waiting _ _ _ _ _ hf => exact absurd hm (hf fn data)
    | expiring _ hf => exact absurd hm (hf fn data)
    | @fired before after fn' data' hf he' =>
      refine ⟨fn', data', List.mem_append_right _ ?_⟩
      exact mem_of_append_cons (by simp [hne]) (hf fn data) (he.symm.trans he')

/-- `A` is armed at 63 for 127, on the second level, and cascaded at 64. `B` is armed
after that, and joins the bucket on the first level behind `A`. -/
theorem timers_are_fifo_test1 :
    ∃ (s₁ s₂ s₃ s₄ : Sys .long32 2) (ret₁ ret₂ ev₁ pre : List (Event .long32 2)),
      (boot (fun _ => ⟨.null, .null⟩) (fun _ => ⟨0, 1, 2⟩) 63 : Sys .long32 2).step
        (.call (.addTimer 0 127)) = some (s₁, ret₁) ∧
      (wheel .long32 2).run s₁ (.wake 64 :: List.replicate 5 .run) = some (s₂, ev₁) ∧
      s₂.step (.call (.addTimer 1 127)) = some (s₃, ret₂) ∧
      (wheel .long32 2).run s₃ (.wake 127 :: List.replicate 128 .run) =
        some (s₄, pre ++ [.fire 1 1 2]) ∧
      iters ev₁ = [63, 64] ∧ ∃ fn data, .fire 0 fn data ∈ ev₁ ++ pre := by
  obtain ⟨s₀, hs₀⟩ : ∃ s₀ : Sys .long32 2,
      s₀ = boot (fun _ => ⟨.null, .null⟩) (fun _ => ⟨0, 1, 2⟩) 63 := ⟨_, rfl⟩
  have hreach : (wheel .long32 2).Reachable (boot (fun _ => ⟨.null, .null⟩) (fun _ => ⟨0, 1, 2⟩) 63)
      s₀ := hs₀ ▸ .refl _
  let as : List (Act .long32 2) := .wake 64 :: List.replicate 5 .run
  let bs : List (Act .long32 2) := .wake 127 :: List.replicate 128 .run
  have h : (s₀.step (.call (.addTimer 0 127))).bind (fun p =>
      ((wheel .long32 2).run p.1 as).bind fun u => (u.1.step (.call (.addTimer 1 127))).bind fun v =>
        ((wheel .long32 2).run v.1 bs).map fun x =>
          (iters u.2, u.1.world.base.timerJiffies, x.2.getLast?,
            decide ((wheel .long32 2).Meets (fun s a => a = .run → s.ctl = .outer →
              s.world.base.timerJiffies.toNat % 64 ≠ 0) v.1 bs))) =
      some ([63, 64], 65, some (.fire 1 1 2), true) := by
    rw [hs₀]
    decide +kernel
  have hT : s₀.world.base.timerJiffies = 63 := by
    rw [hs₀]
    decide +kernel
  obtain ⟨⟨s₁, ret₁⟩, h₁, h⟩ := Option.bind_eq_some_iff.mp h
  obtain ⟨⟨s₂, ev₁⟩, h₂, h⟩ := Option.bind_eq_some_iff.mp h
  obtain ⟨⟨s₃, ret₂⟩, h₃, h⟩ := Option.bind_eq_some_iff.mp h
  obtain ⟨⟨s₄, ev₂⟩, h₄, h⟩ := Option.map_eq_some_iff.mp h
  simp only [Prod.mk.injEq, decide_eq_true_eq] at h
  obtain ⟨hi, hT₂, hlast, hM⟩ := h
  obtain ⟨pre, rfl⟩ := List.getLast?_eq_some_iff.mp hlast
  have hbehind : (wheel .long32 2).Meets (fun s a => a = .run → ¬ s.FilesBehind 127 0 1) s₃ bs := by
    refine hM.mono fun s a hc ha hb => ?_
    obtain ⟨ho, -, -, -, list, b, b', -, -, -, hf⟩ := hb
    exact hc ha ho hf.2.1.mod
  exact ⟨s₁, s₂, s₃, s₄, ret₁, ret₂, ev₁, pre, hs₀ ▸ h₁, h₂, h₃, h₄, hi,
    timers_are_fifo hreach h₁ (by simp [as, Act.AddOnly]) h₂ h₃ (by simp [bs, Act.AddOnly]) h₄
      (by rw [hT]; decide) (by rw [hT₂]; decide) hbehind rfl⟩

/-- `A` is armed at 63 for 127, on the second level. `B` is armed at 64 for 127, on
the first level. At 64 the cascade files `A` behind `B`. -/
theorem timers_are_fifo_counterexample :
    ¬ ∀ (s₀ s₁ s₂ s₃ s₄ : Sys .long32 2) (A B : Fin 2) (E : ULong .long32)
      (as bs : List (Act .long32 2)) (ret₁ ret₂ ev₁ ev₂ : List (Event .long32 2)),
      (wheel .long32 2).Reachable (boot (fun _ => ⟨.null, .null⟩) (fun _ => ⟨0, 1, 2⟩) 63) s₀ →
      s₀.step (.call (.addTimer A E)) = some (s₁, ret₁) →
      (∀ a ∈ as, a.AddOnly) → (wheel .long32 2).run s₁ as = some (s₂, ev₁) →
      s₂.step (.call (.addTimer B E)) = some (s₃, ret₂) →
      (∀ a ∈ bs, a.AddOnly) → (wheel .long32 2).run s₃ bs = some (s₄, ev₂) →
      timeBefore E s₀.world.base.timerJiffies = false →
      timeBefore E s₂.world.base.timerJiffies = false →
      ∀ pre fn data post, ev₂ = pre ++ .fire B fn data :: post →
        ∃ fn data, .fire A fn data ∈ ev₁ ++ pre := by
  intro hall
  let iters : List (Event .long32 2) := (List.range 64).map fun i => .iter (BitVec.ofNat _ (64 + i))
  let as : List (Act .long32 2) := [.wake 63, .run, .run, .run]
  let bs : List (Act .long32 2) := .wake 127 :: List.replicate 128 .run
  obtain ⟨s₀, hs₀⟩ : ∃ s₀ : Sys .long32 2,
      s₀ = boot (fun _ => ⟨.null, .null⟩) (fun _ => ⟨0, 1, 2⟩) 63 := ⟨_, rfl⟩
  have h : (s₀.step (.call (.addTimer 0 127))).bind (fun p =>
      ((wheel .long32 2).run p.1 as).bind fun u => (u.1.step (.call (.addTimer 1 127))).bind fun v =>
        ((wheel .long32 2).run v.1 bs).map fun x => (u.1.world.base.timerJiffies, u.2, x.2)) =
      some (64, [.iter 63], iters ++ [.fire 1 1 2]) := by
    rw [hs₀]
    decide +kernel
  have hT : s₀.world.base.timerJiffies = 63 := by
    rw [hs₀]
    decide +kernel
  obtain ⟨⟨s₁, ret₁⟩, h₁, h⟩ := Option.bind_eq_some_iff.mp h
  obtain ⟨⟨s₂, ev₁⟩, hr₁, h⟩ := Option.bind_eq_some_iff.mp h
  obtain ⟨⟨s₃, ret₂⟩, h₂, h⟩ := Option.bind_eq_some_iff.mp h
  obtain ⟨⟨s₄, ev₂⟩, hr₂, h⟩ := Option.map_eq_some_iff.mp h
  simp only [Prod.mk.injEq] at h
  obtain ⟨hT₂, rfl, rfl⟩ := h
  have key := hall s₀ s₁ s₂ s₃ s₄ 0 1 127 as bs ret₁ ret₂ _ _ (hs₀ ▸ .refl _) h₁
    (by simp [as, Act.AddOnly]) hr₁ h₂ (by simp [bs, Act.AddOnly]) hr₂ (by rw [hT]; decide)
    (by rw [hT₂]; decide) iters 1 2 [] rfl
  simp [iters] at key

end Uki
