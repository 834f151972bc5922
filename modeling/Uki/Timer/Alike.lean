import Uki.Timer.Interface

/-!
# Wheels that no program tells apart

Two wheels are alike when every bucket holds the same timers and the timers of a
bucket that are run at the same tick stand in the same order. Timers that are run
at different ticks may be swapped: they are separated when the bucket is cascaded.
With a single timer its bucket does not matter either, as long as it is run at the
same tick. Both relations hide the difference from every program (`alike_bisim`,
`alone_bisim`).
-/

namespace Uki

variable {m : LongModel} {N : Nat} {q q' : Queues m N} {s s' : Sys m N} {t u : Fin N} {b : Head}
  {d : Nat} {working : Bool}

/-! ## The timers of a bucket that are run together -/

/-- In how many ticks from `T` a timer in this bucket with expiry `e` is run. -/
def Head.due (T e : ULong m) : Head → Nat
  | .vec tv i => dueIn T tv i e
  | _ => 0

theorem Head.due_current (T e : ULong m) : (Head.vec .tv1 (T.toNat % 64)).due T e = 0 := by
  rw [due, dueIn_tv1, wait_tv1]
  omega

theorem Head.due_file (T key e : ULong m) :
    (internalAddVec T key).due T e = Queues.dueAs T key e := by
  obtain ⟨tv, i, h, -⟩ := internalAddVec_lt T key
  rw [Queues.dueAs, h]
  rfl

/-- A cascade does not change when a timer is run. -/
theorem Head.due_turned {T : ULong m} {tv : Tv} (htv : tv ≠ .tv1) (e : ULong m) (b : Head) :
    (b.turned T tv e).due T e = b.due T e := by
  cases b with
  | workList | tvList => rfl
  | vec tv' i =>
    simp only [Head.turned]
    split_ifs with h
    · obtain ⟨h0, rfl, rfl⟩ := h
      have hlt : T.toNat / 2 ^ tv'.shift % 16 < tv'.size :=
        lt_of_lt_of_le (Nat.mod_lt _ (by decide)) (by cases tv' <;> decide)
      have hw := (wait_eq_zero_iff T htv hlt).mpr ⟨h0, rfl⟩
      obtain ⟨tv₁, i₁, hf, -⟩ := internalAddVec_lt T e
      have hs : settle T tv' (T.toNat / 2 ^ tv'.shift % 16) e = .vec tv₁ i₁ := by
        rw [settle, if_pos ⟨htv, hw⟩, hf]
      rw [hf]
      exact dueIn_settle hs
    · rfl

namespace Queues

/-- The timers of the bucket that are run in `d` ticks, in their order. -/
def slot (q : Queues m N) (b : Head) (d : Nat) : List (Fin N) :=
  (q.list b).filter fun u => b.due q.timerJiffies (q.expires u) = d

theorem mem_slot :
    u ∈ q.slot b d ↔ u ∈ q.list b ∧ b.due q.timerJiffies (q.expires u) = d := by
  simp [slot]

theorem slot_workList (q : Queues m N) : q.slot .workList 0 = q.list .workList := by
  simp [slot, Head.due]

/-- The same clocks and expiries, the same timers in every bucket, and the same order
of those that are run together. -/
structure Alike (q q' : Queues m N) : Prop where
  expires : q.expires = q'.expires
  jiffies : q.jiffies = q'.jiffies
  timerJiffies : q.timerJiffies = q'.timerJiffies
  slot : ∀ b d, q.slot b d = q'.slot b d

theorem Alike.refl (q : Queues m N) : q.Alike q := ⟨rfl, rfl, rfl, fun _ _ => rfl⟩

theorem Alike.mem_iff (h : q.Alike q') : u ∈ q.list b ↔ u ∈ q'.list b := by
  have h₁ := mem_slot (q := q) (u := u) (b := b) (d := b.due q.timerJiffies (q.expires u))
  have h₂ := mem_slot (q := q') (u := u) (b := b) (d := b.due q.timerJiffies (q.expires u))
  rw [← h.expires, ← h.timerJiffies, ← h.slot] at h₂
  simpa using h₁.symm.trans h₂

theorem Alike.pending_iff (h : q.Alike q') (t : Fin N) : q.Pending t ↔ q'.Pending t :=
  exists_congr fun _ => h.mem_iff

/-! ### Calls -/

theorem slot_remove (q : Queues m N) (t : Fin N) (b : Head) (d : Nat) :
    (q.remove t).slot b d = (q.slot b d).filter (· ≠ t) := by
  rw [slot, slot, remove, List.filter_filter, List.filter_filter]
  exact List.filter_congr fun u _ => Bool.and_comm _ _

theorem slot_rearm (q : Queues m N) (t : Fin N) (key e : ULong m) (b : Head) (d : Nat) :
    (q.rearm t key e).slot b d = (q.slot b d).filter (· ≠ t) ++
      if internalAddVec q.timerJiffies key = b ∧ b.due q.timerJiffies e = d then [t] else [] := by
  have hold : ((q.list b).filter (· ≠ t)).filter (fun u =>
      b.due q.timerJiffies (Function.update q.expires t e u) = d) =
      (q.slot b d).filter (· ≠ t) := by
    rw [slot, List.filter_filter, List.filter_filter]
    refine List.filter_congr fun u _ => ?_
    rcases eq_or_ne u t with rfl | hu
    · simp
    · simp [hu]
  rw [← hold, slot, list_rearm, List.filter_append]
  congr 1
  by_cases h : internalAddVec q.timerJiffies key = b
  · simp only [h, true_and, if_true]
    by_cases hd : b.due q.timerJiffies e = d <;> simp [rearm, hd]
  · simp [h]

theorem Alike.remove (h : q.Alike q') (t : Fin N) :
    (q.remove t).unlock.Alike (q'.remove t).unlock where
  expires := h.expires
  jiffies := h.jiffies
  timerJiffies := h.timerJiffies
  slot b d := by
    rw [show (q.remove t).unlock.slot b d = _ from slot_remove q t b d,
      show (q'.remove t).unlock.slot b d = _ from slot_remove q' t b d, h.slot]

theorem Alike.rearm (h : q.Alike q') (t : Fin N) (key e : ULong m) :
    (q.rearm t key e).Alike (q'.rearm t key e) where
  expires := by simp [Queues.rearm, h.expires]
  jiffies := h.jiffies
  timerJiffies := h.timerJiffies
  slot b d := by rw [slot_rearm, slot_rearm, h.slot, h.timerJiffies]

theorem Alike.exec (h : q.Alike q') (c : Call m N) : (q.exec c).1.Alike (q'.exec c).1 := by
  have hx (t : Fin N) : q'.expires t = q.expires t := (congrFun h.expires t).symm
  by_cases hp : q.Pending c.timer
  · have hp' : q'.Pending c.timer := (h.pending_iff _).mp hp
    cases c with
    | addTimer t e => exact h.rearm t e e
    | modTimer t e =>
      have hp : q.Pending t := hp
      have hp' : q'.Pending t := hp'
      simp only [Queues.exec, if_pos hp, if_pos hp', hx]
      split_ifs
      · exact h
      · exact h.rearm t _ e
    | modTimerPending t e =>
      have hp : q.Pending t := hp
      have hp' : q'.Pending t := hp'
      simp only [Queues.exec, if_pos hp, if_pos hp', hx]
      exact h.rearm t _ e
    | delTimer t =>
      have hp : q.Pending t := hp
      have hp' : q'.Pending t := hp'
      simp only [Queues.exec, if_pos hp, if_pos hp']
      exact h.remove t
  · have hp' : ¬ q'.Pending c.timer := fun hp' => hp ((h.pending_iff _).mpr hp')
    cases c with
    | addTimer t e => exact h.rearm t e e
    | modTimer t e =>
      have hp : ¬ q.Pending t := hp
      have hp' : ¬ q'.Pending t := hp'
      simp only [Queues.exec, if_neg hp, if_neg hp', hx]
      exact h.rearm t _ e
    | modTimerPending t e =>
      have hp : ¬ q.Pending t := hp
      have hp' : ¬ q'.Pending t := hp'
      simp only [Queues.exec, if_neg hp, if_neg hp']
      exact ⟨h.expires, h.jiffies, h.timerJiffies, h.slot⟩
    | delTimer t =>
      have hp : ¬ q.Pending t := hp
      have hp' : ¬ q'.Pending t := hp'
      simp only [Queues.exec, if_neg hp, if_neg hp']
      exact h

/-! ### Ticks -/

/-- The timers that a cascade moves keep their slot. -/
theorem slot_turn (q : Queues m N) {tv : Tv} (htv : tv ≠ .tv1) (b : Head) (d : Nat) :
    (q.turn tv).slot b d =
      if q.timerJiffies.toNat % 2 ^ tv.shift = 0 then
        let a := Head.vec tv (q.timerJiffies.toNat / 2 ^ tv.shift % 16)
        (if b = a then [] else q.slot b d) ++ (q.slot a d).filter fun t => q.file t = b
      else
        q.slot b d := by
  unfold turn
  split_ifs with h0
  · set a := Head.vec tv (q.timerJiffies.toNat / 2 ^ tv.shift % 16) with ha
    have hdue (u : Fin N) : (q.file u).due q.timerJiffies (q.expires u) =
        a.due q.timerJiffies (q.expires u) := by
      rw [← Head.due_turned htv (q.expires u) a, Head.turned, if_pos ⟨h0, rfl, rfl⟩]
      rfl
    have hmoved : ((q.list a).filter fun t => q.file t = b).filter (fun u =>
        b.due q.timerJiffies (q.expires u) = d) = (q.slot a d).filter fun t => q.file t = b := by
      rw [slot, List.filter_filter, List.filter_filter]
      refine List.filter_congr fun u _ => ?_
      by_cases hf : q.file u = b
      · simp [← hf, hdue u]
      · simp [hf]
    have hlist : (q.cascade tv (q.timerJiffies.toNat / 2 ^ tv.shift % 16)).list b =
        (if b = a then [] else q.list b) ++ (q.list a).filter fun t => q.file t = b := by
      simp only [cascade, fileAll, list_setList]
      rfl
    change _ = (if b = a then [] else q.slot b d) ++ _
    rw [← hmoved, slot, hlist, List.filter_append]
    congr 1
    split_ifs <;> rfl
  · rfl

theorem Alike.turn (h : q.Alike q') {tv : Tv} (htv : tv ≠ .tv1) :
    (q.turn tv).Alike (q'.turn tv) where
  expires := by rw [expires_turn, expires_turn, h.expires]
  jiffies := by rw [jiffies_turn, jiffies_turn, h.jiffies]
  timerJiffies := by rw [timerJiffies_turn, timerJiffies_turn, h.timerJiffies]
  slot b d := by
    have hfile : q.file = q'.file := by
      funext t
      rw [file, file, h.expires, h.timerJiffies]
    rw [slot_turn q htv, slot_turn q' htv, h.timerJiffies, hfile]
    simp only [h.slot]

theorem Alike.cascadeTimers (h : q.Alike q') : q.cascadeTimers.Alike q'.cascadeTimers :=
  (((h.turn (by decide)).turn (by decide)).turn (by decide)).turn (by decide)

/-- In the next tick, the slot of a bucket that was not run is the one that was a
tick farther away. -/
theorem slot_startTick (S : q.Sound false) (hb : b ≠ q.current) (hw : b ≠ .workList) (d : Nat) :
    q.startTick.slot b d = q.cascadeTimers.slot b (d + 1) := by
  have hlist : q.startTick.list b = q.cascadeTimers.list b := by
    simp only [startTick, list_setList, if_neg hb, if_neg hw]
  have hx : q.cascadeTimers.expires = q.expires := by simp [Queues.cascadeTimers]
  rw [slot, slot, hlist]
  refine List.filter_congr fun u hu => ?_
  obtain ⟨b₀, hm, hs⟩ := (mem_cascadeTimers S).mp hu
  rw [expires_startTick, timerJiffies_startTick, hx, timerJiffies_cascadeTimers]
  cases b₀ with
  | workList => exact absurd hs.symm hw
  | tvList =>
    rw [S.dead .tvList rfl] at hm
    cases hm
  | vec tv i =>
    have hs : settle q.timerJiffies tv i (q.expires u) = b := hs
    have hne : dueIn q.timerJiffies tv i (q.expires u) ≠ 0 := fun h0 =>
      hb (hs.symm.trans ((dueIn_eq_zero_iff (S.lt hm) _).mp h0))
    cases b with
    | workList => exact absurd rfl hw
    | tvList =>
      obtain ⟨tv', i', hf, -⟩ := internalAddVec_lt q.timerJiffies (q.expires u)
      rw [settle, hf] at hs
      split at hs <;> cases hs
    | vec tv' i' =>
      have h1 := dueIn_succ (S.lt hm) hs hne
      have h2 := dueIn_settle hs
      rw [decide_eq_decide]
      change dueIn _ tv' i' _ = d ↔ dueIn _ tv' i' _ = d + 1
      omega

theorem slot_current (q : Queues m N) : q.slot q.current 0 = q.list q.current := by
  rw [slot, List.filter_eq_self]
  intro u _
  simp [current, Head.due_current]

theorem Alike.startTick (h : q.Alike q') (S : q.Sound false) (S' : q'.Sound false) :
    q.startTick.Alike q'.startTick where
  expires := by rw [expires_startTick, expires_startTick, h.expires]
  jiffies := by rw [jiffies_startTick, jiffies_startTick, h.jiffies]
  timerJiffies := by rw [timerJiffies_startTick, timerJiffies_startTick, h.timerJiffies]
  slot b d := by
    have hcur : q.current = q'.current := by rw [current, current, h.timerJiffies]
    by_cases hb : b = q.current
    · have hnil (q : Queues m N) : q.startTick.slot q.current d = [] := by
        have hl : q.startTick.list q.current = [] := by simp [Queues.startTick]
        rw [Queues.slot, hl, List.filter_nil]
      rw [hb, hnil q, hcur, hnil q']
    by_cases hw : b = .workList
    · have hrun (q : Queues m N) : q.startTick.slot .workList d =
          if d = 0 then q.cascadeTimers.slot q.current 0 else [] := by
        have hc : q.current = q.cascadeTimers.current := by
          rw [current, current, timerJiffies_cascadeTimers]
        rw [hc, slot_current, ← hc]
        have hl : q.startTick.list .workList = q.cascadeTimers.list q.current := by
          simp [Queues.startTick, current]
        rw [Queues.slot, hl]
        by_cases hd : d = 0
        · simp [Head.due, hd]
        · simp [Head.due, hd, Ne.symm hd]
      rw [hw, hrun q, hrun q', hcur, h.cascadeTimers.slot]
    rw [slot_startTick S hb hw, slot_startTick S' (hcur ▸ hb) hw, h.cascadeTimers.slot]

theorem Alike.workList (h : q.Alike q') : q.list .workList = q'.list .workList := by
  rw [← slot_workList, h.slot, slot_workList]

theorem Alike.takeTimer (h : q.Alike q') : q.takeTimer.Alike q'.takeTimer where
  expires := h.expires
  jiffies := h.jiffies
  timerJiffies := h.timerJiffies
  slot b d := by
    by_cases hb : b = .workList
    · simp only [hb, Queues.slot, Queues.takeTimer, list_setList, if_true, h.workList, Head.due]
    · have hkeep (q : Queues m N) : q.takeTimer.slot b d = q.slot b d := by
        simp only [Queues.slot, Queues.takeTimer, list_setList, if_neg hb]
        rfl
      rw [hkeep, hkeep, h.slot]

/-- Filing a timer again changes nothing when it is in that bucket already, and no timer
behind it there is run at the same tick. -/
theorem alike_rearm {A B : List (Fin N)} (S : q.Sound working)
    (h : q.list (q.file t) = A ++ t :: B)
    (hB : ∀ u ∈ B, (q.file t).due q.timerJiffies (q.expires u) ≠
      (q.file t).due q.timerJiffies (q.expires t)) :
    q.Alike (q.rearm t (q.expires t) (q.expires t)) where
  expires := by simp [Queues.rearm]
  jiffies := rfl
  timerJiffies := rfl
  slot b d := by
    have hmem : t ∈ q.list (q.file t) := by rw [h]; simp
    rw [slot_rearm]
    split_ifs with hbd
    · obtain ⟨hb, hd⟩ := hbd
      have hb : q.file t = b := hb
      subst hb
      have hnd := S.nodup (q.file t)
      rw [h] at hnd
      have ht : t ∉ A ++ B := (List.nodup_middle.mp hnd).notMem
      have hA : (A.filter fun u => (q.file t).due q.timerJiffies (q.expires u) = d).filter
          (· ≠ t) = A.filter fun u => (q.file t).due q.timerJiffies (q.expires u) = d := by
        rw [List.filter_eq_self]
        intro u hu
        have : u ≠ t := fun he => ht (by rw [← he]; simp [(List.mem_filter.mp hu).1])
        simpa using this
      have hnil : B.filter (fun u => (q.file t).due q.timerJiffies (q.expires u) = d) = [] := by
        rw [List.filter_eq_nil_iff]
        intro u hu
        have := hB u hu
        rw [hd] at this
        simpa using this
      rw [Queues.slot, h, List.filter_append, List.filter_cons_of_pos (by simpa using hd), hnil,
        List.filter_append, hA]
      simp
    · have ht : t ∉ q.slot b d := by
        intro hm
        obtain ⟨hm, hd⟩ := mem_slot.mp hm
        obtain rfl := S.unique t _ _ hmem hm
        exact hbd ⟨rfl, hd⟩
      rw [List.append_nil, eq_comm, List.filter_eq_self]
      intro u hu
      have : u ≠ t := fun he => ht (he ▸ hu)
      simpa using this

theorem alike_bisim : Bisim (Alike (m := m) (N := N)) where
  expires h := h.expires
  jiffies h := h.jiffies
  timerJiffies h := h.timerJiffies
  pending h _ _ := h.pending_iff
  workList h _ _ := h.workList
  setLock _ h := ⟨h.expires, h.jiffies, h.timerJiffies, h.slot⟩
  setJiffies _ h := ⟨h.expires, rfl, h.timerJiffies, h.slot⟩
  exec h _ _ _ _ _ _ := h.exec _
  startTick h S S' _ _ := h.startTick S S'
  takeTimer h _ _ _ _ _ _ := h.takeTimer

/-! ## A single timer -/

/-- There is one timer only, and its entry is the same. -/
structure Alone (q q' : Queues m N) : Prop where
  only : ∀ u v : Fin N, u = v
  entry : q.entry = q'.entry
  jiffies : q.jiffies = q'.jiffies
  timerJiffies : q.timerJiffies = q'.timerJiffies

namespace Alone

theorem expires (h : q.Alone q') : q.expires = q'.expires := by
  funext t
  exact congrArg Entry.expires (congrFun h.entry t)

theorem status (h : q.Alone q') (t : Fin N) : q.status t = q'.status t :=
  congrArg Entry.status (congrFun h.entry t)

theorem pending_iff (h : q.Alone q') (S : q.Sound working) (S' : q'.Sound working) (t : Fin N) :
    q.Pending t ↔ q'.Pending t := by
  rw [← not_iff_not, ← status_off S, ← status_off S', h.status]

theorem workList (h : q.Alone q') (S : q.Sound working) (S' : q'.Sound working) :
    q.list .workList = q'.list .workList := by
  have hperm : (q.list .workList).Perm (q'.list .workList) := by
    refine (List.perm_ext_iff_of_nodup (S.nodup _) (S'.nodup _)).mpr fun t => ?_
    rw [← Expiring, ← Expiring, ← status_expiring S, ← status_expiring S', h.status]
  exact List.ext_getElem hperm.length_eq fun _ _ _ => h.only _ _

theorem exec {c : Call m N} (h : q.Alone q') (hc : q.Allows c) (hc' : q'.Allows c)
    (S : q.Sound working) (S' : q'.Sound working) (T : (q.exec c).1.Sound working)
    (T' : (q'.exec c).1.Sound working) : (q.exec c).1.Alone (q'.exec c).1 := by
  obtain ⟨hT, hJ, -⟩ := exec_frame (q := q) c
  obtain ⟨hT', hJ', -⟩ := exec_frame (q := q') c
  refine ⟨h.only, ?_, hJ.trans (h.jiffies.trans hJ'.symm), hT.trans (h.timerJiffies.trans hT'.symm)⟩
  funext u
  have he := entry_exec hc S T
  rw [h.entry, h.timerJiffies, entry_exec hc' S' T'] at he
  rw [h.only u c.timer]
  exact (Option.some.inj he).symm

theorem startTick (h : q.Alone q') (S : q.Sound false) (S' : q'.Sound false)
    (T : q.startTick.Sound true) (T' : q'.startTick.Sound true) :
    q.startTick.Alone q'.startTick := by
  refine ⟨h.only, ?_, by simpa using h.jiffies, congrArg (· + 1) h.timerJiffies⟩
  funext u
  rw [Queues.entry, Queues.entry, expires_startTick, expires_startTick, h.expires,
    status_startTick S T, status_startTick S' T', h.status]

theorem takeTimer {ts : List (Fin N)} (h : q.Alone q') (hl : q.list .workList = t :: ts)
    (hl' : q'.list .workList = t :: ts) (S : q.Sound true) (S' : q'.Sound true)
    (T : q.takeTimer.Sound true) (T' : q'.takeTimer.Sound true) :
    q.takeTimer.Alone q'.takeTimer := by
  refine ⟨h.only, ?_, h.jiffies, h.timerJiffies⟩
  funext u
  rw [Queues.entry, Queues.entry, status_takeTimer hl S T, status_takeTimer hl' S' T', h.status]
  exact congrArg (Entry.mk · _) (congrFun h.expires u)

end Alone

theorem alone_bisim : Bisim (Alone (m := m) (N := N)) where
  expires h := h.expires
  jiffies h := h.jiffies
  timerJiffies h := h.timerJiffies
  pending h S S' := h.pending_iff S S'
  workList h S S' := h.workList S S'
  setLock _ h := ⟨h.only, h.entry, h.jiffies, h.timerJiffies⟩
  setJiffies _ h := ⟨h.only, h.entry, rfl, h.timerJiffies⟩
  exec h hc hc' S S' T T' := h.exec hc hc' S S' T T'
  startTick h S S' T T' := h.startTick S S' T T'
  takeTimer h hl hl' S S' T T' := h.takeTimer hl hl' S S' T T'

end Queues

end Uki
