import Uki.Timer.Queues

/-!
# The client operations on the queues

`internal_add_timer` and `detach_timer` insert into and remove from a queue, and
every call does what `Queues.exec` says (`exec_spec`). A call fails in one case
only, `add_timer` on a pending timer.
-/

set_option linter.style.nameCheck false

namespace Uki

variable {m : LongModel} {N : Nat} {working : Bool} {loose : List (Fin N)} {w : World m N}
  {q : Queues m N} {t : Fin N} {b : Head}

/-! ## The two internal operations -/

/-- The bucket `internal_add_timer` chooses for `t`. -/
def World.file (w : World m N) (t : Fin N) : Head :=
  internalAddVec w.base.timerJiffies (w.timer t).expires

theorem World.live_file (w : World m N) (t : Fin N) : Head.live working (w.file t) = true := by
  obtain ⟨tv, i, hf, hi⟩ := internalAddVec_lt w.base.timerJiffies (w.timer t).expires
  rw [World.file, hf]
  simpa [Head.live] using hi

theorem Realizes.file_eq (R : Realizes working loose w q) (t : Fin N) : w.file t = q.file t := by
  rw [World.file, R.timerJiffies, R.expires, Queues.file]

/-- The other lists, and the timers in no list, are left alone. -/
theorem internalAddTimer_rings {list : Head → List (Fin N)}
    (R : Represents w.heap (ringHeads (Head.live working) list)) (ht : ∀ b, t ∉ list b) :
    ∃ k, internalAddTimer w t = some (w.setHeap k) ∧
      Represents k (ringHeads (Head.live working)
        (Function.update list (w.file t) (list (w.file t) ++ [t]))) ∧
      SameOff (.entry t :: .head (w.file t) :: (list (w.file t)).map .entry) w.heap k := by
  have hlive : Head.live working (w.file t) = true := w.live_file t
  have hav : (ringHeads (Head.live working) list).Avoids (.entry t) := ringHeads_avoids_entry ht
  obtain ⟨k, hk, R', hs⟩ := represents_listAddTail R (ringHeads_head _ hlive) hav.unlinked
    (by simp)
  refine ⟨k, ?_, ?_, hs⟩
  · rw [World.file] at hk
    simp [internalAddTimer, hk]
  · rw [hav.set_none_eq] at R'
    rw [ringHeads_update _ hlive, List.map_append]
    exact R'

theorem internalAddTimer_spec (R : Realizes working (t :: loose) w q) (ht : ¬ q.Pending t) :
    ∃ k, internalAddTimer w t = some (w.setHeap k) ∧
      Realizes working loose (w.setHeap k) (q.insert (q.file t) t) ∧
      SameOff (.entry t :: .head (q.file t) :: (q.list (q.file t)).map .entry) w.heap k := by
  obtain ⟨k, hk, R', hs⟩ := internalAddTimer_rings R.rings fun b hb => ht ⟨b, hb⟩
  have hlive : Head.live working (w.file t) = true := w.live_file t
  rw [R.file_eq] at R' hs hlive
  refine ⟨k, hk, ?_, hs⟩
  refine { R with rings := R', dead := ?_, null := ?_ }
  · intro b hb
    have hne : b ≠ q.file t := by
      rintro rfl
      rw [hlive] at hb
      cases hb
    simpa [Queues.insert, Function.update_apply, hne] using R.dead b hb
  · intro u hu hp
    have hut : u ≠ t := by
      rintro rfl
      exact hp ⟨q.file u, by simp [Queues.mem_insert]⟩
    have hup : ¬ q.Pending u := by
      rintro ⟨b, hb⟩
      exact hp ⟨b, (Queues.mem_insert ..).mpr (.inl hb)⟩
    have hcell : k (.entry u) = w.heap (.entry u) := by
      refine hs _ ?_
      simp only [List.mem_cons, Node.entry.injEq, hut, reduceCtorEq, List.mem_map,
        exists_eq_right, false_or]
      exact fun hm => hup ⟨_, hm⟩
    have := R.null u (by simp [hut, hu]) hup
    simpa only [World.setHeap, Heap.next, hcell] using this

theorem detachTimer_spec (R : Realizes working loose w q) (hm : t ∈ q.list b) (clear : Bool) :
    ∃ k, detachTimer w t clear = some (w.setHeap k) ∧
      Realizes working (if clear then loose else t :: loose) (w.setHeap k) (q.remove t) := by
  have hlive := R.live_of_mem hm
  obtain ⟨A, B, hAB⟩ := List.append_of_mem hm
  have hx := ringHeads_head q.list hlive
  rw [hAB, List.map_append, List.map_cons] at hx
  obtain ⟨p, n, hp, hn, hpe, hne⟩ := R.rings.neighbours hx
  have R' := represents_remove R.rings hx hp hn
  have hav := R.rings.avoids_removed hx
  set h := __listDel w.heap p n with hh
  let k : Heap (Node N) := (if clear then h.setNext (.entry t) .null else h).setPrev (.entry t)
    .listPoison2
  have hkne : ∀ x, x ≠ Node.entry t → k x = h x := by
    intro x hxt
    simp only [k]
    split <;> simp [Heap.setNext, Heap.setPrev, hxt]
  have hlist := q.list_remove t b hAB (R.nodup b) fun b' hm' => R.unique hm' hm
  refine ⟨k, by simp [detachTimer, hpe, hne, k, hh], ?_⟩
  refine { R with rings := ?_, dead := ?_, null := ?_ }
  · rw [hlist, ringHeads_update _ hlive, List.map_append]
    exact R'.write hav hkne
  · intro b' hb
    simp [Queues.remove, R.dead b' hb]
  · intro u hu hpu
    rcases eq_or_ne u t with rfl | hut
    · cases clear with
      | true => simp [World.setHeap, k]
      | false => exact absurd List.mem_cons_self hu
    · have hup : ¬ q.Pending u := by
        rintro ⟨b, hb⟩
        exact hpu ⟨b, (Queues.mem_remove ..).mpr ⟨hb, hut⟩⟩
      have hul : u ∉ loose := by
        cases clear with
        | true => exact hu
        | false => exact fun h => hu (List.mem_cons_of_mem _ h)
      have hcell : k (.entry u) = w.heap (.entry u) := by
        rw [hkne _ (by simpa using hut), hh, __listDel_eq]
        have hpm := List.mem_of_getLast? hp
        have hnm := List.mem_of_head? hn
        refine Heap.link_apply_of_ne _ ?_ ?_
        · rintro rfl
          refine hup ⟨b, ?_⟩
          rw [hAB]
          simp at hpm
          grind
        · rintro rfl
          refine hup ⟨b, ?_⟩
          rw [hAB]
          simp at hnm
          grind
      have := R.null u hul hup
      simpa only [World.setHeap, Heap.next, hcell] using this

/-! ## The calls -/

theorem remove_eq_self (ht : ¬ q.Pending t) : q.remove t = q := by
  cases q with
  | mk list expires code lock timerJiffies jiffies =>
    simp only [Queues.remove, Queues.mk.injEq, and_true]
    funext b
    rw [List.filter_eq_self]
    intro u hu
    have : u ≠ t := fun he => ht ⟨b, he ▸ hu⟩
    simpa using this

theorem forgetNextTimer_spec (R : Realizes working loose w q) (t : Fin N) :
    Realizes working loose (forgetNextTimer w t) q := by
  rw [forgetNextTimer]
  split
  · exact R.setNextTimer _
  · exact R

theorem enqueueTimer_spec (R : Realizes working (t :: loose) w q) (ht : ¬ q.Pending t)
    (e : ULong m) :
    ∃ w', enqueueTimer w t e = some w' ∧
      Realizes working loose w' ((q.insert (q.file t) t).store t e) := by
  obtain ⟨k, hk, R', -⟩ := internalAddTimer_spec R ht
  have R'' := R'.setExpires t e
  simp only [enqueueTimer, hk, Option.bind_eq_bind, Option.bind_some]
  split
  · exact ⟨_, rfl, R''.setNextTimer _⟩
  · exact ⟨_, rfl, R''⟩

theorem rearm_eq (q : Queues m N) (t : Fin N) (e : ULong m) :
    q.rearm t (q.expires t) e =
      (((q.remove t).insert ((q.remove t).file t) t).store t e).unlock := rfl

/-- The slow path on a pending timer. -/
theorem __modTimer_of_pending (R : Realizes working [] w q) (ht : q.Pending t) (e : ULong m)
    (pendingOnly : Bool) :
    ∃ w', __modTimer w t e pendingOnly = some (w', 1) ∧
      Realizes working [] w' (q.rearm t (q.expires t) e) := by
  obtain ⟨b, hm⟩ := ht
  obtain ⟨k, hk, R'⟩ := detachTimer_spec R hm false
  have hnp : ¬ (q.remove t).Pending t := by
    rintro ⟨b, hb⟩
    exact ((Queues.mem_remove ..).mp hb).2 rfl
  obtain ⟨w', hw', R''⟩ := enqueueTimer_spec (forgetNextTimer_spec R' t) hnp e
  refine ⟨spinUnlock w', ?_, R''.spinUnlock⟩
  have hp := R.timerPending_iff.mpr ⟨b, hm⟩
  simp [__modTimer, (R.code t).1, lockTimerBase, hp, hk, hw']

/-- The slow path on a timer that is not pending. -/
theorem __modTimer_of_not_pending (R : Realizes working [] w q) (ht : ¬ q.Pending t) (e : ULong m) :
    ∃ w', __modTimer w t e false = some (w', 0) ∧
      Realizes working [] w' (q.rearm t (q.expires t) e) := by
  obtain ⟨w', hw', R'⟩ := enqueueTimer_spec (R.weaken t) ht e
  refine ⟨spinUnlock w', ?_, ?_⟩
  · simp [__modTimer, (R.code t).1, lockTimerBase, R.timerPending_eq_false ht, hw']
  · rw [rearm_eq, remove_eq_self ht]
    exact R'.spinUnlock

theorem __modTimer_pendingOnly (R : Realizes working [] w q) (ht : ¬ q.Pending t) (e : ULong m) :
    __modTimer w t e true = some (spinUnlock w, 0) := by
  simp [__modTimer, (R.code t).1, lockTimerBase, R.timerPending_eq_false ht]

theorem modTimer_spec (R : Realizes working [] w q) (t : Fin N) (e : ULong m) :
    ∃ w', modTimer w t e = some (w', (q.exec (.modTimer t e)).2) ∧
      Realizes working [] w' (q.exec (.modTimer t e)).1 := by
  by_cases ht : q.Pending t
  · have hp := R.timerPending_iff.mpr ht
    by_cases he : q.expires t = e
    · refine ⟨w, ?_, ?_⟩ <;> simp [modTimer, Queues.exec, hp, ht, R.expires, he, R]
    · obtain ⟨w', hw', R'⟩ := __modTimer_of_pending R ht e false
      exact ⟨w', by simp [modTimer, Queues.exec, hp, ht, R.expires, he, hw'],
        by simpa [Queues.exec, ht, he] using R'⟩
  · obtain ⟨w', hw', R'⟩ := __modTimer_of_not_pending R ht e
    exact ⟨w', by simp [modTimer, Queues.exec, R.timerPending_eq_false ht, ht, hw'],
      by simpa [Queues.exec, ht] using R'⟩

/-- Setting `timer->expires` first makes no difference to what `rearm` stores. -/
theorem rearm_store (q : Queues m N) (t : Fin N) (e : ULong m) :
    (q.store t e).rearm t ((q.store t e).expires t) e = q.rearm t e e := by
  simp only [Queues.rearm, Queues.expires_store, Function.update_self, Queues.timerJiffies_store]
  simp [Queues.remove, Queues.insert, Queues.store, Queues.unlock]

theorem addTimer_spec (R : Realizes working [] w q) (ht : ¬ q.Pending t) (e : ULong m) :
    ∃ w', addTimer (w.setExpires t e) t = some w' ∧ Realizes working [] w' (q.rearm t e e) := by
  have Re := R.setExpires t e
  have hp : timerPending (w.setExpires t e) t = false := Re.timerPending_eq_false ht
  obtain ⟨w', hw', R'⟩ := modTimer_spec Re t e
  have hx : ((w.setExpires t e).timer t).expires = e := by simp [World.setExpires, World.setTimer]
  have hnp : ¬ (q.store t e).Pending t := ht
  refine ⟨w', by simp [addTimer, hp, hx, hw'], ?_⟩
  rw [← rearm_store]
  simpa only [Queues.exec, if_neg hnp] using R'

/-- `BUG_ON(timer_pending(timer))`. -/
theorem addTimer_of_pending (R : Realizes working [] w q) (ht : q.Pending t) (e : ULong m) :
    addTimer (w.setExpires t e) t = none := by
  have hp : timerPending (w.setExpires t e) t = true :=
    (R.setExpires t e).timerPending_iff.mpr ht
  simp [addTimer, hp]

theorem delTimer_spec (R : Realizes working [] w q) (t : Fin N) :
    ∃ w', delTimer w t = some (w', (q.exec (.delTimer t)).2) ∧
      Realizes working [] w' (q.exec (.delTimer t)).1 := by
  by_cases ht : q.Pending t
  · have hp := R.timerPending_iff.mpr ht
    obtain ⟨b, hm⟩ := ht
    obtain ⟨k, hk, R'⟩ := detachTimer_spec R hm true
    have ht : q.Pending t := ⟨b, hm⟩
    refine ⟨spinUnlock (forgetNextTimer (w.setHeap k) t), ?_, ?_⟩
    · simp [delTimer, lockTimerBase, hp, hk, Queues.exec, ht]
    · simpa [Queues.exec, ht] using (forgetNextTimer_spec R' t).spinUnlock
  · refine ⟨w, ?_, ?_⟩
    · simp [delTimer, R.timerPending_eq_false ht, Queues.exec, ht]
    · simpa [Queues.exec, ht] using R

theorem modTimerPending_spec (R : Realizes working [] w q) (t : Fin N) (e : ULong m) :
    ∃ w', modTimerPending w t e = some (w', (q.exec (.modTimerPending t e)).2) ∧
      Realizes working [] w' (q.exec (.modTimerPending t e)).1 := by
  by_cases ht : q.Pending t
  · obtain ⟨w', hw', R'⟩ := __modTimer_of_pending R ht e true
    exact ⟨w', by simp [modTimerPending, Queues.exec, ht, hw'],
      by simpa [Queues.exec, ht] using R'⟩
  · refine ⟨spinUnlock w, ?_, ?_⟩
    · simp [modTimerPending, Queues.exec, ht, __modTimer_pendingOnly R ht]
    · simpa [Queues.exec, ht] using R.spinUnlock

/-- A call that is allowed succeeds, and acts on the queues. -/
theorem exec_spec (R : Realizes working [] w q) {c : Call m N} (hc : q.Allows c) :
    ∃ w', c.exec w = some (w', (q.exec c).2) ∧ Realizes working [] w' (q.exec c).1 := by
  cases c with
  | addTimer t e =>
    obtain ⟨w', hw', R'⟩ := addTimer_spec R hc e
    exact ⟨w', by simp [Call.exec, hw', Queues.exec], R'⟩
  | modTimer t e => exact modTimer_spec R t e
  | modTimerPending t e => exact modTimerPending_spec R t e
  | delTimer t => exact delTimer_spec R t

theorem exec_eq_none (R : Realizes working [] w q) {c : Call m N} (hc : ¬ q.Allows c) :
    c.exec w = none := by
  cases c with
  | addTimer t e =>
    have ht : q.Pending t := not_not.mp hc
    simp [Call.exec, addTimer_of_pending R ht]
  | modTimer | modTimerPending | delTimer => exact absurd trivial hc

/-- What a call that returned has done. -/
theorem exec_inv (R : Realizes working [] w q) {c : Call m N} {w' : World m N} {r : Nat}
    (h : c.exec w = some (w', r)) :
    q.Allows c ∧ r = (q.exec c).2 ∧ Realizes working [] w' (q.exec c).1 := by
  by_cases hc : q.Allows c
  · obtain ⟨w'', h', R'⟩ := exec_spec R hc
    rw [h] at h'
    cases h'
    exact ⟨hc, rfl, R'⟩
  · rw [exec_eq_none R hc] at h
    cases h

end Uki
