import Uki.Timer.Cascade

/-!
# The worker on the queues

`cascade` is `Queues.cascade` (`cascade_spec`), and every turn of its loop files
one timer (`Draining.step`). An outer iteration up to the inner loop is
`Queues.startTick`, an inner one up to the callback is `Queues.takeTimer`.
-/

namespace Uki

variable {m : LongModel} {N : Nat} {working : Bool} {loose : List (Fin N)} {w : World m N}
  {q : Queues m N} {t : Fin N} {tv : Tv} {i : Nat}

/-! ## Cascading -/

theorem cascade_take (R : Realizes false [] w q) (hi : i < tv.size) :
    ∃ h, listReplaceInit w.heap (.head (.vec tv i)) (.head .tvList) = some h ∧
      Represents h ((ringHeads (Head.live false) (q.setList (.vec tv i) []).list).set
        (.head .tvList) (some ((q.list (.vec tv i)).map .entry))) ∧
      SameOff (.head .tvList :: .head (.vec tv i) :: (q.list (.vec tv i)).map .entry) w.heap h :=
  cascade_take_rings R.rings hi

theorem realizes_taken (R : Realizes false [] w q) {h : Heap (Node N)}
    (R' : Represents h ((ringHeads (Head.live false) (q.setList (.vec tv i) []).list).set
      (.head .tvList) (some ((q.list (.vec tv i)).map .entry))))
    (hs : SameOff (.head .tvList :: .head (.vec tv i) :: (q.list (.vec tv i)).map .entry) w.heap h) :
    Realizes false (q.list (.vec tv i)) (w.setHeap h) (q.setList (.vec tv i) []) := by
  refine { R with rings := represents_without_tvList R', dead := ?_, null := ?_ }
  · intro b hb
    rw [Queues.list_setList]
    split
    · rfl
    · exact R.dead b hb
  · intro u hu hp
    have hup : ¬ q.Pending u := by
      rintro ⟨b, hb⟩
      refine hp ⟨b, ?_⟩
      rw [Queues.list_setList, if_neg]
      · exact hb
      · rintro rfl
        exact hu hb
    have hcell : h (.entry u) = w.heap (.entry u) := hs _ (by simp [hu])
    have := R.null u (by simp) hup
    simpa only [World.setHeap, Heap.next, hcell] using this

/-- The state at a test of the loop of `cascade`: the timers `ts` are to be filed
yet, and `timer` and `tmp` are the next two nodes. -/
structure Draining (working : Bool) (w : World m N) (q : Queues m N) (ts : List (Fin N))
    (timer tmp : Node N) : Prop where
  realizes : Realizes working ts w q
  fresh : ∀ t ∈ ts, ¬ q.Pending t
  nodup : ts.Nodup
  remaining : Remaining w.heap ts
  head : (route ts).head? = some timer
  next : w.heap.next timer = .to tmp

theorem Draining.refiling {ts : List (Fin N)} {timer tmp : Node N}
    (D : Draining working w q ts timer tmp) : Refiling working w q.list ts timer tmp where
  rings := D.realizes.rings
  fresh t ht b hb := D.fresh t ht ⟨b, hb⟩
  nodup := D.nodup
  remaining := D.remaining
  head := D.head
  next := D.next

/-- One turn of the loop files one timer. -/
theorem Draining.step {ts : List (Fin N)} {timer tmp : Node N}
    (D : Draining working w q (t :: ts) timer tmp) :
    timer = .entry t ∧ ∃ k next, internalAddTimer w t = some (w.setHeap k) ∧
      k.next tmp = .to next ∧
      Draining working (w.setHeap k) (q.insert (q.file t) t) ts tmp next := by
  obtain ⟨htimer, k, next, hk, hnext, -, F⟩ := D.refiling.step
  obtain ⟨k', hk', R', -⟩ := internalAddTimer_spec D.realizes (D.fresh t List.mem_cons_self)
  have hkk : k = k' := congrArg World.heap (Option.some.inj (hk.symm.trans hk'))
  subst hkk
  rw [D.realizes.file_eq] at F
  refine ⟨htimer, k, next, hk, hnext, R', ?_, F.nodup, F.remaining, F.head, F.next⟩
  rintro u hu ⟨b, hb⟩
  exact F.fresh u hu b hb

/-- `cascade` enters its loop with all timers of the bucket. -/
theorem cascade_draining (R : Realizes false [] w q) (hi : i < tv.size) :
    ∃ h timer tmp, listReplaceInit w.heap (.head (.vec tv i)) (.head .tvList) = some h ∧
      h.next (.head .tvList) = .to timer ∧ h.next timer = .to tmp ∧
      Draining false (w.setHeap h) (q.setList (.vec tv i) []) (q.list (.vec tv i)) timer tmp := by
  obtain ⟨h, timer, tmp, hh, hfirst, htmp, -, F⟩ :=
    cascade_refiling R.rings (fun _ _ hm => R.live_of_mem hm) hi
  obtain ⟨h', hh', R', hs⟩ := cascade_take R hi
  cases hh.symm.trans hh'
  refine ⟨h, timer, tmp, hh, hfirst, htmp, realizes_taken R R' hs, ?_, F.nodup, F.remaining,
    F.head, F.next⟩
  rintro t ht ⟨b, hb⟩
  exact F.fresh t ht b hb

theorem cascade_spec (R : Realizes false [] w q) (hi : i < tv.size) :
    ∃ w', cascade w tv i = some (w', i) ∧ Realizes false [] w' (q.cascade tv i) := by
  obtain ⟨-, -, -, k, -, -, -, -, -, hk, hkeep, R'⟩ :=
    cascade_refiles R.rings (fun _ _ hm => R.live_of_mem hm) hi
  have hlist : w.refile (q.list (.vec tv i)) (Function.update q.list (.vec tv i) []) =
      (q.cascade tv i).list := by
    funext b
    simp only [World.refile, R.file_eq]
    rfl
  rw [hlist] at R'
  refine ⟨w.setHeap k, hk, { R with rings := R', dead := ?_, null := ?_ }⟩
  · intro b hb
    rw [List.eq_nil_iff_forall_not_mem]
    intro u hm
    rcases (Queues.mem_cascade ..).mp hm with ⟨hm, -⟩ | ⟨-, rfl⟩
    · rw [R.dead b hb] at hm
      cases hm
    · rw [← R.file_eq, w.live_file] at hb
      cases hb
  · intro u hu hp
    have hup : ∀ b, u ∉ q.list b :=
      w.not_mem_of_refile (.vec tv i) fun b hm => hp ⟨b, hlist ▸ hm⟩
    have := R.null u hu (not_exists.mpr hup)
    simpa only [World.setHeap, Heap.next, hkeep u hup] using this

theorem Queues.turn_of_eq (h : q.timerJiffies.toNat % 2 ^ tv.shift = 0) :
    q.turn tv = q.cascade tv (q.timerJiffies.toNat / 2 ^ tv.shift % 16) := if_pos h

/-- Below a vector whose lower indices have not wrapped nothing is cascaded. -/
theorem Queues.turn_skip (tv : Tv) {k : Nat} (h : q.timerJiffies.toNat % 2 ^ k ≠ 0)
    (hk : k ≤ tv.shift) : q.turn tv = q :=
  if_neg fun h0 => h (Nat.mod_eq_zero_of_dvd
    ((Nat.pow_dvd_pow 2 hk).trans (Nat.dvd_of_mod_eq_zero h0)))

/-- One `cascade` of the condition chain. It returns zero when the next vector
is to be cascaded too. -/
theorem cascade_turn (tv : Tv) (n : Nat) (R : Realizes false [] w q) (htv : tv.size = 16)
    (hn : tv.shift = TVR_BITS + n * TVN_BITS) (h : q.timerJiffies.toNat % 2 ^ tv.shift = 0) :
    ∃ w', cascade w tv (wheelIndex w n) = some (w', wheelIndex w n) ∧
      (wheelIndex w n = 0 ↔ (q.turn tv).timerJiffies.toNat % 2 ^ (tv.shift + TVN_BITS) = 0) ∧
      Realizes false [] w' (q.turn tv) := by
  have hi : wheelIndex w n = q.timerJiffies.toNat / 2 ^ tv.shift % 16 := by
    rw [wheelIndex, toNat_shift_TVN_MASK, R.timerJiffies, hn]
  obtain ⟨w', hw', R'⟩ := cascade_spec R
    (by omega : wheelIndex w n < tv.size)
  refine ⟨w', hw', ?_, ?_⟩
  · rw [hi, Queues.timerJiffies_turn, TVN_BITS, pow_add, Nat.mod_mul, h]
    simp
  · rwa [Queues.turn_of_eq h, ← hi]

theorem cascadeTimers_spec (R : Realizes false [] w q) :
    ∃ w', cascadeTimers w (q.timerJiffies.toNat % 64) = some w' ∧
      Realizes false [] w' q.cascadeTimers := by
  simp only [cascadeTimers, Option.pure_def, Option.bind_eq_bind, Queues.cascadeTimers]
  by_cases h2 : q.timerJiffies.toNat % 64 = 0
  swap
  · refine ⟨w, by simp [h2], ?_⟩
    have h2 : q.timerJiffies.toNat % 2 ^ 6 ≠ 0 := h2
    rwa [Queues.turn_skip .tv2 h2 (by decide), Queues.turn_skip .tv3 h2 (by decide),
      Queues.turn_skip .tv4 h2 (by decide), Queues.turn_skip .tv5 h2 (by decide)]
  obtain ⟨w₂, hw₂, hi₂, R₂⟩ := cascade_turn .tv2 0 R rfl rfl h2
  simp only [h2, ne_eq, not_true_eq_false, if_false, hw₂, Option.bind_some]
  by_cases h3 : (q.turn .tv2).timerJiffies.toNat % 2 ^ 10 = 0
  swap
  · refine ⟨w₂, by rw [if_pos]; exact fun h => h3 (hi₂.mp h), ?_⟩
    rwa [Queues.turn_skip .tv3 h3 (by decide), Queues.turn_skip .tv4 h3 (by decide),
      Queues.turn_skip .tv5 h3 (by decide)]
  obtain ⟨w₃, hw₃, hi₃, R₃⟩ := cascade_turn .tv3 1 R₂ rfl rfl h3
  simp only [hi₂.mpr h3, not_true_eq_false, if_false, hw₃, Option.bind_some]
  by_cases h4 : ((q.turn .tv2).turn .tv3).timerJiffies.toNat % 2 ^ 14 = 0
  swap
  · refine ⟨w₃, by rw [if_pos]; exact fun h => h4 (hi₃.mp h), ?_⟩
    rwa [Queues.turn_skip .tv4 h4 (by decide), Queues.turn_skip .tv5 h4 (by decide)]
  obtain ⟨w₄, hw₄, hi₄, R₄⟩ := cascade_turn .tv4 2 R₃ rfl rfl h4
  simp only [hi₃.mpr h4, not_true_eq_false, if_false, hw₄, Option.bind_some]
  by_cases h5 : (((q.turn .tv2).turn .tv3).turn .tv4).timerJiffies.toNat % 2 ^ 18 = 0
  swap
  · refine ⟨w₄, by rw [if_pos]; exact fun h => h5 (hi₄.mp h), ?_⟩
    rwa [Queues.turn_skip .tv5 h5 (by decide)]
  obtain ⟨w₅, hw₅, -, R₅⟩ := cascade_turn .tv5 3 R₄ rfl rfl h5
  exact ⟨w₅, by simp [hi₄.mpr h5, hw₅], R₅⟩

/-! ## The two loops -/

/-- The stack head of the previous iteration is gone. -/
theorem Realizes.forget (R : Realizes true loose w q) (h : q.list .workList = []) :
    Realizes false loose w q := by
  refine { R with rings := ?_, dead := ?_ }
  · have hr : ringHeads (Head.live false) q.list =
        (ringHeads (Head.live true) q.list).set (.head .workList) none := by
      funext n
      cases n with
      | entry t => simp [ringHeads, Heads.set]
      | head b => cases b <;> simp [ringHeads, Heads.set, Head.live]
    rw [hr]
    exact R.rings.drop _
  · intro b hb
    cases b with
    | vec tv i => exact R.dead _ hb
    | workList => exact h
    | tvList => exact R.dead _ hb

theorem Queues.mem_startTick {u : Fin N} {b : Head} :
    u ∈ q.startTick.list b ↔
      (b = .workList ∧ u ∈ q.cascadeTimers.list q.current) ∨
      (b ≠ .workList ∧ b ≠ q.current ∧ u ∈ q.cascadeTimers.list b) := by
  simp only [startTick, list_setList, current]
  split_ifs <;> simp_all

/-- The bucket that is run moves to the stack head of this iteration. -/
theorem ringHeads_startTick (q : Queues m N) :
    ringHeads (Head.live true) q.startTick.list =
      ((ringHeads (Head.live false) q.cascadeTimers.list).set (.head q.current) (some [])).set
        (.head .workList) (some ((q.cascadeTimers.list q.current).map .entry)) := by
  have hlt : q.timerJiffies.toNat % 64 < Tv.tv1.size := Nat.mod_lt _ (by decide)
  funext n
  cases n with
  | entry t => simp [ringHeads, Heads.set]
  | head b' =>
    simp only [Queues.startTick, Queues.current]
    cases b' with
    | vec tv i =>
      simp [ringHeads, Heads.set, Head.live, Queues.setList, Function.update_apply]
      grind
    | workList | tvList => simp [ringHeads, Heads.set, Head.live, Queues.setList]

theorem startTick_spec (R : Realizes false [] w q) :
    ∃ w', startTick w = some w' ∧ Realizes true [] w' q.startTick := by
  obtain ⟨w₁, hw₁, R₁⟩ := cascadeTimers_spec R
  have hlt : q.timerJiffies.toNat % 64 < Tv.tv1.size := Nat.mod_lt _ (by decide)
  have hlive : Head.live false q.current = true := by simpa [Queues.current, Head.live] using hlt
  obtain ⟨h, hh, R', hs⟩ := represents_listReplaceInit R₁.rings (ringHeads_head _ hlive)
    (ringHeads_unlinked _ (rfl : Head.live false .workList = false)) (by simp [Queues.current])
  refine ⟨{ w₁ with heap := h, base := { w₁.base with timerJiffies := w₁.base.timerJiffies + 1 } },
    ?_, ?_⟩
  · simp only [startTick, toNat_and_TVR_MASK, R.timerJiffies, hw₁, Option.bind_eq_bind,
      Option.bind_some]
    simp only [Queues.current] at hh
    rw [hh]
    rfl
  · refine { R₁ with rings := ?_, dead := ?_, null := ?_, timerJiffies := ?_ }
    · rw [ringHeads_startTick]
      exact R'
    · intro b' hb'
      rw [List.eq_nil_iff_forall_not_mem]
      intro u hm
      rcases Queues.mem_startTick.mp hm with ⟨rfl, -⟩ | ⟨hne, -, hm⟩
      · cases hb'
      · have hd : Head.live false b' = false := by
          cases b' with
          | vec | tvList => exact hb'
          | workList => rfl
        rw [R₁.dead b' hd] at hm
        cases hm
    · intro u _ hp
      have hup : ¬ q.cascadeTimers.Pending u := by
        rintro ⟨b', hm⟩
        by_cases hbb : b' = q.current
        · exact hp ⟨.workList, Queues.mem_startTick.mpr (.inl ⟨rfl, hbb ▸ hm⟩)⟩
        · refine hp ⟨b', Queues.mem_startTick.mpr (.inr ⟨?_, hbb, hm⟩)⟩
          rintro rfl
          rw [R₁.dead .workList rfl] at hm
          cases hm
      have hcell : h (.entry u) = w₁.heap (.entry u) := by
        refine hs _ ?_
        have : u ∉ q.cascadeTimers.list q.current := fun hm => hup ⟨_, hm⟩
        simp [this]
      have := R₁.null u (by simp) hup
      simpa only [Heap.next, hcell] using this
    · simp [Queues.startTick, R₁.timerJiffies]

/-- Popping the work list removes its first timer from the queues. -/
theorem takeTimer_eq_remove (R : Realizes true loose w q) {ts : List (Fin N)}
    (h : q.list .workList = t :: ts) : q.takeTimer = q.remove t := by
  have hm : t ∈ q.list .workList := by rw [h]; simp
  have hlist := q.list_remove t .workList (A := []) h (R.nodup _) fun b' hm' => R.unique hm' hm
  have htail : (q.list .workList).tail = ts := by rw [h, List.tail_cons]
  simp only [Queues.takeTimer, Queues.setList, htail]
  rw [List.nil_append] at hlist
  rw [← hlist]
  rfl

theorem takeTimer_spec (R : Realizes true [] w q) {ts : List (Fin N)}
    (h : q.list .workList = t :: ts) :
    ∃ w', takeTimer w = some (w', t, (q.code t).1, (q.code t).2) ∧
      Realizes true [] w' q.takeTimer := by
  have hm : t ∈ q.list .workList := by rw [h]; simp
  obtain ⟨k, hk, R'⟩ := detachTimer_spec R hm true
  have hr := R.rings.ring _ _ (ringHeads_head q.list (rfl : Head.live true .workList = true))
  rw [h, List.map_cons] at hr
  have hfirst := (hr.link_first (y := .entry t) rfl).1
  refine ⟨w.setHeap k, ?_, ?_⟩
  · simp [takeTimer, hfirst, (R.code t).1, (R.code t).2, hk]
  · rw [takeTimer_eq_remove R h]
    exact R'

theorem listEmpty_workList (R : Realizes true loose w q) :
    listEmpty w.heap (.head .workList) = true ↔ q.list .workList = [] := by
  rw [R.rings.listEmpty_iff (ringHeads_head _ rfl)]
  simp

theorem listEmpty_workList_cons {ts : List (Fin N)} (R : Realizes true loose w q)
    (h : q.list .workList = t :: ts) : listEmpty w.heap (.head .workList) = false := by
  rw [← Bool.not_eq_true, listEmpty_workList R, h]
  simp

end Uki
