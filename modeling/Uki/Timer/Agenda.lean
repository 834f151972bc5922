import Uki.Timer.Refine

/-!
# Where a timer is, and when it is run

For a single timer the wheel is an agenda: the timer is in no queue, on the work
list, or due in some number of ticks. A call changes the entry of its own timer
only. A tick moves the timers that are due at once to the work list and brings
every other one a tick closer (`mem_workList_startTick`, `due_startTick`); on
which level the timer is, and how it is cascaded, does not show.
-/

namespace Uki

variable {m : LongModel} {N : Nat} {q : Queues m N} {t u : Fin N} {b : Head}

/-! ## Cascades and locations -/

/-- Where the turn of `tv` at `T` leaves a timer with expiry `e`. -/
def Head.turned (T : ULong m) (tv : Tv) (e : ULong m) : Head → Head
  | .vec tv' i =>
    if T.toNat % 2 ^ tv.shift = 0 ∧ tv' = tv ∧ i = T.toNat / 2 ^ tv.shift % 16 then
      internalAddVec T e
    else
      .vec tv' i
  | b => b

/-- Where all the cascades at `T` leave a timer with expiry `e`. -/
def Head.settled (T : ULong m) (e : ULong m) : Head → Head
  | .vec tv i => settle T tv i e
  | b => b

theorem wait_eq_zero_iff (T : ULong m) {tv : Tv} {i : Nat} (htv : tv ≠ .tv1) (hi : i < tv.size) :
    wait T tv i = 0 ↔ T.toNat % 2 ^ tv.shift = 0 ∧ i = T.toNat / 2 ^ tv.shift % 16 := by
  simp only [wait]
  cases tv with
  | tv1 => exact absurd rfl htv
  | tv2 | tv3 | tv4 | tv5 =>
    simp only [Tv.size, Tv.span, Tv.shift, TVN_SIZE, TVR_BITS, TVN_BITS, Nat.shiftLeft_eq] at *
    omega

theorem Head.turned_file (T e : ULong m) (tv : Tv) :
    (internalAddVec T e).turned T tv e = internalAddVec T e := by
  obtain ⟨tv', i', h, -⟩ := internalAddVec_lt T e
  rw [h, Head.turned, h]
  split <;> rfl

/-- A timer that is filed again by one cascade stays there in the others. -/
theorem Head.turned_turned (T e : ULong m) {tv : Tv} {i : Nat} (hi : i < tv.size) :
    ((((Head.vec tv i).turned T .tv2 e).turned T .tv3 e).turned T .tv4 e).turned T .tv5 e =
      settle T tv i e := by
  by_cases hc : tv ≠ .tv1 ∧ wait T tv i = 0
  · have hw := (wait_eq_zero_iff T hc.1 hi).mp hc.2
    rw [settle, if_pos hc]
    have hself : (Head.vec tv i).turned T tv e = internalAddVec T e :=
      if_pos ⟨hw.1, rfl, hw.2⟩
    have hother (tv' : Tv) (hne : tv ≠ tv') : (Head.vec tv i).turned T tv' e = .vec tv i :=
      if_neg fun h => hne h.2.1
    cases tv with
    | tv1 => exact absurd rfl hc.1
    | tv2 => simp only [hself, turned_file]
    | tv3 => simp only [hother .tv2 (by decide), hself, turned_file]
    | tv4 => simp only [hother .tv2 (by decide), hother .tv3 (by decide), hself, turned_file]
    | tv5 =>
      simp only [hother .tv2 (by decide), hother .tv3 (by decide), hother .tv4 (by decide), hself]
  · have hstay (tv' : Tv) (htv' : tv' ≠ .tv1) : (Head.vec tv i).turned T tv' e = .vec tv i := by
      refine if_neg fun h => hc ?_
      obtain ⟨h0, rfl, hi'⟩ := h
      exact ⟨htv', (wait_eq_zero_iff T htv' hi).mpr ⟨h0, hi'⟩⟩
    rw [settle, if_neg hc]
    simp only [hstay .tv2 (by decide), hstay .tv3 (by decide), hstay .tv4 (by decide),
      hstay .tv5 (by decide)]

namespace Queues

theorem mem_turn (tv : Tv) :
    u ∈ (q.turn tv).list b ↔
      ∃ b₀, u ∈ q.list b₀ ∧ b₀.turned q.timerJiffies tv (q.expires u) = b := by
  rw [turn]
  split
  · next h0 =>
    rw [mem_cascade]
    constructor
    · rintro (⟨hm, hne⟩ | ⟨hm, hf⟩)
      · refine ⟨b, hm, ?_⟩
        cases b with
        | vec tv' i =>
          refine if_neg fun h => hne ?_
          rw [h.2.1, h.2.2]
        | workList | tvList => rfl
      · exact ⟨_, hm, by rw [Head.turned, if_pos ⟨h0, rfl, rfl⟩]; exact hf⟩
    · rintro ⟨b₀, hm, rfl⟩
      rcases eq_or_ne b₀ (.vec tv (q.timerJiffies.toNat / 2 ^ tv.shift % 16)) with rfl | hb
      · rw [Head.turned, if_pos ⟨h0, rfl, rfl⟩]
        exact .inr ⟨hm, rfl⟩
      · have hs : b₀.turned q.timerJiffies tv (q.expires u) = b₀ := by
          cases b₀ with
          | vec tv' i =>
            refine if_neg fun h => hb ?_
            rw [h.2.1, h.2.2]
          | workList | tvList => rfl
        rw [hs]
        exact .inl ⟨hm, hb⟩
  · next h0 =>
    constructor
    · intro hm
      refine ⟨b, hm, ?_⟩
      cases b with
      | vec tv' i => exact if_neg fun h => h0 h.1
      | workList | tvList => rfl
    · rintro ⟨b₀, hm, rfl⟩
      cases b₀ with
      | vec tv' i =>
        rw [Head.turned, if_neg fun h => h0 h.1]
        exact hm
      | workList | tvList => exact hm

theorem Sound.lt {working : Bool} (S : q.Sound working) {tv : Tv} {i : Nat}
    (hm : t ∈ q.list (.vec tv i)) : i < tv.size := by
  by_contra h
  rw [S.dead (.vec tv i) (by simpa [Head.live] using h)] at hm
  cases hm

theorem mem_cascadeTimers {working : Bool} (S : q.Sound working) :
    u ∈ q.cascadeTimers.list b ↔
      ∃ b₀, u ∈ q.list b₀ ∧ b₀.settled q.timerJiffies (q.expires u) = b := by
  have key (b₀ : Head) (hm : u ∈ q.list b₀) :
      (((b₀.turned q.timerJiffies .tv2 (q.expires u)).turned q.timerJiffies .tv3 (q.expires u)).turned
        q.timerJiffies .tv4 (q.expires u)).turned q.timerJiffies .tv5 (q.expires u) =
        b₀.settled q.timerJiffies (q.expires u) := by
    cases b₀ with
    | vec tv i => exact Head.turned_turned _ _ (S.lt hm)
    | workList | tvList => rfl
  simp only [cascadeTimers, mem_turn, timerJiffies_turn, expires_turn]
  constructor
  · rintro ⟨_, ⟨_, ⟨_, ⟨b₀, hm, rfl⟩, rfl⟩, rfl⟩, rfl⟩
    exact ⟨b₀, hm, (key b₀ hm).symm⟩
  · rintro ⟨b₀, hm, rfl⟩
    exact ⟨_, ⟨_, ⟨_, ⟨b₀, hm, rfl⟩, rfl⟩, rfl⟩, key b₀ hm⟩

/-! ## The agenda -/

/-- `t` is in a bucket and is run in `d` ticks. -/
def Due (q : Queues m N) (t : Fin N) (d : Nat) : Prop :=
  ∃ tv i, t ∈ q.list (.vec tv i) ∧ dueIn q.timerJiffies tv i (q.expires t) = d

def Expiring (q : Queues m N) (t : Fin N) : Prop := t ∈ q.list .workList

theorem pending_iff {working : Bool} (S : q.Sound working) :
    q.Pending t ↔ q.Expiring t ∨ ∃ d, q.Due t d := by
  constructor
  · rintro ⟨b, hm⟩
    cases b with
    | vec tv i => exact .inr ⟨_, tv, i, hm, rfl⟩
    | workList => exact .inl hm
    | tvList =>
      rw [S.dead .tvList rfl] at hm
      cases hm
  · rintro (hm | ⟨d, tv, i, hm, -⟩)
    · exact ⟨_, hm⟩
    · exact ⟨_, hm⟩

theorem Sound.due_unique {working : Bool} (S : q.Sound working) {d d' : Nat} (h : q.Due t d)
    (h' : q.Due t d') : d = d' := by
  obtain ⟨tv, i, hm, rfl⟩ := h
  obtain ⟨tv', i', hm', rfl⟩ := h'
  have hb := S.unique t _ _ hm hm'
  cases hb
  rfl

theorem Sound.not_due_of_expiring {working : Bool} (S : q.Sound working) (h : q.Expiring t)
    (d : Nat) : ¬ q.Due t d := by
  rintro ⟨tv, i, hm, -⟩
  have hb := S.unique t _ _ h hm
  cases hb

/-! ### Ticks -/

theorem expiring_startTick (S : q.Sound false) : q.startTick.Expiring t ↔ q.Due t 0 := by
  rw [Expiring, mem_startTick]
  constructor
  · rintro (⟨-, hm⟩ | ⟨hne, -, -⟩)
    · obtain ⟨b₀, hm, hs⟩ := (mem_cascadeTimers S).mp hm
      cases b₀ with
      | vec tv i => exact ⟨tv, i, hm, (dueIn_eq_zero_iff (S.lt hm) _).mpr hs⟩
      | workList | tvList => cases hs
    · exact absurd rfl hne
  · rintro ⟨tv, i, hm, hd⟩
    refine .inl ⟨rfl, (mem_cascadeTimers S).mpr ⟨_, hm, ?_⟩⟩
    exact (dueIn_eq_zero_iff (S.lt hm) _).mp hd

theorem due_startTick (S : q.Sound false) (d : Nat) : q.startTick.Due t d ↔ q.Due t (d + 1) := by
  constructor
  · rintro ⟨tv', i', hm, rfl⟩
    rcases mem_startTick.mp hm with ⟨hne, -⟩ | ⟨-, hne, hm⟩
    · cases hne
    · obtain ⟨b₀, hm, hs⟩ := (mem_cascadeTimers S).mp hm
      cases b₀ with
      | vec tv i =>
        refine ⟨tv, i, hm, ?_⟩
        rw [expires_startTick, timerJiffies_startTick]
        refine (dueIn_succ (S.lt hm) hs fun h0 => hne ?_).symm
        exact hs.symm.trans ((dueIn_eq_zero_iff (S.lt hm) _).mp h0)
      | workList | tvList => cases hs
  · rintro ⟨tv, i, hm, hd⟩
    have hs0 : dueIn q.timerJiffies tv i (q.expires t) ≠ 0 := by omega
    have hcur : settle q.timerJiffies tv i (q.expires t) ≠ q.current := fun h =>
      hs0 ((dueIn_eq_zero_iff (S.lt hm) _).mpr h)
    obtain ⟨tv', i', hs⟩ : ∃ tv' i', settle q.timerJiffies tv i (q.expires t) = .vec tv' i' := by
      rw [settle]
      split
      · obtain ⟨tv', i', hf, -⟩ := internalAddVec_lt q.timerJiffies (q.expires t)
        exact ⟨tv', i', hf⟩
      · exact ⟨_, _, rfl⟩
    refine ⟨tv', i', mem_startTick.mpr (.inr ⟨by simp, hs ▸ hcur, ?_⟩), ?_⟩
    · exact (mem_cascadeTimers S).mpr ⟨_, hm, hs⟩
    · rw [expires_startTick, timerJiffies_startTick]
      have := dueIn_succ (S.lt hm) hs hs0
      omega

theorem pending_startTick (S : q.Sound false) : q.startTick.Pending t ↔ q.Pending t := by
  constructor
  · rintro ⟨b, hm⟩
    rcases mem_startTick.mp hm with ⟨-, hm⟩ | ⟨-, -, hm⟩ <;>
      obtain ⟨b₀, hm, -⟩ := (mem_cascadeTimers S).mp hm <;> exact ⟨b₀, hm⟩
  · intro hp
    rcases (pending_iff S).mp hp with hm | ⟨d, hd⟩
    · rw [Expiring, S.dead .workList rfl] at hm
      cases hm
    · cases d with
      | zero => exact ⟨.workList, (expiring_startTick S).mpr hd⟩
      | succ d =>
        obtain ⟨tv, i, hm, -⟩ := (due_startTick S d).mpr hd
        exact ⟨_, hm⟩

/-! ### Calls -/

/-- The due time of a timer that was put into the bucket for `key` and has the
expiry `e`. -/
def dueAs (T key e : ULong m) : Nat :=
  match internalAddVec T key with
  | .vec tv i => dueIn T tv i e
  | _ => 0

theorem dueAs_self (T e : ULong m) : dueAs T e e = delay T e := by
  obtain ⟨tv, i, h, -⟩ := internalAddVec_lt T e
  rw [dueAs, h]
  exact dueIn_file h

theorem mem_rearm (key e : ULong m) :
    u ∈ (q.rearm t key e).list b ↔
      (u ∈ q.list b ∧ u ≠ t) ∨ (b = internalAddVec q.timerJiffies key ∧ u = t) := by
  simp only [rearm, list_unlock, list_store, mem_insert, mem_remove]

theorem due_rearm (key e : ULong m) {d : Nat} :
    (q.rearm t key e).Due t d ↔ dueAs q.timerJiffies key e = d := by
  obtain ⟨tv, i, h, -⟩ := internalAddVec_lt q.timerJiffies key
  have he : (q.rearm t key e).expires t = e := by simp [rearm]
  have hT : (q.rearm t key e).timerJiffies = q.timerJiffies := rfl
  simp only [Due, mem_rearm, h, dueAs, he, hT]
  constructor
  · rintro ⟨tv', i', ⟨-, hne⟩ | ⟨hb, -⟩, hd⟩
    · exact absurd rfl hne
    · cases hb
      exact hd
  · intro hd
    exact ⟨tv, i, .inr ⟨rfl, trivial⟩, hd⟩

/-- A call leaves every other timer where it is. -/
theorem mem_exec_of_ne {c : Call m N} (h : u ≠ c.timer) :
    u ∈ (q.exec c).1.list b ↔ u ∈ q.list b := by
  rcases q.exec_cases c with hx | hx | hx | ⟨key, e, hx⟩ <;> rw [hx]
  · rfl
  · simp only [list_unlock, mem_remove]
    exact and_iff_left h
  · simp [mem_rearm, h]

theorem expires_exec_of_ne {c : Call m N} (h : u ≠ c.timer) :
    (q.exec c).1.expires u = q.expires u := by
  rcases q.exec_cases c with hx | hx | hx | ⟨key, e, hx⟩ <;> rw [hx]
  · rfl
  · rfl
  · simp [rearm, h]

/-- The fields no call writes. -/
theorem exec_frame (c : Call m N) :
    (q.exec c).1.timerJiffies = q.timerJiffies ∧ (q.exec c).1.jiffies = q.jiffies ∧
      (q.exec c).1.code = q.code := by
  rcases q.exec_cases c with hx | hx | hx | ⟨key, e, hx⟩ <;> rw [hx] <;> exact ⟨rfl, rfl, rfl⟩

theorem due_exec_of_ne {c : Call m N} (h : u ≠ c.timer) (d : Nat) :
    (q.exec c).1.Due u d ↔ q.Due u d := by
  simp only [Due, mem_exec_of_ne h, expires_exec_of_ne h, (exec_frame c).1]

theorem expiring_exec_of_ne {c : Call m N} (h : u ≠ c.timer) :
    (q.exec c).1.Expiring u ↔ q.Expiring u := mem_exec_of_ne h

theorem pending_exec_of_ne {c : Call m N} (h : u ≠ c.timer) :
    (q.exec c).1.Pending u ↔ q.Pending u := by
  simp only [Pending, mem_exec_of_ne h]

/-! ### Expiry -/

theorem mem_takeTimer {ts : List (Fin N)} (h : q.list .workList = t :: ts) {working : Bool}
    (S : q.Sound working) : u ∈ q.takeTimer.list b ↔ u ∈ q.list b ∧ u ≠ t := by
  have hnd := S.nodup .workList
  rw [h] at hnd
  have ht : t ∈ q.list .workList := by rw [h]; simp
  simp only [takeTimer, list_setList, h, List.tail_cons]
  split
  · next hb =>
    rw [hb, h, List.mem_cons]
    constructor
    · intro hm
      exact ⟨.inr hm, fun he => (List.nodup_cons.mp hnd).1 (he ▸ hm)⟩
    · rintro ⟨rfl | hm, hne⟩
      · exact absurd rfl hne
      · exact hm
  · next hb =>
    constructor
    · intro hm
      exact ⟨hm, fun he => hb (S.unique t _ _ (he ▸ hm) ht)⟩
    · exact fun hm => hm.1

theorem due_takeTimer (q : Queues m N) (u : Fin N) (d : Nat) : q.takeTimer.Due u d ↔ q.Due u d := by
  simp [Due, takeTimer, setList]

end Queues

end Uki
