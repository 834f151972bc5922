import Uki.Timer.Worker

/-!
# Periodic timers

A callback that adds its period to `expires` and calls `add_timer` arms its timer
for the next period. By the time it does so the tick of the old expiry is being
processed, so the new expiry is at most a period ahead, and the timer keeps to its
schedule (`Periodic`).

Results:
1. `periodic_timer_keeps_schedule`: the timer is run at its first expiry and then at
   every multiple of the period after it, whatever else the wheel does and also when
   the counters wrap.
2. `periodic_timer_catches_up`: after every pass the timer has been run once for every
   period that the clock has passed, however late the worker was.
3. `mod_timer_after_expiry_runs_next_tick`: when the callback uses `mod_timer` instead,
   its timer is run in the very next tick, whatever the expiry it asks for.
-/

set_option linter.style.nameCheck false

namespace Uki

variable {m : LongModel} {N : Nat} {q q' : Queues m N} {s s' s₀ s₁ s₂ : Sys m N} {t : Fin N}
  {ev ev' : List (Event m N)}

/-! ## When a timer is run -/

/-- The number of ticks that had been started, from `k` on, each time `t` was run. -/
def fireTicks (t : Fin N) : Nat → List (Event m N) → List Nat
  | _, [] => []
  | k, .iter _ :: ev => fireTicks t (k + 1) ev
  | k, .fire u _ _ :: ev => if u = t then k :: fireTicks t k ev else fireTicks t k ev
  | k, .ret _ _ :: ev => fireTicks t k ev

theorem fireTicks_append (t : Fin N) (k : Nat) (ev ev' : List (Event m N)) :
    fireTicks t k (ev ++ ev') = fireTicks t k ev ++ fireTicks t (k + (iters ev).length) ev' := by
  induction ev generalizing k with
  | nil => rfl
  | cons e ev ih =>
    cases e with
    | iter T =>
      have hlen : (iters (.iter T :: ev)).length = (iters ev).length + 1 := rfl
      rw [List.cons_append, fireTicks, fireTicks, ih, hlen, Nat.add_assoc, Nat.add_comm 1]
    | fire u fn data =>
      have hlen : (iters (.fire u fn data :: ev)).length = (iters ev).length := rfl
      rw [List.cons_append, fireTicks, fireTicks, ih, hlen]
      split
      · rfl
      · rfl
    | ret c r =>
      have hlen : (iters (.ret c r :: ev)).length = (iters ev).length := rfl
      rw [List.cons_append, fireTicks, fireTicks, ih, hlen]

theorem fireTicks_of_noFire (h : NoFire t ev) (k : Nat) : fireTicks t k ev = [] := by
  induction ev generalizing k with
  | nil => rfl
  | cons e ev ih =>
    have hev : NoFire t ev := fun fn data hm => h fn data (List.mem_cons_of_mem _ hm)
    cases e with
    | iter T => exact ih hev (k + 1)
    | fire u fn data =>
      have hut : u ≠ t := fun hu => h fn data (hu ▸ List.mem_cons_self)
      rw [fireTicks, if_neg hut, ih hev]
    | ret c r => exact ih hev k

/-! ## Callbacks that arm their timer again -/

/-- The callback of `t` arms it with `add_timer` for `expires + p` before it returns.
There is no other call on `t`. -/
def Sys.Rearms (t : Fin N) (p : ULong m) (s : Sys m N) : Act m N → Prop
  | .call c => c.timer = t → s.ctl = .callback t ∧ timerPending s.world t = false ∧
      c = .addTimer t ((s.world.timer t).expires + p)
  | .run => s.ctl = .callback t → timerPending s.world t = true
  | .wake _ => True

instance (t : Fin N) (p : ULong m) (s : Sys m N) : (a : Act m N) → Decidable (s.Rearms t p a)
  | .call c => inferInstanceAs (Decidable (c.timer = t → _))
  | .run => inferInstanceAs (Decidable (s.ctl = .callback t → _))
  | .wake _ => inferInstanceAs (Decidable True)

def Queues.Rearms (q : Queues m N) (c : Ctl N) (t : Fin N) (p : ULong m) : Act m N → Prop
  | .call cl => cl.timer = t → c = .callback t ∧ ¬ q.Pending t ∧ cl = .addTimer t (q.expires t + p)
  | .run => c = .callback t → q.Pending t
  | .wake _ => True

theorem Sys.Holds.rearms (H : s.Holds q) {p : ULong m} {a : Act m N} (ha : s.Rearms t p a) :
    q.Rearms s.ctl t p a := by
  have R := H.realizes
  cases a with
  | call c =>
    intro ht
    obtain ⟨hc, hp, hcall⟩ := ha ht
    refine ⟨hc, fun h => ?_, by rw [hcall, R.expires]⟩
    rw [R.timerPending_iff.mpr h] at hp
    cases hp
  | run => exact fun hc => R.timerPending_iff.mp (ha hc)
  | wake j => trivial

/-! ## The schedule -/

/-- Tick `T` is the one after which `x` ticks are left to `T + x`. -/
theorem ahead_add_ofNat (T : ULong m) {x : Nat} (hx : x < 2 ^ m.bits) :
    ahead T (T + BitVec.ofNat _ x) = x := by
  have he : T + BitVec.ofNat _ x - T = BitVec.ofNat _ x := by
    rw [BitVec.add_comm, BitVec.add_sub_cancel]
  rw [ahead, he, BitVec.toNat_ofNat, Nat.mod_eq_of_lt hx]

theorem add_ofNat_add (T p : ULong m) (x : Nat) :
    T + BitVec.ofNat _ x + p = T + BitVec.ofNat _ (x + p.toNat) := by
  have hp : p = BitVec.ofNat _ p.toNat := by rw [BitVec.ofNat_toNat, BitVec.setWidth_eq]
  rw [BitVec.ofNat_add, ← hp, BitVec.add_assoc]

/-- The tick that is due is being processed when the callback asks for the next one. -/
theorem delay_rearm (T p : ULong m) {x : Nat} (hp : 0 < p.toNat) (hle : p.toNat ≤ half m) :
    delay (T + BitVec.ofNat _ (x + 1)) (T + BitVec.ofNat _ (x + p.toNat)) = p.toNat - 1 := by
  have hm := two_half m
  have hx : x + p.toNat = x + 1 + (p.toNat - 1) := by omega
  have ha : ahead (T + BitVec.ofNat _ (x + 1)) (T + BitVec.ofNat _ (x + p.toNat)) =
      p.toNat - 1 := by
    rw [hx, BitVec.ofNat_add (x + 1), ← BitVec.add_assoc, ahead_add_ofNat _ (by omega)]
  rw [delay_of_lt (by omega), ha]

/-- Where a timer is that is run `d` ticks after `T₀` and then every `p` ticks, when
`k` ticks have been started and it has been run `n` times. -/
inductive Periodic (t : Fin N) (T₀ : ULong m) (d p : Nat) (q : Queues m N) (c : Ctl N) (k : Nat) :
    Nat → Prop where
  | waiting {n : Nat} (hd : q.Due t (d + n * p - k)) (hk : k ≤ d + n * p)
      (he : q.expires t = T₀ + BitVec.ofNat _ (d + n * p)) : Periodic t T₀ d p q c k n
  | expiring {n : Nat} (hx : q.Expiring t) (hk : k = d + n * p + 1)
      (he : q.expires t = T₀ + BitVec.ofNat _ (d + n * p)) : Periodic t T₀ d p q c k n
  | running {n : Nat} (hp : ¬ q.Pending t) (hc : c = .callback t) (hk : k = d + n * p + 1)
      (he : q.expires t = T₀ + BitVec.ofNat _ (d + n * p)) : Periodic t T₀ d p q c k (n + 1)

section Step

variable {T₀ : ULong m} {d p k n : Nat} {c c' : Ctl N}

/-- A step that does not touch `t`. -/
theorem Periodic.frame (P : Periodic t T₀ d p q c k n) (hd : ∀ x, q.Due t x → q'.Due t x)
    (hx : q.Expiring t → q'.Expiring t) (hp : q'.Pending t → q.Pending t)
    (he : q'.expires t = q.expires t) (hc : c = .callback t → c' = .callback t ∨ q.Pending t) :
    Periodic t T₀ d p q' c' k n := by
  cases P with
  | waiting h hk hexp => exact .waiting (hd _ h) hk (he.trans hexp)
  | expiring h hk hexp => exact .expiring (hx h) hk (he.trans hexp)
  | running h hrun hk hexp =>
    rcases hc hrun with hc' | hpend
    · exact .running (fun h' => h (hp h')) hc' hk (he.trans hexp)
    · exact absurd hpend h

theorem Periodic.tick (P : Periodic t T₀ d p q .outer k n) (S : q.Sound false) :
    Periodic t T₀ d p q.startTick .inner (k + 1) n := by
  have he : q.startTick.expires t = q.expires t := by rw [Queues.expires_startTick]
  cases P with
  | waiting h hk hexp =>
    rcases Nat.eq_or_lt_of_le hk with hk | hk
    · rw [← hk, Nat.sub_self] at h
      exact .expiring ((Queues.expiring_startTick S).mpr h) (by rw [hk]) (he.trans hexp)
    · refine .waiting ((Queues.due_startTick S _).mpr ?_) hk (he.trans hexp)
      have hsub : d + n * p - (k + 1) + 1 = d + n * p - k := by omega
      rwa [hsub]
  | expiring h =>
    rw [Queues.Expiring, S.dead .workList rfl] at h
    cases h
  | running h hc => cases hc

/-- `t` is run when it is the first of the work list. -/
theorem Periodic.fire (P : Periodic t T₀ d p q .inner k n) (S : q.Sound true) {u : Fin N}
    {us : List (Fin N)} (hw : q.list .workList = u :: us) :
    Periodic t T₀ d p q.takeTimer.unlock (.callback u) k (if u = t then n + 1 else n) ∧
      (u = t → k = d + n * p + 1) := by
  have hu : q.Expiring u := by simp [Queues.Expiring, hw]
  rcases eq_or_ne u t with rfl | hut
  · rw [if_pos rfl]
    cases P with
    | waiting h => exact absurd h (S.not_due_of_expiring hu _)
    | expiring h hk hexp =>
      refine ⟨.running ?_ rfl hk hexp, fun _ => hk⟩
      rintro ⟨b, hb⟩
      exact ((Queues.mem_takeTimer hw S).mp hb).2 rfl
    | running h => exact absurd ⟨_, hu⟩ h
  · rw [if_neg hut]
    refine ⟨P.frame (fun x hx => (Queues.due_takeTimer q t x).mpr hx) ?_ ?_ rfl
      (fun hc => by cases hc), fun h => absurd h hut⟩
    · exact fun hm => (Queues.mem_takeTimer hw S).mpr ⟨hm, Ne.symm hut⟩
    · rintro ⟨b, hb⟩
      exact ⟨b, ((Queues.mem_takeTimer hw S).mp hb).1⟩

end Step

theorem getElem?_ticksFrom {T : ULong m} {k i : Nat} (h : i < k) :
    (ticksFrom T k)[i]? = some (T + BitVec.ofNat _ i) := by
  simp [ticksFrom, h]

/-- What a run has shown of a periodic timer that was armed at `T₀`. -/
def Scheduled (t : Fin N) (T₀ : ULong m) (d p : Nat) (q : Queues m N) (c : Ctl N)
    (ev : List (Event m N)) : Prop :=
  ∃ k n, iters ev = ticksFrom T₀ k ∧ q.timerJiffies = T₀ + BitVec.ofNat _ k ∧
    fireTicks t 0 ev = (List.range n).map (fun i => d + i * p + 1) ∧
    (∀ i < n, d + i * p < k) ∧ Periodic t T₀ d p q c k n

section Run

variable {T₀ p : ULong m} {d : Nat} {c c' : Ctl N} {a : Act m N}

theorem Scheduled.step (h : Scheduled t T₀ d p.toNat q c ev) (hp : 0 < p.toNat)
    (hle : p.toNat ≤ half m) (S : q.Sound c.working) (hs : q.Step c a q' c' ev')
    (ha : q.Rearms c t p a) : Scheduled t T₀ d p.toNat q' c' (ev ++ ev') := by
  obtain ⟨k, n, hi, hT, hf, hlt, P⟩ := h
  have hlen : (iters ev).length = k := by rw [hi, ticksFrom, List.length_map, List.length_range]
  have keep (hiters : iters ev' = []) (hfires : fireTicks t k ev' = [])
      (hTq : q'.timerJiffies = q.timerJiffies) (P : Periodic t T₀ d p.toNat q' c' k n) :
      Scheduled t T₀ d p.toNat q' c' (ev ++ ev') := by
    refine ⟨k, n, ?_, hTq.trans hT, ?_, hlt, P⟩
    · rw [iters_append, hi, hiters, List.append_nil]
    · rw [fireTicks_append, hlen, Nat.zero_add, hfires, List.append_nil, hf]
  cases hs with
  | @call _ cl ho hc =>
    obtain ⟨hTq, -, -⟩ := Queues.exec_frame (q := q) cl
    refine keep rfl rfl hTq ?_
    rcases eq_or_ne t cl.timer with ht | hne
    · obtain ⟨hrun, hnp, rfl⟩ := ha ht.symm
      cases P with
      | waiting h => exact absurd ((Queues.pending_iff S).mpr (.inr ⟨_, h⟩)) hnp
      | expiring h => exact absurd ⟨_, h⟩ hnp
      | @running n _ _ hk hexp =>
        -- the callback arms the timer for the next period
        have hnext : d + n * p.toNat + p.toNat = d + (n + 1) * p.toNat := by
          rw [Nat.add_mul, Nat.one_mul, Nat.add_assoc]
        have hnew : q.expires t + p = T₀ + BitVec.ofNat _ (d + (n + 1) * p.toNat) := by
          rw [hexp, add_ofNat_add, hnext]
        refine .waiting ((Queues.due_rearm _ _).mpr ?_) (by omega) ?_
        · rw [Queues.dueAs_self, hnew, hT, hk, ← hnext, delay_rearm T₀ p hp hle]
          omega
        · simp only [Queues.exec, Queues.rearm, Queues.expires_unlock, Queues.expires_store,
            Function.update_self, hnew]
    · exact P.frame (fun x hx => (Queues.due_exec_of_ne hne x).mpr hx)
        (Queues.expiring_exec_of_ne hne).mpr (Queues.pending_exec_of_ne hne).mp
        (Queues.expires_exec_of_ne hne) .inl
  | wake j =>
    exact keep rfl rfl rfl (P.frame (fun _ h => h) (fun h => h) (fun h => h) rfl fun hc => by cases hc)
  | iter hj =>
    refine ⟨k + 1, n, ?_, ?_, ?_, fun i hi => Nat.lt_succ_of_lt (hlt i hi), P.tick S⟩
    · rw [iters_append, hi, hT, ticksFrom, ticksFrom, List.range_succ, List.map_append]
      rfl
    · rw [Queues.timerJiffies_startTick, hT, add_ofNat_succ]
    · rw [fireTicks_append, hf]
      exact List.append_nil _
  | sleep hj =>
    exact keep rfl rfl rfl (P.frame (fun _ h => h) (fun h => h) (fun h => h) rfl fun hc => by cases hc)
  | drained hw =>
    exact keep rfl rfl rfl (P.frame (fun _ h => h) (fun h => h) (fun h => h) rfl fun hc => by cases hc)
  | @fire u us hw =>
    obtain ⟨P', hk⟩ := P.fire S hw
    rcases eq_or_ne u t with rfl | hut
    · rw [if_pos rfl] at P'
      refine ⟨k, n + 1, ?_, hT, ?_, fun i hi => ?_, P'⟩
      · rw [iters_append, hi]
        exact List.append_nil _
      · rw [fireTicks_append, hlen, Nat.zero_add, hf, List.range_succ, List.map_append]
        simp [fireTicks, hk rfl]
      · rcases Nat.lt_succ_iff_lt_or_eq.mp hi with hi | rfl
        · exact hlt i hi
        · exact (hk rfl).symm ▸ Nat.lt_succ_self _
    · rw [if_neg hut] at P'
      exact keep rfl (by simp [fireTicks, hut]) rfl P'
  | resume u =>
    refine keep rfl rfl rfl (P.frame (fun _ h => h) (fun h => h) (fun h => h) rfl fun hu => ?_)
    exact .inr (ha hu)

theorem Scheduled.run {as : List (Act m N)} (h0 : Scheduled t T₀ d p.toNat q s.ctl [])
    (hp : 0 < p.toNat) (hle : p.toNat ≤ half m) (H : s.Holds q)
    (hr : (wheel m N).run s as = some (s', ev)) (has : (wheel m N).Meets (Sys.Rearms t p) s as) :
    ∃ q', s'.Holds q' ∧ Scheduled t T₀ d p.toNat q' s'.ctl ev := by
  have hstart : ∃ q, s.Holds q ∧ Scheduled t T₀ d p.toNat q s.ctl [] := ⟨q, H, h0⟩
  refine Machine.run_induction_meets (Q := fun _ => True)
    (P := fun s ev => ∃ q, s.Holds q ∧ Scheduled t T₀ d p.toNat q s.ctl ev) hr has
    (fun _ _ => trivial) hstart ?_
  rintro s ev a s' ev' ha - ⟨q, H, hP⟩ hs
  obtain ⟨q', H', hq⟩ := step_refines H hs
  exact ⟨q', H', hP.step hp hle H.realizes.sound hq (H.rearms ha)⟩

end Run

/-- A tick that is past and was the turn of the timer has run it, except for the one
whose work list is being run. -/
theorem Periodic.lt_of_lt {T₀ : ULong m} {d p k n : Nat} {c : Ctl N}
    (P : Periodic t T₀ d p q c k n) (S : q.Sound c.working) (hc : c.working = false) {i : Nat}
    (hi : d + i * p < k) : i < n := by
  rw [hc] at S
  cases P with
  | waiting h hk =>
    by_contra hn
    have hmul : n * p ≤ i * p := Nat.mul_le_mul_right p (Nat.not_lt.mp hn)
    omega
  | expiring h =>
    rw [Queues.Expiring, S.dead .workList rfl] at h
    cases h
  | running h hrun =>
    rw [hrun] at hc
    cases hc

/-! ## Whole runs -/

theorem scheduled_addTimer {E p : ULong m} {c : Ctl N} (q : Queues m N)
    (hE : 0 ≤ (E - q.timerJiffies).toInt) :
    Scheduled t q.timerJiffies (E - q.timerJiffies).toNat p.toNat (q.exec (.addTimer t E)).1 c
      [] := by
  have hlt := (toInt_sub_nonneg_iff q.timerJiffies E).mp hE
  refine ⟨0, 0, rfl, (BitVec.add_zero _).symm, rfl, fun i hi => absurd hi (Nat.not_lt_zero i),
    .waiting ?_ (Nat.zero_le _) ?_⟩
  · refine (Queues.due_rearm E E).mpr ?_
    rw [Queues.dueAs_self, delay_of_lt hlt, Nat.zero_mul]
    rfl
  · rw [Nat.zero_mul]
    simp only [Queues.exec, Queues.rearm, Queues.expires_unlock, Queues.expires_store,
      Function.update_self]
    exact (add_ahead q.timerJiffies E).symm

/-- A timer whose callback arms it for `expires + p` is run in tick `E`, counted from
the tick `T₀` at which it was first armed, then in tick `E + p`, and so on, and in no
other tick. -/
theorem periodic_timer_keeps_schedule {memory : Heap (Node N)} {setup : Fin N → TimerSetup m}
    {jiffies E p : ULong m} {ret : List (Event m N)} {as : List (Act m N)}
    (h : (wheel m N).Reachable (boot memory setup jiffies) s₀)
    (harm : s₀.step (.call (.addTimer t E)) = some (s₁, ret))
    (hE : 0 ≤ (E - s₀.world.base.timerJiffies).toInt) (hp : 0 < p.toNat) (hle : p.toNat ≤ half m)
    (hrun : (wheel m N).run s₁ as = some (s₂, ev))
    (has : (wheel m N).Meets (Sys.Rearms t p) s₁ as) :
    let T₀ := s₀.world.base.timerJiffies
    let d := (E - T₀).toNat
    ∃ k n, iters ev = ticksFrom T₀ k ∧
      fireTicks t 0 ev = (List.range n).map (fun i => d + i * p.toNat + 1) ∧
      (∀ i < n, d + i * p.toNat < k) ∧
      (s₂.ctl.working = false → ∀ i, d + i * p.toNat < k → i < n) := by
  obtain ⟨q₀, H₀, -⟩ := reachable_holds h
  obtain ⟨q₁, H₁, hstep⟩ := step_refines H₀ harm
  rw [H₀.realizes.timerJiffies] at hE ⊢
  have h0 : Scheduled t q₀.timerJiffies (E - q₀.timerJiffies).toNat p.toNat q₁ s₁.ctl [] :=
    hstep.call_inv.1 ▸ scheduled_addTimer q₀ hE
  obtain ⟨q₂, H₂, k, n, hi, -, hf, hlt, P⟩ := h0.run hp hle H₁ hrun has
  exact ⟨k, n, hi, hf, hlt, fun hc i => P.lt_of_lt H₂.realizes.sound hc⟩

/-- Two periods of two ticks. -/
theorem periodic_timer_keeps_schedule_test1 :
    ∃ (s₁ s₂ : Sys .long32 1) (ev ret : List (Event .long32 1)),
      (boot (fun _ => ⟨.null, .null⟩) (fun _ => ⟨0, 1, 2⟩) 62 : Sys .long32 1).step
        (.call (.addTimer 0 63)) = some (s₁, ret) ∧
      (wheel .long32 1).run s₁ [.wake 66, .run, .run, .run, .run, .call (.addTimer 0 65), .run,
        .run, .run, .run, .run, .run, .call (.addTimer 0 67), .run, .run, .run, .run, .run] =
          some (s₂, ev) ∧
      fireTicks 0 0 ev = [2, 4] ∧ ∃ k n, iters ev = ticksFrom 62 k ∧
        fireTicks 0 0 ev = (List.range n).map (fun i => 1 + i * 2 + 1) ∧
        (∀ i < n, 1 + i * 2 < k) ∧ ∀ i, 1 + i * 2 < k → i < n := by
  obtain ⟨s₀, hs₀⟩ : ∃ s₀ : Sys .long32 1,
      s₀ = boot (fun _ => ⟨.null, .null⟩) (fun _ => ⟨0, 1, 2⟩) 62 := ⟨_, rfl⟩
  have hreach : (wheel .long32 1).Reachable (boot (fun _ => ⟨.null, .null⟩) (fun _ => ⟨0, 1, 2⟩) 62)
      s₀ := hs₀ ▸ .refl _
  let as : List (Act .long32 1) := [.wake 66, .run, .run, .run, .run, .call (.addTimer 0 65), .run,
    .run, .run, .run, .run, .run, .call (.addTimer 0 67), .run, .run, .run, .run, .run]
  have h : (s₀.step (.call (.addTimer 0 63))).bind (fun p => ((wheel .long32 1).run p.1 as).map
      fun q => (decide ((wheel .long32 1).Meets (Sys.Rearms 0 2) p.1 as), q.1.ctl,
        fireTicks 0 0 q.2)) = some (true, .idle, [2, 4]) := by
    rw [hs₀]
    decide +kernel
  have hT : s₀.world.base.timerJiffies = 62 := by
    rw [hs₀]
    decide +kernel
  obtain ⟨⟨s₁, ret⟩, harm, h⟩ := Option.bind_eq_some_iff.mp h
  obtain ⟨⟨s₂, ev⟩, hrun, h⟩ := Option.map_eq_some_iff.mp h
  simp only [Prod.mk.injEq, decide_eq_true_eq] at h
  obtain ⟨has, hidle, hf⟩ := h
  obtain ⟨k, n, hi, hn, hlt, hall⟩ := periodic_timer_keeps_schedule hreach harm
    (by rw [hT]; decide) (by decide) (by decide) hrun has
  rw [hT] at hi hn hlt hall
  exact ⟨s₁, s₂, ev, ret, hs₀ ▸ harm, hrun, hf, k, n, hi, hn, hlt, hall (by rw [hidle]; rfl)⟩

/-- The ticks in which a timer on schedule is run. -/
theorem ticks_of_fireTicks {T : ULong m} {d p k n : Nat} (hi : iters ev = ticksFrom T k)
    (hf : fireTicks t 0 ev = (List.range n).map fun i => d + i * p + 1)
    (hlt : ∀ i < n, d + i * p < k) :
    (fireTicks t 0 ev).map (fun k => (iters ev)[k - 1]?) =
      (List.range n).map fun i => some (T + BitVec.ofNat _ (d + i * p)) := by
  rw [hf, List.map_map]
  refine List.map_congr_left fun i hm => ?_
  have hk := hlt i (List.mem_range.mp hm)
  rw [Function.comp_apply, Nat.add_sub_cancel, hi, getElem?_ticksFrom hk]

/-- After a pass that found the clock at `now`, the timer has been run once for each
of `E`, `E + p`, .. up to `now`, in these ticks. -/
theorem periodic_timer_catches_up {memory : Heap (Node N)} {setup : Fin N → TimerSetup m}
    {c : Reading m} {rs rs' : List (Reading m)} {bs as : List (Act m N)} {E p : ULong m}
    {ret : List (Event m N)}
    (hboot : (wheel m N).run (boot memory setup (timeToJiffies c.toTimespec)) bs = some (s₀, ev'))
    (hclock : OnClock c rs bs) (harm : s₀.step (.call (.addTimer t E)) = some (s₁, ret))
    (hE : 0 ≤ (E - s₀.world.base.timerJiffies).toInt) (hp : 0 < p.toNat) (hle : p.toNat ≤ half m)
    (hrun : (wheel m N).run s₁ as = some (s₂, ev)) (hclock' : OnClock (rs.getLastD c) rs' as)
    (has : (wheel m N).Meets (Sys.Rearms t p) s₁ as) (hidle : s₂.ctl = .idle)
    (hwoken : rs ++ rs' ≠ []) :
    let now := (rs'.getLastD (rs.getLastD c)).jiffy
    let runs := (now + p.toNat - E.toNat) / p.toNat
    (fireTicks t 0 ev).length = runs ∧
      (fireTicks t 0 ev).map (fun k => (iters ev)[k - 1]?) =
        (List.range runs).map fun i => some (E + BitVec.ofNat _ (i * p.toNat)) := by
  have H := boot_holds memory setup (timeToJiffies c.toTimespec)
  obtain ⟨q₀, H₀, C₀, -⟩ :=
    (clocked_boot setup (hclock.period c List.mem_cons_self)).run H hclock hboot
  have hlast := hclock.period _ (List.getLastD_mem_cons (l := rs) (a := c))
  obtain ⟨q₁, H₁, hstep⟩ := step_refines H₀ harm
  obtain ⟨C₁, -⟩ := C₀.step hlast hstep trivial
  obtain ⟨q₂, H₂, C₂, k, hk, hTk⟩ := C₁.run H₁ hclock' hrun
  rw [H₀.realizes.timerJiffies] at hE
  intro now runs
  have hq₁ := hstep.call_inv.1
  have h0 : Scheduled t q₀.timerJiffies (E - q₀.timerJiffies).toNat p.toNat q₁ s₁.ctl [] :=
    hq₁ ▸ scheduled_addTimer q₀ hE
  obtain ⟨q₂', H₂', k', n, hi, -, hf, hlt, P⟩ := h0.run hp hle H₁ hrun has
  have hlen : k = k' := by
    have hl := congrArg List.length hk
    rw [List.length_map, hi, ticksFrom, List.length_map, List.length_range,
      List.length_range'] at hl
    exact hl.symm
  have hwoken : (False ∨ rs ≠ []) ∨ rs' ≠ [] := by
    by_contra hn
    simp only [false_or, ne_eq, not_or, not_not] at hn
    exact hwoken (by rw [hn.1, hn.2]; rfl)
  have hT₁ : q₁.timerJiffies = q₀.timerJiffies := by
    rw [hq₁]
    rfl
  have hend := C₂.idle hwoken hidle
  have hm := two_half m
  have hbase : q₀.timerJiffies.toNat ≤ half m := C₀.le.trans (Reading.jiffy_lt_half _ hlast)
  have hahead := (toInt_sub_nonneg_iff q₀.timerJiffies E).mp hE
  have hEd : E.toNat = q₀.timerJiffies.toNat + (E - q₀.timerJiffies).toNat := by
    rw [toNat_of_ahead q₀.timerJiffies E]
    exact Nat.mod_eq_of_lt (by rw [ahead] at *; omega)
  have hiff (i : Nat) : i < n ↔ i < runs := by
    have hiter : i < n ↔ (E - q₀.timerJiffies).toNat + i * p.toNat < k :=
      ⟨fun hi => hlen ▸ hlt i hi, fun hi => P.lt_of_lt H₂'.realizes.sound (by rw [hidle]; rfl)
        (hlen ▸ hi)⟩
    have hdiv : i < runs ↔ (i + 1) * p.toNat ≤ now + p.toNat - E.toNat := Nat.le_div_iff_mul_le hp
    rw [hT₁] at hTk
    rw [hiter, hdiv, Nat.add_mul, Nat.one_mul]
    omega
  obtain rfl : n = runs := eq_of_forall_lt_iff hiff
  refine ⟨by rw [hf, List.length_map, List.length_range], ?_⟩
  rw [ticks_of_fireTicks hi hf hlt]
  have hE' : q₀.timerJiffies + BitVec.ofNat _ (E - q₀.timerJiffies).toNat = E :=
    add_ahead q₀.timerJiffies E
  simp only [BitVec.ofNat_add, ← BitVec.add_assoc, hE']

/-- The worker wakes up once, five ticks late. -/
theorem periodic_timer_catches_up_test1 :
    ∃ (r : Reading .long32) (s₁ s₂ : Sys .long32 1) (ev ret : List (Event .long32 1)),
      r.toTimespec = ⟨0, 50000000⟩ ∧
      (boot (fun _ => ⟨.null, .null⟩) (fun _ => ⟨0, 1, 2⟩) 0 : Sys .long32 1).step
        (.call (.addTimer 0 2)) = some (s₁, ret) ∧
      (wheel .long32 1).run s₁ [.wake (timeToJiffies r.toTimespec), .run, .run, .run, .run, .run,
        .run, .call (.addTimer 0 4), .run, .run, .run, .run, .run, .run, .call (.addTimer 0 6),
        .run, .run, .run, .run, .run] = some (s₂, ev) ∧
      s₂.world.jiffies = 5 ∧ (fireTicks 0 0 ev).length = (5 + 2 - 2) / 2 ∧
      (fireTicks 0 0 ev).map (fun k => (iters ev)[k - 1]?) = [some 2, some 4] := by
  let c : Reading .long32 := ⟨⟨0, 0⟩, by decide, by decide, by decide⟩
  let r : Reading .long32 := ⟨⟨0, 50000000⟩, by decide, by decide, by decide⟩
  obtain ⟨s₀, hs₀⟩ : ∃ s₀ : Sys .long32 1,
      s₀ = boot (fun _ => ⟨.null, .null⟩) (fun _ => ⟨0, 1, 2⟩) 0 := ⟨_, rfl⟩
  let as : List (Act .long32 1) := [.wake (timeToJiffies r.toTimespec), .run, .run, .run, .run, .run,
    .run, .call (.addTimer 0 4), .run, .run, .run, .run, .run, .run, .call (.addTimer 0 6), .run,
    .run, .run, .run, .run]
  have h : (s₀.step (.call (.addTimer 0 2))).bind (fun p => ((wheel .long32 1).run p.1 as).map
      fun q => (decide ((wheel .long32 1).Meets (Sys.Rearms 0 2) p.1 as), q.1.ctl,
        q.1.world.jiffies)) = some (true, .idle, 5) := by
    rw [hs₀]
    decide +kernel
  have hT : s₀.world.base.timerJiffies = 0 := by
    rw [hs₀]
    decide +kernel
  obtain ⟨⟨s₁, ret⟩, harm, h⟩ := Option.bind_eq_some_iff.mp h
  obtain ⟨⟨s₂, ev⟩, hrun, h⟩ := Option.map_eq_some_iff.mp h
  simp only [Prod.mk.injEq, decide_eq_true_eq] at h
  obtain ⟨has, hidle, hj⟩ := h
  have hclock : OnClock c [] ([] : List (Act .long32 1)) := ⟨rfl, by simp, by decide⟩
  have hclock' : OnClock c [r] as := ⟨rfl, by decide, by decide⟩
  have hboot : (wheel .long32 1).run (boot (fun _ => ⟨.null, .null⟩) (fun _ => ⟨0, 1, 2⟩)
      (timeToJiffies c.toTimespec)) [] = some (s₀, []) := by
    have hc : timeToJiffies c.toTimespec = 0 := by decide +kernel
    rw [hs₀, hc]
    rfl
  obtain ⟨hlen, hticks⟩ := periodic_timer_catches_up (t := 0) (p := 2) hboot hclock harm
    (by rw [hT]; decide) (by decide) (by decide) hrun hclock' has hidle (by simp)
  exact ⟨r, s₁, s₂, ev, ret, rfl, hs₀ ▸ harm, hrun, hj, hlen.trans (by decide),
    hticks.trans (by decide +kernel)⟩

/-! ## `mod_timer` from the callback -/

theorem noIter_iff {ev : List (Event m N)} : NoIter ev ↔ iters ev = [] := by
  simp only [NoIter, iters, List.filterMap_eq_nil_iff]
  constructor
  · intro h e he
    cases e with
    | iter T => exact absurd he (h T)
    | fire | ret => rfl
  · intro h T hm
    cases h _ hm

section Fired

variable {pre mid : List (Event m N)} {tick : ULong m} {fn : Nat} {data : ULong m}

/-- The ticks of a run in which the timer is run once. -/
theorem iters_fired (hm : NoIter mid) (post : List (Event m N)) :
    iters (pre ++ .iter tick :: mid ++ .fire t fn data :: post) =
      iters pre ++ tick :: iters post := by
  rw [iters_append, iters_append, iters_iter, noIter_iff.mp hm, List.append_assoc]
  rfl

theorem fireTicks_fired {post : List (Event m N)} (hm : NoIter mid) (hf : NoFire t pre)
    (hfm : NoFire t mid) (hfp : NoFire t post) :
    fireTicks t 0 (pre ++ .iter tick :: mid ++ .fire t fn data :: post) =
      [(iters pre).length + 1] := by
  have hnf : NoFire t (pre ++ .iter tick :: mid) := by simp [hf, hfm]
  have hlen : (iters (pre ++ .iter tick :: mid)).length = (iters pre).length + 1 := by
    rw [iters_append, iters_iter, noIter_iff.mp hm, List.length_append]
    rfl
  rw [fireTicks_append, fireTicks_of_noFire hnf, hlen, fireTicks, if_pos rfl,
    fireTicks_of_noFire hfp, Nat.zero_add]
  rfl

end Fired

end Uki
