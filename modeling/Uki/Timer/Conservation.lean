import Uki.Timer.Agenda

/-!
# Timers are neither lost nor duplicated, and inactive ones stay inactive

* `pending_timers_conserved`: in every reachable state all lists are rings, a
  timer is pending exactly when it is in one of them, and no step but `add_timer`
  on a pending timer fails. Inside an outer iteration this also holds whenever
  `cascade` has taken a bucket over, and it holds at every turn of its loop, with
  the timers it has yet to file.
* `cascade_empties_bucket`: `cascade` visits the timers of the bucket in their order
  and leaves every one at the end of the bucket for its expiry. All this is said of
  the pointers, for any lists that `Conserved` allows.
* `inactive_timer_stays_inactive`: a timer that is not pending is left alone by
  everything but `add_timer` and `mod_timer` on it.
-/

namespace Uki

variable {m : LongModel} {N : Nat} {working : Bool} {w : World m N} {q : Queues m N}
  {s s' : Sys m N} {t : Fin N}

/-! ## Conservation -/

/-- The lists in memory are rings through the timers `list` gives them, no timer
is in two places, and the pending timers are those in a list or in `rest`. -/
structure Conserved (w : World m N) (live : Head → Bool) (rest : List (Fin N))
    (list : Head → List (Fin N)) : Prop where
  rings : Represents w.heap (ringHeads live list)
  inLive : ∀ b t, t ∈ list b → live b = true
  nodup : ∀ b, (list b).Nodup
  apart : ∀ t ∈ rest, ∀ b, t ∉ list b
  pending : ∀ t, timerPending w t = true ↔ (∃! b, t ∈ list b) ∨ t ∈ rest

/-- `next` leads from the head of `b` through `ts` and back. -/
def World.Reads (w : World m N) (b : Head) (ts : List (Fin N)) : Prop :=
  (Node.head b :: ts.map Node.entry ++ [Node.head b]).IsChain fun x y => w.heap.next x = Ptr.to y

instance (w : World m N) (b : Head) (ts : List (Fin N)) : Decidable (w.Reads b ts) :=
  inferInstanceAs (Decidable (List.IsChain _ _))

theorem Conserved.list_eq {live : Head → Bool} {rest : List (Fin N)} {list : Head → List (Fin N)}
    (C : Conserved w live rest list) {b : Head} (hb : live b = true) {ts : List (Fin N)}
    (h : w.Reads b ts) : list b = ts := by
  have hring := C.rings.ring _ _ (ringHeads_head list hb)
  have hchain := hring.chain.imp (S := fun x y => w.heap.next x = Ptr.to y) fun _ _ hl => hl.1
  have hmap := LinkRing.chain_unique (fun x y z hy hz => Ptr.to.inj (hy.symm.trans hz)) hchain h
    (by simp) (by simp)
  exact List.map_injective_iff.mpr (fun _ _ he => Node.entry.inj he) hmap

/-- Rings, and marks in the timers that are in none of them. -/
theorem Conserved.of_rings {live : Head → Bool} {list : Head → List (Fin N)}
    (R : Represents w.heap (ringHeads live list)) (hl : ∀ b t, t ∈ list b → live b = true)
    (hnull : ∀ t, (∀ b, t ∉ list b) → timerPending w t = false) : Conserved w live [] list where
  rings := R
  inLive := hl
  nodup b := by
    cases hb : live b with
    | true => exact ringHeads_nodup R hb
    | false =>
      have hnil : list b = [] := List.eq_nil_iff_forall_not_mem.mpr fun t hm => by
        rw [hl b t hm] at hb
        cases hb
      rw [hnil]
      exact List.nodup_nil
  apart _ ht := absurd ht (by simp)
  pending t := by
    constructor
    · intro hp
      by_contra hn
      have hno (b : Head) : t ∉ list b := fun hm => hn (.inl ⟨b, hm, fun b' hm' =>
        ringHeads_unique R (hl b' t hm') (hl b t hm) hm' hm⟩)
      rw [hnull t hno] at hp
      cases hp
    · rintro (⟨b, hm, -⟩ | h)
      · obtain ⟨n, hn⟩ := ringHeads_next R (hl b t hm) hm
        simp [timerPending, hn]
      · cases h

theorem Realizes.conserved (R : Realizes working [] w q) :
    Conserved w (Head.live working) [] q.list :=
  .of_rings R.rings (fun _ _ hm => R.live_of_mem hm) fun _ ht =>
    R.timerPending_eq_false (not_exists.mpr ht)

/-! ### Inside an outer iteration -/

/-- The states at the tests of the loop of `cascade`, each with its `timer`. -/
def cascadeTurns : Nat → World m N → Node N → Node N → List (World m N × Node N)
  | 0, _, _, _ => []
  | fuel + 1, w, timer, tmp =>
    (w, timer) ::
      match timer with
      | .head _ => []
      | .entry t =>
        match internalAddTimer w t with
        | none => []
        | some w =>
          match (w.heap.next tmp).deref with
          | none => []
          | some next => cascadeTurns fuel w tmp next

/-- The states in which the condition chain of `__run_timers` calls `cascade`,
each with the bucket it is called for, from `vecs` on. -/
def cascadesFrom : World m N → List (Tv × Nat) → List (World m N × Tv × Nat)
  | _, [] => []
  | w, (tv, n) :: vecs =>
    (w, tv, wheelIndex w n) ::
      match cascade w tv (wheelIndex w n) with
      | some (w, 0) => cascadesFrom w vecs
      | _ => []

def cascades (w : World m N) : List (World m N × Tv × Nat) :=
  if (w.base.timerJiffies &&& BitVec.ofNat _ TVR_MASK).toNat = 0 then
    cascadesFrom w [(.tv2, 0), (.tv3, 1), (.tv4, 2), (.tv5, 3)]
  else
    []

theorem realizes_cascadesFrom (R : Realizes false [] w q) {vecs : List (Tv × Nat)}
    (hv : ∀ v ∈ vecs, v.1.size = 16) {c : World m N × Tv × Nat} (hc : c ∈ cascadesFrom w vecs) :
    ∃ q', Realizes false [] c.1 q' ∧ c.2.2 < c.2.1.size := by
  induction vecs generalizing w q with
  | nil => cases hc
  | cons v vecs ih =>
    obtain ⟨tv, n⟩ := v
    have hi : wheelIndex w n < tv.size := by
      have h16 : tv.size = 16 := hv _ List.mem_cons_self
      rw [h16, wheelIndex, toNat_and_TVN_MASK]
      omega
    rw [cascadesFrom, List.mem_cons] at hc
    rcases hc with rfl | hc
    · exact ⟨q, R, hi⟩
    · obtain ⟨w', hw', R'⟩ := cascade_spec R hi
      rw [hw'] at hc
      split at hc
      · next hw =>
        simp only [Option.some.injEq, Prod.mk.injEq] at hw
        obtain ⟨rfl, -⟩ := hw
        exact ih R' (fun v hm => hv v (List.mem_cons_of_mem _ hm)) hc
      · cases hc

theorem realizes_cascades (R : Realizes false [] w q) {c : World m N × Tv × Nat}
    (hc : c ∈ cascades w) : ∃ q', Realizes false [] c.1 q' ∧ c.2.2 < c.2.1.size := by
  rw [cascades] at hc
  split at hc
  · exact realizes_cascadesFrom R (by simp [Tv.size, TVN_SIZE, TVN_BITS]) hc
  · cases hc

theorem Draining.conserved {ts : List (Fin N)} {timer tmp : Node N}
    (D : Draining working w q ts timer tmp) :
    Conserved w (Head.live working) ts q.list where
  rings := D.realizes.rings
  inLive _ _ hm := D.realizes.live_of_mem hm
  nodup := D.realizes.nodup
  apart t ht b hm := D.fresh t ht ⟨b, hm⟩
  pending t := by
    simp only [timerPending, bne_iff_ne, ne_eq]
    constructor
    · intro hn
      by_cases ht : t ∈ ts
      · exact .inr ht
      · left
        by_contra hu
        refine hn (D.realizes.null t ht ?_)
        rintro ⟨b, hm⟩
        exact hu ⟨b, hm, fun b' hm' => D.realizes.unique hm' hm⟩
    · rintro (⟨b, hm, -⟩ | ht)
      · obtain ⟨n, hn⟩ := D.realizes.next_ne_null hm
        simp [hn]
      · obtain ⟨A, B, hAB⟩ := List.append_of_mem ht
        have hc := D.remaining.1
        rw [hAB, route, List.map_append, List.map_cons, List.append_assoc] at hc
        have hc := (List.isChain_append.mp hc).2.1
        obtain ⟨n, hn⟩ : ∃ n, w.heap.next (.entry t) = .to n := by
          cases B with
          | nil => exact ⟨_, (List.isChain_cons_cons.mp hc).1⟩
          | cons u B => exact ⟨_, (List.isChain_cons_cons.mp hc).1⟩
        simp [hn]

theorem Draining.turns {ts : List (Fin N)} {fuel : Nat} {timer tmp : Node N}
    (D : Draining working w q ts timer tmp) {p : World m N × Node N}
    (hp : p ∈ cascadeTurns fuel w timer tmp) :
    ∃ list rest, Conserved p.1 (Head.live working) rest list ∧ Remaining p.1.heap rest ∧
      (route rest).head? = some p.2 := by
  induction fuel generalizing w q ts timer tmp with
  | zero => cases hp
  | succ fuel ih =>
    have here : ∃ list rest, Conserved w (Head.live working) rest list ∧ Remaining w.heap rest ∧
        (route rest).head? = some timer := ⟨q.list, ts, D.conserved, D.remaining, D.head⟩
    cases ts with
    | nil =>
      cases D.head
      simp only [cascadeTurns, List.mem_singleton] at hp
      exact hp ▸ here
    | cons t ts =>
      obtain ⟨rfl, k, next, hk, hnext, D'⟩ := D.step
      simp only [cascadeTurns, hk, List.mem_cons] at hp
      simp only [World.setHeap, hnext, Ptr.deref_to] at hp
      rcases hp with rfl | hp
      · exact here
      · exact ih D' hp

/-- `tv_list`, filled from a bucket, is a ring next to all the others. -/
theorem cascade_take_conserved (R : Realizes false [] w q) {tv : Tv} {i : Nat} (hi : i < tv.size) :
    ∃ h timer tmp list, listReplaceInit w.heap (.head (.vec tv i)) (.head .tvList) = some h ∧
      h.next (.head .tvList) = .to timer ∧ h.next timer = .to tmp ∧
      Conserved (w.setHeap h) (fun b => b = .tvList || Head.live false b) [] list ∧
      ∀ p ∈ cascadeTurns (N + 1) (w.setHeap h) timer tmp, ∃ list rest,
        Conserved p.1 (Head.live false) rest list ∧ Remaining p.1.heap rest ∧
          (route rest).head? = some p.2 := by
  obtain ⟨h, timer, tmp, hh, hfirst, htmp, D⟩ := cascade_draining R hi
  obtain ⟨h', hh', R', -⟩ := cascade_take R hi
  cases hh.symm.trans hh'
  have C := D.conserved
  have hnone (u : Fin N) : u ∉ (q.setList (.vec tv i) []).list .tvList := fun hm => by
    have := C.inLive _ _ hm
    cases this
  let list := Function.update (q.setList (.vec tv i) []).list .tvList (q.list (.vec tv i))
  refine ⟨h, timer, tmp, list, hh, hfirst, htmp, ⟨?_, ?_, ?_, by simp, fun u => ?_⟩,
    fun p hp => D.turns hp⟩
  · have hl : ringHeads (fun b => b = .tvList || Head.live false b) list =
        (ringHeads (Head.live false) (q.setList (.vec tv i) []).list).set (.head .tvList)
          (some ((q.list (.vec tv i)).map .entry)) := by
      funext n
      cases n with
      | entry t => simp [ringHeads, Heads.set]
      | head b => by_cases hb : b = .tvList <;> simp [ringHeads, Heads.set, list, hb]
    rw [hl]
    exact R'
  · intro b u hm
    by_cases hb : b = .tvList
    · simp [hb]
    · have hm : u ∈ (q.setList (.vec tv i) []).list b := by simpa [list, hb] using hm
      simp [C.inLive b u hm]
  · intro b
    by_cases hb : b = .tvList
    · simpa [list, hb] using D.nodup
    · simpa [list, hb] using C.nodup b
  · rw [C.pending]
    simp only [List.not_mem_nil, or_false]
    constructor
    · rintro (⟨b, hm, hu⟩ | hm)
      · have hb : b ≠ .tvList := by
          rintro rfl
          exact hnone u hm
        refine ⟨b, by simpa [list, hb] using hm, fun b' hm' => ?_⟩
        by_cases hb' : b' = .tvList
        · have hm' : u ∈ q.list (.vec tv i) := by simpa [list, hb'] using hm'
          exact absurd hm (C.apart u hm' b)
        · exact hu b' (by simpa [list, hb'] using hm')
      · refine ⟨.tvList, by simpa [list] using hm, fun b' hm' => ?_⟩
        by_contra hb'
        exact C.apart u hm b' (by simpa [list, hb'] using hm')
    · rintro ⟨b, hm, -⟩
      by_cases hb : b = .tvList
      · exact .inr (by simpa [list, hb] using hm)
      · have hm : u ∈ (q.setList (.vec tv i) []).list b := by simpa [list, hb] using hm
        exact .inl ⟨b, hm, fun b' hm' => D.realizes.unique hm' hm⟩

/-- The steps that the program may ask for: `BUG_ON` forbids `add_timer` on a
pending timer. -/
def Sys.Allows (s : Sys m N) : Act m N → Prop
  | .call c => s.ctl.open = true ∧ ∀ t e, c = .addTimer t e → timerPending s.world t = false
  | .wake _ => s.ctl = .idle
  | .run => s.ctl ≠ .idle

/-- Nothing else fails. -/
theorem exists_step_of_allows (H : s.Holds q) {a : Act m N} (ha : s.Allows a) :
    ∃ s' ev, s.step a = some (s', ev) := by
  have go {q' : Queues m N} {c : Ctl N} {ev : List (Event m N)} (h : q.Step s.ctl a q' c ev) :
      ∃ s' ev, s.step a = some (s', ev) := by
    obtain ⟨w', hw', -⟩ := step_of_queues H h
    exact ⟨_, _, hw'⟩
  have step_cast {c : Ctl N} (hc : s.ctl = c) {a' : Act m N} (haa : a = a') {q' : Queues m N}
      {c' : Ctl N} {ev : List (Event m N)} (h : q.Step c a' q' c' ev) : q.Step s.ctl a q' c' ev := by
    subst hc haa
    exact h
  cases a with
  | call c =>
    refine go (.call ha.1 ?_)
    cases c with
    | addTimer t e =>
      have hp : ¬ timerPending s.world t = true := by simp [ha.2 t e rfl]
      exact fun h => hp (H.realizes.timerPending_iff.mpr h)
    | modTimer | modTimerPending | delTimer => trivial
  | wake j => exact go (step_cast ha rfl (.wake j))
  | run =>
    cases hc : s.ctl with
    | idle => exact absurd hc ha
    | outer =>
      cases hj : timeAfterEq q.jiffies q.timerJiffies with
      | true => exact go (step_cast hc rfl (.iter hj))
      | false => exact go (step_cast hc rfl (.sleep hj))
    | inner =>
      cases hw : q.list .workList with
      | nil => exact go (step_cast hc rfl (.drained hw))
      | cons t ts => exact go (step_cast hc rfl (.fire hw))
    | callback t => exact go (step_cast hc rfl (.resume t))

theorem pending_timers_conserved {memory : Heap (Node N)} {setup : Fin N → TimerSetup m}
    {jiffies : ULong m} (h : (wheel m N).Reachable (boot memory setup jiffies) s) :
    (∃ list, Conserved s.world (Head.live s.ctl.working) [] list) ∧
    (s.ctl = .outer → ∀ w tv i, (w, tv, i) ∈ cascades s.world →
      ∃ h timer tmp list, listReplaceInit w.heap (.head (.vec tv i)) (.head .tvList) = some h ∧
        h.next (.head .tvList) = .to timer ∧ h.next timer = .to tmp ∧
        Conserved (w.setHeap h) (fun b => b = .tvList || Head.live false b) [] list ∧
        ∀ p ∈ cascadeTurns (N + 1) (w.setHeap h) timer tmp, ∃ list rest,
          Conserved p.1 (Head.live false) rest list ∧ Remaining p.1.heap rest ∧
            (route rest).head? = some p.2) ∧
    ∀ a, s.Allows a → ∃ s' ev, s.step a = some (s', ev) := by
  obtain ⟨q, H, -⟩ := reachable_holds h
  refine ⟨⟨q.list, H.realizes.conserved⟩, fun hc w tv i hm => ?_,
    fun a ha => exists_step_of_allows H ha⟩
  have R := H.realizes
  rw [hc] at R
  obtain ⟨q', R', hi⟩ := realizes_cascades R hm
  exact cascade_take_conserved R' hi

/-- Two timers wait in one bucket of the second level and a third one on the first level
while the worker is about to process tick 64. -/
theorem pending_timers_conserved_test1 :
    ∃ (s : Sys .long32 3) (ev : List (Event .long32 3)) (list : Head → List (Fin 3)),
      (wheel .long32 3).run (boot (fun _ => ⟨.null, .null⟩) (fun _ => ⟨0, 1, 2⟩) 64)
        [.call (.addTimer 0 151), .call (.addTimer 2 70), .call (.addTimer 1 150), .wake 64] =
          some (s, ev) ∧
      s.ctl = .outer ∧ Conserved s.world (Head.live false) [] list ∧
      list (.vec .tv2 2) = [0, 1] ∧ list (.vec .tv1 6) = [2] ∧
      ∀ t, timerPending s.world t = true := by
  have h : (((wheel .long32 3).run (boot (fun _ => ⟨.null, .null⟩) (fun _ => ⟨0, 1, 2⟩) 64)
      [.call (.addTimer 0 151), .call (.addTimer 2 70), .call (.addTimer 1 150),
        .wake 64]).map fun p => (p.1.ctl, decide (∀ t, timerPending p.1.world t = true),
          decide (p.1.world.Reads (.vec .tv2 2) [0, 1] ∧ p.1.world.Reads (.vec .tv1 6) [2]))) =
      some (.outer, true, true) := by
    decide +kernel
  obtain ⟨⟨s, ev⟩, hr, hs⟩ := Option.map_eq_some_iff.mp h
  simp only [Prod.mk.injEq, decide_eq_true_eq] at hs
  obtain ⟨hc, hp, hl₂, hl₁⟩ := hs
  obtain ⟨list, C⟩ := (pending_timers_conserved ⟨_, _, hr⟩).1
  rw [hc] at C
  exact ⟨s, ev, list, hr, hc, C, C.list_eq rfl hl₂, C.list_eq rfl hl₁, hp⟩

/-! ## One call of `cascade` -/

/-- The loop ends in the state of its last test. -/
theorem getLast?_cascadeTurns {fuel : Nat} {w w' : World m N} {timer tmp : Node N}
    (h : cascadeLoop fuel w timer tmp = some w') :
    (cascadeTurns fuel w timer tmp).getLast? = some (w', .head .tvList) := by
  induction fuel generalizing w timer tmp with
  | zero => cases h
  | succ fuel ih =>
    cases timer with
    | head b =>
      simp only [cascadeLoop, Option.ite_none_right_eq_some, Option.some.injEq] at h
      obtain ⟨rfl, rfl⟩ := h
      rfl
    | entry t =>
      simp only [cascadeLoop, Option.bind_eq_bind, Option.bind_eq_some_iff] at h
      obtain ⟨w₁, hw₁, next, hnext, h⟩ := h
      have hlast := ih h
      simp only [cascadeTurns, hw₁, hnext]
      rw [List.getLast?_cons, hlast]
      rfl

/-- The loop visits the timers in order, then the head. -/
theorem Refiling.route_eq {list : Head → List (Fin N)} {ts : List (Fin N)} {fuel : Nat}
    {timer tmp : Node N} (F : Refiling working w list ts timer tmp) (hfuel : ts.length < fuel) :
    (cascadeTurns fuel w timer tmp).map Prod.snd = route ts := by
  induction ts generalizing w list fuel timer tmp with
  | nil =>
    cases F.head
    cases fuel with
    | zero => cases hfuel
    | succ fuel => rfl
  | cons t ts ih =>
    cases fuel with
    | zero => cases hfuel
    | succ fuel =>
      obtain ⟨rfl, k, next, hk, hnext, -, F'⟩ := F.step
      have hrest := ih F' (Nat.lt_of_succ_lt_succ hfuel)
      simp only [World.setHeap] at hrest
      simp only [cascadeTurns, hk, World.setHeap, hnext, Ptr.deref_to, List.map_cons, hrest]
      rfl

theorem cascade_empties_bucket {list : Head → List (Fin N)}
    (C : Conserved w (Head.live false) [] list) {tv : Tv} {i : Nat} (hi : i < tv.size) :
    ∃ h timer tmp k, listReplaceInit w.heap (.head (.vec tv i)) (.head .tvList) = some h ∧
      h.next (.head .tvList) = .to timer ∧ h.next timer = .to tmp ∧
      (cascadeTurns (N + 1) (w.setHeap h) timer tmp).map Prod.snd = route (list (.vec tv i)) ∧
      (cascadeTurns (N + 1) (w.setHeap h) timer tmp).getLast? =
        some (w.setHeap k, .head .tvList) ∧
      cascade w tv i = some (w.setHeap k, i) ∧
      Conserved (w.setHeap k) (Head.live false) [] (fun b =>
        (if b = .vec tv i then [] else list b) ++ (list (.vec tv i)).filter fun t =>
          internalAddVec w.base.timerJiffies (w.timer t).expires = b) ∧
      ∀ u, (∀ b, u ∉ list b) → k (.entry u) = w.heap (.entry u) := by
  obtain ⟨h, timer, tmp, k, hh, hfirst, htmp, F, hloop, hk, hkeep, R⟩ :=
    cascade_refiles C.rings C.inLive hi
  have hlist : w.refile (list (.vec tv i)) (Function.update list (.vec tv i) []) = fun b =>
      (if b = .vec tv i then [] else list b) ++ (list (.vec tv i)).filter fun t =>
        internalAddVec w.base.timerJiffies (w.timer t).expires = b := by
    funext b
    rw [World.refile, Function.update_apply]
    rfl
  refine ⟨h, timer, tmp, k, hh, hfirst, htmp, F.route_eq F.length_lt, getLast?_cascadeTurns hloop,
    hk, hlist ▸ .of_rings R (fun b t hm => ?_) fun t ht => ?_, hkeep⟩
  · rcases World.mem_refile.mp hm with hm | ⟨-, rfl⟩
    · rw [Function.update_apply] at hm
      split at hm
      · cases hm
      · exact C.inLive b t hm
    · exact w.live_file t
  · have hno : ∀ b, t ∉ list b := w.not_mem_of_refile _ ht
    have hnp : ¬ timerPending w t = true := fun hp => by
      rcases (C.pending t).mp hp with ⟨b, hm, -⟩ | hm
      · exact hno b hm
      · cases hm
    simpa only [timerPending, World.setHeap, Heap.next, hkeep t hno, Bool.not_eq_true] using hnp

/-- At tick 128 the two timers of a bucket go down to the first level in their order. A
third one stays in the next bucket. -/
theorem cascade_empties_bucket_test1 :
    ∃ (s : Sys .long32 3) (ev : List (Event .long32 3)) (list list' : Head → List (Fin 3))
      (h k : Heap (Node 3)) (timer tmp : Node 3),
      (wheel .long32 3).run (boot (fun _ => ⟨.null, .null⟩) (fun _ => ⟨0, 1, 2⟩) 64)
        ([.call (.addTimer 1 150), .call (.addTimer 2 200), .call (.addTimer 0 150), .wake 128] ++
          List.replicate 128 .run) = some (s, ev) ∧
      Conserved s.world (Head.live false) [] list ∧ list (.vec .tv2 2) = [1, 0] ∧
      list (.vec .tv2 3) = [2] ∧
      (cascadeTurns 4 (s.world.setHeap h) timer tmp).map Prod.snd =
        [.entry 1, .entry 0, .head .tvList] ∧
      cascade s.world .tv2 2 = some (s.world.setHeap k, 2) ∧
      Conserved (s.world.setHeap k) (Head.live false) [] list' ∧ list' (.vec .tv2 2) = [] ∧
      list' (.vec .tv1 22) = [1, 0] ∧ list' (.vec .tv2 3) = [2] := by
  have h : (((wheel .long32 3).run (boot (fun _ => ⟨.null, .null⟩) (fun _ => ⟨0, 1, 2⟩) 64)
      ([.call (.addTimer 1 150), .call (.addTimer 2 200), .call (.addTimer 0 150), .wake 128] ++
        List.replicate 128 .run)).map fun p => (p.1.ctl, p.1.world.base.timerJiffies,
          decide ((p.1.world.timer 0).expires = 150 ∧ (p.1.world.timer 1).expires = 150),
          decide (p.1.world.Reads (.vec .tv2 2) [1, 0] ∧ p.1.world.Reads (.vec .tv2 3) [2] ∧
            p.1.world.Reads (.vec .tv1 22) []))) = some (.outer, 128, true, true) := by
    decide +kernel
  obtain ⟨⟨s, ev⟩, hr, hs⟩ := Option.map_eq_some_iff.mp h
  simp only [Prod.mk.injEq, decide_eq_true_eq] at hs
  obtain ⟨hc, hT, ⟨he₀, he₁⟩, hl, hl₃, hl₁⟩ := hs
  obtain ⟨q, H, -⟩ := reachable_holds ⟨_, _, hr⟩
  have C := H.realizes.conserved
  rw [hc] at C
  have hlist := C.list_eq rfl hl
  have hlist₃ := C.list_eq rfl hl₃
  have hlist₁ := C.list_eq rfl hl₁
  obtain ⟨h, timer, tmp, k, -, -, -, hvisits, -, hk, hC, -⟩ :=
    cascade_empties_bucket C (by decide : 2 < Tv.tv2.size)
  rw [hlist] at hvisits
  have hf₀ : internalAddVec s.world.base.timerJiffies (s.world.timer 0).expires = .vec .tv1 22 := by
    rw [hT, he₀]
    decide +kernel
  have hf₁ : internalAddVec s.world.base.timerJiffies (s.world.timer 1).expires = .vec .tv1 22 := by
    rw [hT, he₁]
    decide +kernel
  refine ⟨s, ev, q.list, _, h, k, timer, tmp, hr, C, hlist, hlist₃, hvisits, hk, hC, ?_, ?_, ?_⟩
  · simp [hlist, hf₀, hf₁]
  · simp [hlist, hlist₁, hf₀, hf₁]
  · simp [hlist, hlist₃, hf₀, hf₁]

/-! ## Inactive timers -/

/-- No call arms `t` again. -/
def Act.SparesInactive (t : Fin N) : Act m N → Prop
  | .call (.addTimer u _) | .call (.modTimer u _) => u ≠ t
  | _ => True

/-- `t` is in no queue and keeps its expiry `e`, and nothing in `ev` has
happened to it. -/
structure Inactive (t : Fin N) (e : ULong m) (q : Queues m N) (ev : List (Event m N)) : Prop where
  not_pending : ¬ q.Pending t
  expires : q.expires t = e
  no_fire : ∀ fn data, .fire t fn data ∉ ev
  returns_zero : ∀ c r, .ret c r ∈ ev → c.timer = t → r = 0

/-- A call that spares `t` does nothing to it. -/
theorem exec_of_spares {c : Call m N} (hs : (Act.call c).SparesInactive t) (ht : ¬ q.Pending t)
    (hc : c.timer = t) : (q.exec c).2 = 0 ∧ (q.exec c).1.list = q.list ∧
      (q.exec c).1.expires = q.expires := by
  cases c with
  | addTimer u e | modTimer u e => exact absurd hc hs
  | modTimerPending u e =>
    have hu : ¬ q.Pending u := by
      cases hc
      exact ht
    simp [Queues.exec, hu]
  | delTimer u =>
    have hu : ¬ q.Pending u := by
      cases hc
      exact ht
    simp [Queues.exec, hu]

theorem Inactive.step {e : ULong m} {c c' : Ctl N} {ev ev' : List (Event m N)} {a : Act m N}
    {q' : Queues m N} (I : Inactive t e q ev) (ha : a.SparesInactive t) (S : q.Sound c.working)
    (h : q.Step c a q' c' ev') : Inactive t e q' (ev ++ ev') := by
  obtain ⟨hp, he, hf, hr⟩ := I
  cases h with
  | @call _ cl ho hc =>
    have hp' : ¬ (q.exec cl).1.Pending t ∧ (q.exec cl).1.expires t = e ∧
        (cl.timer = t → (q.exec cl).2 = 0) := by
      by_cases hct : t = cl.timer
      · obtain ⟨h0, hl, hx⟩ := exec_of_spares ha hp hct.symm
        exact ⟨by simpa [Queues.Pending, hl] using hp, by rw [hx, he], fun _ => h0⟩
      · exact ⟨by rwa [Queues.pending_exec_of_ne hct], by rw [Queues.expires_exec_of_ne hct, he],
          fun h => absurd h.symm hct⟩
    refine ⟨hp'.1, hp'.2.1, by simpa using hf, fun c r hm hct => ?_⟩
    rcases List.mem_append.mp hm with hm | hm
    · exact hr c r hm hct
    · cases List.mem_singleton.mp hm
      exact hp'.2.2 hct
  | wake j => exact ⟨hp, he, by simpa using hf, by simpa using hr⟩
  | iter hj =>
    refine ⟨by rwa [Queues.pending_startTick S], by rw [Queues.expires_startTick, he],
      by simpa using hf, by simpa using hr⟩
  | sleep hj => exact ⟨hp, he, by simpa using hf, by simpa using hr⟩
  | drained hw => exact ⟨hp, he, by simpa using hf, by simpa using hr⟩
  | @fire u ts hw =>
    have hne : u ≠ t := by
      rintro rfl
      exact hp ⟨.workList, by rw [hw]; simp⟩
    refine ⟨?_, he, ?_, by simpa using hr⟩
    · rintro ⟨b, hm⟩
      exact hp ⟨b, ((Queues.mem_takeTimer hw S).mp hm).1⟩
    · intro fn data hm
      rcases List.mem_append.mp hm with hm | hm
      · exact hf fn data hm
      · simp only [List.mem_singleton, Event.fire.injEq] at hm
        exact hne hm.1.symm
  | resume u => exact ⟨hp, he, by simpa using hf, by simpa using hr⟩

theorem inactive_timer_stays_inactive {memory : Heap (Node N)} {setup : Fin N → TimerSetup m}
    {jiffies : ULong m} (h : (wheel m N).Reachable (boot memory setup jiffies) s)
    (ht : timerPending s.world t = false) {as : List (Act m N)} {ev : List (Event m N)}
    (hr : (wheel m N).run s as = some (s', ev)) (has : ∀ a ∈ as, a.SparesInactive t) :
    timerPending s'.world t = false ∧ (s'.world.timer t).expires = (s.world.timer t).expires ∧
      (∀ fn data, .fire t fn data ∉ ev) ∧ ∀ c r, .ret c r ∈ ev → c.timer = t → r = 0 := by
  obtain ⟨q, H, -⟩ := reachable_holds h
  have hp : ¬ q.Pending t := by
    rw [← H.realizes.timerPending_iff, ht]
    simp
  obtain ⟨q', H', I⟩ := wheel_induction (P := fun q _ ev => Inactive t (s.world.timer t).expires q ev)
    hr has H ⟨hp, (H.realizes.expires t).symm, by simp, by simp⟩
    fun q c ev a q' c' ev' ha S I hs => I.step ha S hs
  exact ⟨H'.realizes.timerPending_eq_false I.not_pending, (H'.realizes.expires t).trans I.expires,
    I.no_fire, I.returns_zero⟩

/-- `mod_timer_pending` and `del_timer` on an inactive timer between two passes,
the second of which runs another timer. -/
theorem inactive_timer_stays_inactive_test1 :
    ∃ s' : Sys .long32 2, s'.ctl = .callback 0 ∧ timerPending s'.world 1 = false ∧
      (s'.world.timer 1).expires = 150 := by
  have h : (((wheel .long32 2).run (boot (fun _ => ⟨.null, .null⟩) (fun _ => ⟨150, 1, 2⟩) 64)
      [.call (.addTimer 0 65), .wake 64, .run, .run, .run, .call (.modTimerPending 1 66),
        .call (.delTimer 1), .wake 65, .run, .run]).map fun p =>
        decide (p.1.ctl = .callback 0)) = some true := by
    decide +kernel
  obtain ⟨⟨s, ev⟩, hr, hs⟩ := Option.map_eq_some_iff.mp h
  have hi := inactive_timer_stays_inactive (t := 1) (Machine.Reachable.refl _) (by decide +kernel) hr
    (by simp [Act.SparesInactive])
  refine ⟨s, by simpa using hs, hi.1, hi.2.1.trans ?_⟩
  decide +kernel

end Uki
