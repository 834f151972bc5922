import Uki.Timer.Run
import Uki.Timer.Slot
import Uki.List.Spec

/-!
# The wheel as queues

The abstract state of the wheel is a queue of timers for every list head, next
to the fields the code reads. `Queues` has the operations of `timer.c` on it,
and `Realizes` connects it to memory: the heap represents the queues, and every
timer in no queue has a `NULL` mark.

The work list is a list head only while the worker is between two loop tests of
the inner loop; `working` says so. While a timer is being moved it is in no
queue without having the mark; `loose` lists these timers.
-/

namespace Uki

variable {m : LongModel} {N : Nat}

/-- The list heads in memory. -/
def Head.live (working : Bool) : Head → Bool
  | .vec tv i => i < tv.size
  | .workList => working
  | .tvList => false

structure Queues (m : LongModel) (N : Nat) where
  list : Head → List (Fin N)
  expires : Fin N → ULong m
  /-- `function` and `data` -/
  code : Fin N → Nat × ULong m
  lock : Option Thread
  timerJiffies : ULong m
  jiffies : ULong m

namespace Queues

/-- A timer is pending when it is in a queue. -/
def Pending (q : Queues m N) (t : Fin N) : Prop := ∃ b, t ∈ q.list b

/-- The bucket `internal_add_timer` chooses. -/
def file (q : Queues m N) (t : Fin N) : Head := internalAddVec q.timerJiffies (q.expires t)

def insert (q : Queues m N) (b : Head) (t : Fin N) : Queues m N :=
  { q with list := Function.update q.list b (q.list b ++ [t]) }

def remove (q : Queues m N) (t : Fin N) : Queues m N :=
  { q with list := fun b => (q.list b).filter (· ≠ t) }

def store (q : Queues m N) (t : Fin N) (expires : ULong m) : Queues m N :=
  { q with expires := Function.update q.expires t expires }

def unlock (q : Queues m N) : Queues m N := { q with lock := none }

/-- The slow path of `__mod_timer`: `t` leaves its queue, if it is in one, and
joins the bucket for `key`. -/
def rearm (q : Queues m N) (t : Fin N) (key expires : ULong m) : Queues m N :=
  (((q.remove t).insert (internalAddVec q.timerJiffies key) t).store t expires).unlock

open Classical in
/-- What a call does, and what it returns. -/
noncomputable def exec (q : Queues m N) : Call m N → Queues m N × Nat
  | .addTimer t e => (q.rearm t e e, 0)
  | .modTimer t e =>
    if q.Pending t then
      if q.expires t = e then (q, 1) else (q.rearm t (q.expires t) e, 1)
    else
      (q.rearm t (q.expires t) e, 0)
  | .modTimerPending t e =>
    if q.Pending t then (q.rearm t (q.expires t) e, 1) else (q.unlock, 0)
  | .delTimer t =>
    if q.Pending t then ((q.remove t).unlock, 1) else (q, 0)

/-- `add_timer` is called on timers that are not pending. -/
def Allows (q : Queues m N) : Call m N → Prop
  | .addTimer t _ => ¬ q.Pending t
  | _ => True

/-- The timers `ts` join their buckets one after another. -/
def fileAll (q : Queues m N) (ts : List (Fin N)) : Queues m N :=
  { q with list := fun b => q.list b ++ ts.filter fun t => q.file t = b }

def setList (q : Queues m N) (b : Head) (ts : List (Fin N)) : Queues m N :=
  { q with list := Function.update q.list b ts }

def cascade (q : Queues m N) (tv : Tv) (i : Nat) : Queues m N :=
  (q.setList (.vec tv i) []).fileAll (q.list (.vec tv i))

/-- `tv` is cascaded when the bits of `timer_jiffies` below its index are zero. -/
def turn (q : Queues m N) (tv : Tv) : Queues m N :=
  if q.timerJiffies.toNat % 2 ^ tv.shift = 0 then
    q.cascade tv (q.timerJiffies.toNat / 2 ^ tv.shift % 16)
  else
    q

def cascadeTimers (q : Queues m N) : Queues m N :=
  (((q.turn .tv2).turn .tv3).turn .tv4).turn .tv5

/-- The bucket of `tv1` that is run. -/
def current (q : Queues m N) : Head := .vec .tv1 (q.timerJiffies.toNat % 64)

def startTick (q : Queues m N) : Queues m N :=
  let q' := q.cascadeTimers
  let q'' := (q'.setList .workList (q'.list q.current)).setList q.current []
  { q'' with timerJiffies := q.timerJiffies + 1 }

def takeTimer (q : Queues m N) : Queues m N := q.setList .workList (q.list .workList).tail

/-! ## Small facts -/

section Lemmas

variable (q : Queues m N) (t u : Fin N) (b b' : Head) (e : ULong m)

@[simp] theorem expires_insert : (q.insert b t).expires = q.expires := rfl
@[simp] theorem expires_remove : (q.remove t).expires = q.expires := rfl
@[simp] theorem expires_unlock : q.unlock.expires = q.expires := rfl
@[simp] theorem expires_store : (q.store t e).expires = Function.update q.expires t e := rfl
@[simp] theorem timerJiffies_insert : (q.insert b t).timerJiffies = q.timerJiffies := rfl
@[simp] theorem timerJiffies_remove : (q.remove t).timerJiffies = q.timerJiffies := rfl
@[simp] theorem timerJiffies_store : (q.store t e).timerJiffies = q.timerJiffies := rfl
@[simp] theorem timerJiffies_unlock : q.unlock.timerJiffies = q.timerJiffies := rfl
@[simp] theorem list_store : (q.store t e).list = q.list := rfl
@[simp] theorem list_unlock : q.unlock.list = q.list := rfl

@[simp] theorem list_setList (ts : List (Fin N)) :
    (q.setList b ts).list b' = if b' = b then ts else q.list b' := by
  simp [setList, Function.update_apply]

theorem mem_insert : u ∈ (q.insert b t).list b' ↔ u ∈ q.list b' ∨ (b' = b ∧ u = t) := by
  simp only [insert, Function.update_apply]
  split
  · next h => simp [h]
  · next h => simp [h]

theorem mem_remove : u ∈ (q.remove t).list b ↔ u ∈ q.list b ∧ u ≠ t := by
  simp [remove]

theorem mem_fileAll (ts : List (Fin N)) :
    u ∈ (q.fileAll ts).list b ↔ u ∈ q.list b ∨ (u ∈ ts ∧ q.file u = b) := by
  simp [fileAll]

theorem mem_cascade (tv : Tv) (i : Nat) :
    u ∈ (q.cascade tv i).list b ↔
      (u ∈ q.list b ∧ b ≠ .vec tv i) ∨ (u ∈ q.list (.vec tv i) ∧ q.file u = b) := by
  have hf : (q.setList (.vec tv i) []).file u = q.file u := rfl
  rw [cascade, mem_fileAll, hf, list_setList]
  split <;> simp_all

section Turn

variable (tv : Tv)

@[simp] theorem expires_turn : (q.turn tv).expires = q.expires := by
  rw [turn]
  split <;> rfl

@[simp] theorem code_turn : (q.turn tv).code = q.code := by
  rw [turn]
  split <;> rfl

@[simp] theorem lock_turn : (q.turn tv).lock = q.lock := by
  rw [turn]
  split <;> rfl

@[simp] theorem timerJiffies_turn : (q.turn tv).timerJiffies = q.timerJiffies := by
  rw [turn]
  split <;> rfl

@[simp] theorem jiffies_turn : (q.turn tv).jiffies = q.jiffies := by
  rw [turn]
  split <;> rfl

end Turn

@[simp] theorem timerJiffies_cascadeTimers : q.cascadeTimers.timerJiffies = q.timerJiffies := by
  simp [cascadeTimers]

@[simp] theorem expires_startTick : q.startTick.expires = q.expires := by
  simp [startTick, setList, cascadeTimers]

@[simp] theorem code_startTick : q.startTick.code = q.code := by
  simp [startTick, setList, cascadeTimers]

@[simp] theorem lock_startTick : q.startTick.lock = q.lock := by
  simp [startTick, setList, cascadeTimers]

@[simp] theorem timerJiffies_startTick : q.startTick.timerJiffies = q.timerJiffies + 1 := rfl

@[simp] theorem jiffies_startTick : q.startTick.jiffies = q.jiffies := by
  simp [startTick, setList, cascadeTimers]

theorem pending_rearm (key : ULong m) : (q.rearm t key e).Pending t :=
  ⟨internalAddVec q.timerJiffies key, by simp [rearm, mem_insert]⟩

theorem list_rearm (key : ULong m) :
    (q.rearm t key e).list b = (q.list b).filter (· ≠ t) ++
      if internalAddVec q.timerJiffies key = b then [t] else [] := by
  simp only [rearm, list_unlock, list_store, insert, remove, Function.update_apply]
  split_ifs with h h' h'
  · rw [h]
  · exact absurd h.symm h'
  · exact absurd h'.symm h
  · simp

/-- What a call can do to the queues. -/
theorem exec_cases (c : Call m N) :
    (q.exec c).1 = q ∨ (q.exec c).1 = q.unlock ∨ (q.exec c).1 = (q.remove c.timer).unlock ∨
      ∃ key e, (q.exec c).1 = q.rearm c.timer key e := by
  cases c with
  | addTimer t e => exact .inr (.inr (.inr ⟨e, e, rfl⟩))
  | modTimer t e =>
    simp only [exec]
    split_ifs
    · exact .inl rfl
    · exact .inr (.inr (.inr ⟨_, e, rfl⟩))
    · exact .inr (.inr (.inr ⟨_, e, rfl⟩))
  | modTimerPending t e =>
    simp only [exec]
    split_ifs
    · exact .inr (.inr (.inr ⟨_, e, rfl⟩))
    · exact .inr (.inl rfl)
  | delTimer t =>
    simp only [exec]
    split_ifs
    · exact .inr (.inr (.inl rfl))
    · exact .inl rfl

/-- The list a timer is removed from. -/
theorem list_remove {A B : List (Fin N)} (h : q.list b = A ++ t :: B) (hnd : (q.list b).Nodup)
    (hu : ∀ b', t ∈ q.list b' → b' = b) :
    (q.remove t).list = Function.update q.list b (A ++ B) := by
  rw [h] at hnd
  have ht : t ∉ A ++ B := (List.nodup_middle.mp hnd).notMem
  funext b'
  simp only [remove, Function.update_apply]
  split
  · next hb =>
    rw [hb, h, List.filter_append, List.filter_cons_of_neg (by simp), ← List.filter_append,
      List.filter_eq_self]
    intro u hm
    have : u ≠ t := fun he => ht (he ▸ hm)
    simpa using this
  · next hb =>
    rw [List.filter_eq_self]
    intro u hm
    have : u ≠ t := fun he => hb (hu b' (he ▸ hm))
    simpa using this

end Lemmas

end Queues

/-! ## Realizing the queues in memory -/

/-- The rings that `list` asks for. -/
def ringHeads (live : Head → Bool) (list : Head → List (Fin N)) : Heads (Node N)
  | .head b => if live b then some ((list b).map .entry) else none
  | .entry _ => none

structure Realizes (working : Bool) (loose : List (Fin N)) (w : World m N) (q : Queues m N) :
    Prop where
  rings : Represents w.heap (ringHeads (Head.live working) q.list)
  dead : ∀ b, Head.live working b = false → q.list b = []
  null : ∀ t, t ∉ loose → ¬ q.Pending t → w.heap.next (.entry t) = .null
  expires : ∀ t, (w.timer t).expires = q.expires t
  code : ∀ t, (w.timer t).function = some (q.code t).1 ∧ (w.timer t).data = (q.code t).2
  lock : w.base.lock = q.lock
  timerJiffies : w.base.timerJiffies = q.timerJiffies
  jiffies : w.jiffies = q.jiffies

section RingHeads

variable {live : Head → Bool} {list : Head → List (Fin N)} {t : Fin N} {b : Head}

theorem ringHeads_head (list : Head → List (Fin N)) (hb : live b = true) :
    ringHeads live list (.head b) = some ((list b).map .entry) := by
  simp [ringHeads, hb]

theorem ringHeads_eq_some {n : Node N} {xs : List (Node N)} :
    ringHeads live list n = some xs ↔
      ∃ b, n = .head b ∧ live b = true ∧ xs = (list b).map .entry := by
  cases n with
  | entry t => simp [ringHeads]
  | head b =>
    simp only [ringHeads, Option.ite_none_right_eq_some, Option.some.injEq, Node.head.injEq]
    constructor
    · rintro ⟨h, rfl⟩
      exact ⟨b, rfl, h, rfl⟩
    · rintro ⟨b', rfl, h, rfl⟩
      exact ⟨h, rfl⟩

theorem ringHeads_update (list : Head → List (Fin N)) (hb : live b = true) (ts : List (Fin N)) :
    ringHeads live (Function.update list b ts) =
      (ringHeads live list).set (.head b) (some (ts.map .entry)) := by
  funext n
  cases n with
  | entry t => simp [ringHeads, Heads.set]
  | head b' =>
    simp only [ringHeads, Heads.set, Function.update_apply, Node.head.injEq]
    split_ifs <;> simp_all

/-- A head that is not in use is unlinked. -/
theorem ringHeads_unlinked (list : Head → List (Fin N)) (hb : live b = false) :
    (ringHeads live list).Unlinked (.head b) := by
  refine ⟨fun xs hx => ?_, fun hd xs hx hm => ?_⟩
  · obtain ⟨b', hbb, hl, -⟩ := ringHeads_eq_some.mp hx
    cases hbb
    rw [hb] at hl
    cases hl
  · obtain ⟨b', -, -, rfl⟩ := ringHeads_eq_some.mp hx
    simp at hm

theorem ringHeads_avoids_entry (ht : ∀ b, t ∉ list b) : (ringHeads live list).Avoids (.entry t) := by
  intro n xs hx hm
  obtain ⟨b, rfl, -, rfl⟩ := ringHeads_eq_some.mp hx
  simp [ht b] at hm

section Rings

variable {h : Heap (Node N)} {b' : Head}

theorem ringHeads_unique (R : Represents h (ringHeads live list)) (hb : live b = true)
    (hb' : live b' = true) (hm : t ∈ list b) (hm' : t ∈ list b') : b = b' := by
  have h := R.entry_unique (ringHeads_head _ hb) (ringHeads_head _ hb') (n := .entry t)
    (List.mem_map_of_mem hm) (List.mem_map_of_mem hm')
  simpa using h

theorem ringHeads_nodup (R : Represents h (ringHeads live list)) (hb : live b = true) :
    (list b).Nodup := by
  have h := (R.ring _ _ (ringHeads_head _ hb)).nodup
  exact List.Nodup.of_map _ (List.nodup_cons.mp h).2

/-- The entry of a queued timer points at a node. -/
theorem ringHeads_next (R : Represents h (ringHeads live list)) (hb : live b = true)
    (hm : t ∈ list b) : ∃ n, h.next (.entry t) = .to n := by
  obtain ⟨A, B, hAB⟩ := List.append_of_mem hm
  have hx := ringHeads_head list hb
  rw [hAB, List.map_append, List.map_cons] at hx
  obtain ⟨p, n, -, -, -, hn⟩ := R.neighbours hx
  refine ⟨n, ?_⟩
  revert hn
  cases h.next (.entry t) <;> simp [Ptr.deref]

end Rings

end RingHeads

namespace Realizes

variable {working : Bool} {loose : List (Fin N)} {w : World m N} {q : Queues m N} {t u : Fin N}
  {b b' : Head}

theorem live_of_mem (R : Realizes working loose w q) (hm : t ∈ q.list b) :
    Head.live working b = true := by
  by_contra h
  rw [R.dead b (by simpa using h)] at hm
  cases hm

/-- A timer is in one queue at most. -/
theorem unique (R : Realizes working loose w q) (hm : t ∈ q.list b) (hm' : t ∈ q.list b') :
    b = b' := ringHeads_unique R.rings (R.live_of_mem hm) (R.live_of_mem hm') hm hm'

theorem nodup (R : Realizes working loose w q) (b : Head) : (q.list b).Nodup := by
  by_cases hb : Head.live working b = true
  · exact ringHeads_nodup R.rings hb
  · rw [R.dead b (by simpa using hb)]
    exact List.nodup_nil

theorem weaken (R : Realizes working loose w q) (t : Fin N) :
    Realizes working (t :: loose) w q :=
  { R with null := fun u hu hp => R.null u (fun h => hu (List.mem_cons_of_mem _ h)) hp }

theorem next_ne_null (R : Realizes working loose w q) (hm : t ∈ q.list b) :
    ∃ n, w.heap.next (.entry t) = .to n := ringHeads_next R.rings (R.live_of_mem hm) hm

/-- `timer_pending` reads off whether the timer is in a queue. -/
theorem timerPending_iff (R : Realizes working [] w q) : timerPending w t = true ↔ q.Pending t := by
  simp only [timerPending, bne_iff_ne, ne_eq]
  constructor
  · intro h
    by_contra hp
    exact h (R.null t (by simp) hp)
  · rintro ⟨b, hm⟩
    obtain ⟨n, hn⟩ := R.next_ne_null hm
    simp [hn]

theorem timerPending_eq_false (R : Realizes working [] w q) (h : ¬ q.Pending t) :
    timerPending w t = false := by
  rw [← Bool.not_eq_true, R.timerPending_iff]
  exact h

/-! ## Field updates -/

theorem setExpires (R : Realizes working loose w q) (t : Fin N) (e : ULong m) :
    Realizes working loose (w.setExpires t e) (q.store t e) where
  rings := R.rings
  dead := R.dead
  null := R.null
  expires u := by
    simp only [World.setExpires, World.setTimer, Queues.store, Function.update_apply]
    split
    · rfl
    · exact R.expires u
  code u := by
    simp only [World.setExpires, World.setTimer]
    split
    · next h => exact h ▸ R.code t
    · exact R.code u
  lock := R.lock
  timerJiffies := R.timerJiffies
  jiffies := R.jiffies

theorem setNextTimer (R : Realizes working loose w q) (n : ULong m) :
    Realizes working loose (w.setNextTimer n) q :=
  ⟨R.rings, R.dead, R.null, R.expires, R.code, R.lock, R.timerJiffies, R.jiffies⟩

theorem spinUnlock (R : Realizes working loose w q) :
    Realizes working loose (spinUnlock w) q.unlock :=
  ⟨R.rings, R.dead, R.null, R.expires, R.code, rfl, R.timerJiffies, R.jiffies⟩

end Realizes

end Uki
