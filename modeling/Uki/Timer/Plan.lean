import Uki.Timer.Entry

/-!
# The plan of a run

When the callback of every timer calls operations on its own timer only, the
entries of the timers develop independently of each other, and the order in
which the callbacks of one tick run does not matter. `Plan` is the program on
these entries alone: it has no buckets, and a tick brings every timer closer.

With callbacks that call nothing, the ticks at which a timer runs are read off
its status (`resume_quiet`).
-/

namespace Uki

variable {m : LongModel} {N : Nat} {τ : Type}

/-- Callbacks that call operations on their own timer only. They keep a `τ` for
every timer, and read `jiffies`, `timer_jiffies` and the expiry of the timer. -/
structure OwnCallbacks (τ : Type) (m : LongModel) (N : Nat) where
  act : Fin N → τ → (jiffies timerJiffies expires : ULong m) → τ × List (Call m N)
  own : ∀ t x j T e, ∀ c ∈ (act t x j T e).2, c.timer = t

/-- Callbacks that call nothing. -/
def quiet : OwnCallbacks Unit m N := ⟨fun _ _ _ _ _ => ((), []), by simp⟩

/-- The calls of the program before a pass, and the clock the pass finds. -/
structure Block (m : LongModel) (N : Nat) where
  calls : List (Call m N)
  jiffies : ULong m

/-- The ticks that were processed and the timers that ran at each. -/
abbrev Trace (m : LongModel) (N : Nat) : Type := List (ULong m × List (Fin N))

def ticksOf (t : Fin N) (trace : Trace m N) : List (ULong m) :=
  (trace.filter fun p => t ∈ p.2).map Prod.fst

/-! ## The program on entries -/

/-- All results, when none is missing. -/
def collect {α : Type} (f : Fin N → Option α) : Option (Fin N → α) :=
  if h : ∀ t, (f t).isSome then some fun t => (f t).get (h t) else none

theorem collect_eq_some {α : Type} {f : Fin N → Option α} {g : Fin N → α} :
    collect f = some g ↔ ∀ t, f t = some (g t) := by
  unfold collect
  split
  · next h =>
    rw [Option.some.injEq]
    constructor
    · rintro rfl t
      exact (Option.some_get (h t)).symm
    · intro hg
      funext t
      exact Option.get_of_eq_some _ (hg t)
  · next h =>
    constructor
    · intro he
      cases he
    · exact fun hg => absurd (fun t => by rw [hg t]; rfl) h

theorem collect_eq_none {α : Type} {f : Fin N → Option α} {t : Fin N} (h : f t = none) :
    collect f = none := by
  rw [Option.eq_none_iff_forall_not_mem]
  intro g hg
  have := collect_eq_some.mp hg t
  rw [h] at this
  cases this

/-- What a tick does to a timer. -/
def Status.tick : Status → Status
  | .due 0 => .expiring
  | .due (d + 1) => .due d
  | s => s

/-- Calls on one timer. -/
def Entry.execs (T : ULong m) (x : Entry m) (cs : List (Call m N)) : Option (Entry m) :=
  cs.foldlM (Entry.exec T) x

structure Plan (m : LongModel) (N : Nat) where
  entry : Fin N → Entry m
  timerJiffies : ULong m
  jiffies : ULong m

namespace Plan

def exec (p : Plan m N) (c : Call m N) : Option (Plan m N) :=
  ((p.entry c.timer).exec p.timerJiffies c).map fun x =>
    { p with entry := Function.update p.entry c.timer x }

def execCalls : Plan m N → List (Call m N) → Option (Plan m N)
  | p, [] => some p
  | p, c :: cs => do execCalls (← p.exec c) cs

def startTick (p : Plan m N) : Plan m N where
  entry t := ⟨(p.entry t).expires, (p.entry t).status.tick⟩
  timerJiffies := p.timerJiffies + 1
  jiffies := p.jiffies

def expiring (p : Plan m N) : List (Fin N) :=
  (List.finRange N).filter fun t => (p.entry t).status = .expiring

/-- What is left of a timer after its callback, if it is expiring. -/
def callback (cb : OwnCallbacks τ m N) (e : Fin N → τ) (p : Plan m N) (t : Fin N) :
    Option (τ × Entry m) :=
  if (p.entry t).status = .expiring then
    let (x, calls) := cb.act t (e t) p.jiffies p.timerJiffies (p.entry t).expires
    (Entry.execs p.timerJiffies ⟨(p.entry t).expires, .off⟩ calls).map (x, ·)
  else
    some (e t, p.entry t)

def runWorkList (cb : OwnCallbacks τ m N) (fuel : Nat) (e : Fin N → τ) (p : Plan m N) :
    Option ((Fin N → τ) × Plan m N × List (Fin N)) :=
  if p.expiring.length < fuel then
    (collect (callback cb e p)).map fun r =>
      (fun t => (r t).1, { p with entry := fun t => (r t).2 }, p.expiring)
  else
    none

def runTicks (cb : OwnCallbacks τ m N) :
    Nat → (Fin N → τ) → Plan m N → Option ((Fin N → τ) × Plan m N × Trace m N)
  | 0, _, _ => none
  | fuel + 1, e, p =>
    if timeAfterEq p.jiffies p.timerJiffies then do
      let (e, p', ts) ← runWorkList cb fuel e p.startTick
      let (e, p', trace) ← runTicks cb fuel e p'
      some (e, p', (p.timerJiffies, ts) :: trace)
    else
      some (e, p, [])

def runBlocks (cb : OwnCallbacks τ m N) (fuel : Nat) :
    (Fin N → τ) → Plan m N → List (Block m N) → Option (Trace m N)
  | _, _, [] => some []
  | e, p, b :: bs => do
    let p ← p.execCalls b.calls
    let (e, p, trace) ← runTicks cb fuel e { p with jiffies := b.jiffies }
    let rest ← runBlocks cb fuel e p bs
    some (trace ++ rest)

/-- What follows when the program is between passes, or in a callback of the
current pass. -/
def resume (p : Plan m N) (c : Ctl N) (cb : OwnCallbacks τ m N) (fuel : Nat) (e : Fin N → τ)
    (calls : List (Call m N)) (blocks : List (Block m N)) : Option (Trace m N) :=
  match c with
  | .idle => do runBlocks cb fuel e (← p.execCalls calls) blocks
  | .callback _ => do
    let p ← p.execCalls calls
    let (e, p', ts) ← runWorkList cb fuel e p
    let (e, p', trace) ← runTicks cb fuel e p'
    let rest ← runBlocks cb fuel e p' blocks
    some ((p.timerJiffies - 1, ts) :: (trace ++ rest))
  | _ => none

/-- Calls on one timer change its entry only. -/
theorem execCalls_own (p : Plan m N) {t : Fin N} {cs : List (Call m N)}
    (h : ∀ c ∈ cs, c.timer = t) :
    p.execCalls cs = ((p.entry t).execs p.timerJiffies cs).map fun x =>
      { p with entry := Function.update p.entry t x } := by
  induction cs generalizing p with
  | nil => simp [execCalls, Entry.execs]
  | cons c cs ih =>
    have hc : c.timer = t := h c List.mem_cons_self
    simp only [execCalls, exec, hc, Entry.execs, List.foldlM_cons]
    cases hx : (p.entry t).exec p.timerJiffies c with
    | none => rfl
    | some x =>
      have := ih { p with entry := Function.update p.entry t x } fun c hm =>
        h c (List.mem_cons_of_mem _ hm)
      simp only [Function.update_self, Function.update_idem] at this
      exact this

/-! ## Callbacks that call nothing -/

end Plan

/-- The status after `n` ticks. -/
def Status.after (n : Nat) : Status → Status
  | .due d => if d < n then .off else .due (d - n)
  | s => s

/-- The ticks at which the timer runs in the `n` ticks from `T` on. -/
def Status.ticks (T : ULong m) (n : Nat) : Status → List (ULong m)
  | .due d => if d < n then [T + BitVec.ofNat _ d] else []
  | _ => []

theorem Status.after_add (s : Status) (a b : Nat) : (s.after a).after b = s.after (a + b) := by
  cases s with
  | off | expiring => rfl
  | due d =>
    simp only [Status.after]
    by_cases ha : d < a
    · simp [ha, Nat.lt_add_right b ha]
    · by_cases hb : d < a + b
      · simp [ha, hb, show d - a < b by omega]
      · simp [ha, hb, show ¬ d - a < b by omega, Nat.sub_sub]

theorem Status.ticks_add (T : ULong m) (s : Status) (a b : Nat) :
    s.ticks T a ++ (s.after a).ticks (T + BitVec.ofNat _ a) b = s.ticks T (a + b) := by
  cases s with
  | off | expiring => rfl
  | due d =>
    by_cases ha : d < a
    · simp [Status.after, Status.ticks, ha, Nat.lt_add_right b ha]
    · have hT : T + BitVec.ofNat _ a + BitVec.ofNat _ (d - a) = T + BitVec.ofNat _ d := by
        rw [BitVec.add_assoc, ← BitVec.ofNat_add, Nat.add_sub_cancel' (Nat.not_lt.mp ha)]
      by_cases hb : d < a + b
      · simp [Status.after, Status.ticks, ha, hb, show d - a < b by omega, hT]
      · simp [Status.after, Status.ticks, ha, hb, show ¬ d - a < b by omega]

theorem Status.after_ne {s : Status} (h : s ≠ .expiring) (n : Nat) : s.after n ≠ .expiring := by
  cases s with
  | off => exact h
  | expiring => exact absurd rfl h
  | due d =>
    unfold Status.after
    dsimp only
    split_ifs <;> simp

/-- One tick, and the callbacks that run in it. -/
theorem Status.after_one {s : Status} (h : s ≠ .expiring) :
    (if s.tick = .expiring then .off else s.tick) = s.after 1 := by
  rcases s with - | - | - | d
  · rfl
  · exact absurd rfl h
  · rfl
  · simp [Status.tick, Status.after]

theorem Status.ticks_one (T : ULong m) {s : Status} (h : s ≠ .expiring) :
    (if s.tick = .expiring then [T] else []) = s.ticks T 1 := by
  rcases s with - | - | - | d
  · rfl
  · exact absurd rfl h
  · simp [Status.tick, Status.ticks]
  · simp [Status.tick, Status.ticks]

theorem ticksOf_append (t : Fin N) (a b : Trace m N) :
    ticksOf t (a ++ b) = ticksOf t a ++ ticksOf t b := by
  simp [ticksOf]

theorem ticksOf_cons (t : Fin N) (T : ULong m) (ts : List (Fin N)) (a : Trace m N) :
    ticksOf t ((T, ts) :: a) = (if t ∈ ts then [T] else []) ++ ticksOf t a := by
  unfold ticksOf
  by_cases h : t ∈ ts <;> simp [h]

namespace Plan

theorem mem_expiring {p : Plan m N} {t : Fin N} :
    t ∈ p.expiring ↔ (p.entry t).status = .expiring := by
  simp [expiring]

theorem length_expiring (p : Plan m N) : p.expiring.length ≤ N := by
  have := List.length_filter_le (fun t => decide ((p.entry t).status = .expiring)) (List.finRange N)
  rwa [List.length_finRange] at this

theorem runWorkList_quiet (fuel : Nat) (hf : N < fuel) (e : Fin N → Unit) (p : Plan m N) :
    ∃ p', runWorkList quiet fuel e p = some (e, p', p.expiring) ∧
      p'.timerJiffies = p.timerJiffies ∧ p'.jiffies = p.jiffies ∧
      ∀ t, (p'.entry t).status =
        if (p.entry t).status = .expiring then .off else (p.entry t).status := by
  have hlt : p.expiring.length < fuel := lt_of_le_of_lt p.length_expiring hf
  let x (t : Fin N) : Entry m :=
    if (p.entry t).status = .expiring then ⟨(p.entry t).expires, .off⟩ else p.entry t
  have hc : collect (callback quiet e p) = some fun t => ((), x t) := by
    rw [collect_eq_some]
    intro t
    unfold callback
    by_cases h : (p.entry t).status = .expiring <;> simp [h, x, quiet, Entry.execs]
  refine ⟨{ p with entry := x }, by simp [runWorkList, hlt, hc], rfl, rfl, fun t => ?_⟩
  by_cases h : (p.entry t).status = .expiring <;> simp [x, h]

theorem runTicks_quiet (fuel : Nat) (e : Fin N → Unit) (p : Plan m N)
    (hf : ticksLeft p.timerJiffies p.jiffies + N + 2 ≤ fuel)
    (hx : ∀ t, (p.entry t).status ≠ .expiring) :
    let n := ticksLeft p.timerJiffies p.jiffies
    ∃ p' trace, runTicks quiet fuel e p = some (e, p', trace) ∧
      p'.timerJiffies = p.timerJiffies + BitVec.ofNat _ n ∧
      ∀ t, (p'.entry t).status = (p.entry t).status.after n ∧
        ticksOf t trace = (p.entry t).status.ticks p.timerJiffies n := by
  induction fuel generalizing p with
  | zero => omega
  | succ fuel ih =>
    cases hj : timeAfterEq p.jiffies p.timerJiffies with
    | false =>
      rw [ticksLeft_eq_zero hj]
      refine ⟨p, [], by simp [runTicks, hj], by simp, fun t => ?_⟩
      cases (p.entry t).status <;> simp [Status.after, Status.ticks, ticksOf]
    | true =>
      have hn := ticksLeft_succ hj
      obtain ⟨p₁, hp₁, hT₁, hJ₁, hs₁⟩ := runWorkList_quiet fuel (by omega) e p.startTick
      have hs₁ (t : Fin N) : (p₁.entry t).status = (p.entry t).status.after 1 := by
        rw [hs₁ t, ← Status.after_one (hx t)]
        rfl
      have hl : ticksLeft p₁.timerJiffies p₁.jiffies = ticksLeft (p.timerJiffies + 1) p.jiffies := by
        rw [hT₁, hJ₁]
        rfl
      obtain ⟨p', trace, hr, hT', hs'⟩ := ih p₁ (by omega) fun t => by
        rw [hs₁ t]
        exact Status.after_ne (hx t) 1
      refine ⟨p', (p.timerJiffies, p.startTick.expiring) :: trace, ?_, ?_, fun t => ⟨?_, ?_⟩⟩
      · simp [runTicks, hj, hp₁, hr]
      · rw [hT', hl, hT₁, ← hn]
        exact add_one_add _ _
      · rw [(hs' t).1, hs₁ t, Status.after_add, hl, ← hn, Nat.add_comm]
      · rw [← hn, Nat.add_comm, ← Status.ticks_add, ← Status.ticks_one _ (hx t), ticksOf_cons,
          (hs' t).2, hs₁ t, hl, hT₁]
        simp only [mem_expiring]
        rfl

/-- A pass that processes `n` ticks. -/
theorem runBlocks_quiet (fuel : Nat) {n : Nat} (bs : List (Block m N)) {T : ULong m}
    (hn : n + 1 ≤ half m) (hf : n + N + 3 ≤ fuel) (p : Plan m N) (hT : p.timerJiffies = T)
    (hx : ∀ t, (p.entry t).status ≠ .expiring) (e : Fin N → Unit) :
    ∃ p' trace, p'.timerJiffies = T + BitVec.ofNat _ (n + 1) ∧
      (runBlocks quiet fuel e p (⟨[], T + BitVec.ofNat _ n⟩ :: bs) =
        (runBlocks quiet fuel e p' bs).map (trace ++ ·)) ∧
      ∀ t, (p'.entry t).status = (p.entry t).status.after (n + 1) ∧
        ticksOf t trace = (p.entry t).status.ticks T (n + 1) := by
  have ha : ahead T (T + BitVec.ofNat _ n) = n := ahead_self_add (by have := two_half m; omega)
  have hl : ticksLeft T (T + BitVec.ofNat _ n) = n + 1 := by
    unfold ticksLeft
    rw [if_pos ((timeAfterEq_iff _ _).mpr (by omega)), ha]
  obtain ⟨p', trace, hr, hT', hs⟩ := runTicks_quiet fuel e
    { p with jiffies := T + BitVec.ofNat _ n } (by simp only [hT, hl]; omega) hx
  simp only [hT, hl] at hT' hs
  refine ⟨p', trace, hT', ?_, hs⟩
  simp only [runBlocks, execCalls, hr, Option.bind_eq_bind, Option.bind_some]
  cases runBlocks quiet fuel e p' bs <;> rfl

end Plan

/-- All the ticks at which a timer runs, when its callback may be due in the
current tick, the one before `T`. -/
def Status.allTicks (T : ULong m) (n : Nat) : Status → List (ULong m)
  | .expiring => [T - 1]
  | s => s.ticks T n

/-- The status is read off the ticks. -/
theorem Status.eq_of_allTicks {T : ULong m} {n : Nat} {s s' : Status} (hn : 2 * half m ≤ n)
    (hs : ∀ d, s = .due d → d + 1 < 2 * half m) (hs' : ∀ d, s' = .due d → d + 1 < 2 * half m)
    (h : s.allTicks T n = s'.allTicks T n) : s = s' := by
  have due {d : Nat} (hd : d + 1 < 2 * half m) :
      (Status.due d).allTicks T n = [T + BitVec.ofNat _ d] := if_pos (by omega)
  have last {d : Nat} (hd : d + 1 < 2 * half m) : T - 1 ≠ T + BitVec.ofNat _ d := by
    intro he
    have h1 := ahead_self_add (t := T) (k := d) (by omega)
    rw [← he, ahead_sub_one] at h1
    omega
  cases s with
  | off =>
    cases s' with
    | off => rfl
    | expiring => cases h
    | due d =>
      rw [due (hs' d rfl)] at h
      cases h
  | expiring =>
    cases s' with
    | off => cases h
    | expiring => rfl
    | due d =>
      rw [due (hs' d rfl)] at h
      exact absurd (List.cons.inj h).1 (last (hs' d rfl))
  | due d =>
    have hd := hs d rfl
    rw [due hd] at h
    cases s' with
    | off => cases h
    | expiring => exact absurd (List.cons.inj h).1.symm (last hd)
    | due d' =>
      have hd' := hs' d' rfl
      rw [due hd'] at h
      have ha := ahead_self_add (t := T) (k := d) (by omega)
      rw [(List.cons.inj h).1, ahead_self_add (by omega)] at ha
      rw [ha]

namespace Plan

/-- Two passes from `T` on that process every tick. -/
def quietBlocks (T : ULong m) : List (Block m N) :=
  [⟨[], T + BitVec.ofNat _ (half m - 1)⟩,
    ⟨[], T + BitVec.ofNat _ (half m) + BitVec.ofNat _ (half m - 1)⟩]

theorem runBlocks_quietBlocks (fuel : Nat) (hf : half m + N + 2 ≤ fuel) (p : Plan m N)
    {T : ULong m} (hT : p.timerJiffies = T) (hx : ∀ t, (p.entry t).status ≠ .expiring)
    (e : Fin N → Unit) :
    ∃ trace, runBlocks quiet fuel e p (quietBlocks T) = some trace ∧
      ∀ t, ticksOf t trace = (p.entry t).status.ticks T (2 * half m) := by
  have hh : half m - 1 + 1 = half m := Nat.sub_add_cancel (le_trans (by decide) (le_half m))
  obtain ⟨p₁, tr₁, hT₁, hr₁, hs₁⟩ := runBlocks_quiet (n := half m - 1) fuel
    [⟨[], T + BitVec.ofNat _ (half m) + BitVec.ofNat _ (half m - 1)⟩] hh.le (by omega) p hT hx e
  rw [hh] at hT₁ hs₁
  obtain ⟨p₂, tr₂, -, hr₂, hs₂⟩ := runBlocks_quiet (n := half m - 1) fuel [] hh.le
    (by omega) p₁ hT₁ (fun t => by
      rw [(hs₁ t).1]
      exact Status.after_ne (hx t) _) e
  rw [hh] at hs₂
  have hend : runBlocks quiet fuel e p₂ [] = some [] := rfl
  refine ⟨tr₁ ++ tr₂, by simp [quietBlocks, hr₁, hr₂, hend], fun t => ?_⟩
  rw [ticksOf_append, (hs₁ t).2, (hs₂ t).2, (hs₁ t).1, Status.ticks_add, ← two_mul]

/-- Loop turns enough for every pass. -/
def quietFuel (m : LongModel) (N : Nat) : Nat := half m + N + 2

/-- The ticks left of the current pass. -/
def inPass (p : Plan m N) (c : Ctl N) : Nat :=
  if c = .idle then 0 else ticksLeft p.timerJiffies p.jiffies

theorem resume_quiet (p : Plan m N) {c : Ctl N} (ho : c.open = true)
    (hidle : c = .idle → ∀ t, (p.entry t).status ≠ .expiring) :
    ∃ trace, p.resume c quiet (quietFuel m N) (fun _ => ()) []
        (quietBlocks (p.timerJiffies + BitVec.ofNat _ (p.inPass c))) = some trace ∧
      ∀ t, ticksOf t trace =
        (p.entry t).status.allTicks p.timerJiffies (p.inPass c + 2 * half m) := by
  cases c with
  | outer | inner => cases ho
  | idle =>
    obtain ⟨trace, hr, hs⟩ := runBlocks_quietBlocks (quietFuel m N) le_rfl p rfl
      (hidle rfl) fun _ => ()
    have h0 : p.timerJiffies + BitVec.ofNat _ (p.inPass .idle) = p.timerJiffies := by simp [inPass]
    rw [h0]
    refine ⟨trace, by simpa [resume, execCalls] using hr, fun t => ?_⟩
    rw [hs t, inPass, if_pos rfl, Nat.zero_add]
    have := hidle rfl t
    cases h : (p.entry t).status with
    | expiring => exact absurd h this
    | off | due => rfl
  | callback u =>
    have hleft : ticksLeft p.timerJiffies p.jiffies ≤ half m := by
      unfold ticksLeft
      split
      · next h => exact (timeAfterEq_iff _ _).mp h
      · exact Nat.zero_le _
    have hn : p.inPass (.callback u) = ticksLeft p.timerJiffies p.jiffies := if_neg (by simp)
    obtain ⟨p₁, hr₁, hT₁, hJ₁, hs₁⟩ := runWorkList_quiet (quietFuel m N)
      (by unfold quietFuel; omega) (fun _ => ()) p
    have hx₁ (t : Fin N) : (p₁.entry t).status ≠ .expiring := by
      rw [hs₁ t]
      split_ifs with h
      · simp
      · exact h
    obtain ⟨p₂, tr₂, hr₂, hT₂, hs₂⟩ := runTicks_quiet (quietFuel m N) (fun _ => ()) p₁
      (by rw [hT₁, hJ₁]; unfold quietFuel; omega) hx₁
    rw [hT₁, hJ₁, ← hn] at hT₂ hs₂
    obtain ⟨tr₃, hr₃, hs₃⟩ := runBlocks_quietBlocks (quietFuel m N) le_rfl p₂ hT₂
      (fun t => by
        rw [(hs₂ t).1]
        exact Status.after_ne (hx₁ t) _) fun _ => ()
    refine ⟨(p.timerJiffies - 1, p.expiring) :: (tr₂ ++ tr₃), ?_, fun t => ?_⟩
    · simp [resume, execCalls, hr₁, hr₂, hr₃]
    · rw [ticksOf_cons, ticksOf_append, (hs₂ t).2, hs₃ t, (hs₂ t).1, Status.ticks_add, hs₁ t]
      simp only [mem_expiring]
      by_cases h : (p.entry t).status = .expiring
      · rw [if_pos h, if_pos h, h]
        rfl
      · rw [if_neg h, if_neg h, List.nil_append]
        cases hs : (p.entry t).status with
        | expiring => exact absurd hs h
        | off | due => rfl

end Plan

end Uki
