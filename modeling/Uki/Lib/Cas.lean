import Uki.Lib.Machine
import Mathlib.Logic.Function.Basic

/-!
# Retry loops on a shared cell

Threads that share a cell without a lock update it in a loop: load the cell, compute
the new value, and store it by compare-and-swap, which does nothing when the cell no
longer holds what was loaded. An operation may also quit on what it loaded.

The load and the compare-and-swap are parameters (`Primitives`), of which only what they
promise is used (`Primitives.Lawful`). Each is a single step, and threads take their
steps in any order. Three rules hold of every run: the operations act in the order in
which they return as if each were one step (`loops_atomic`), every thread gets its results
in the order of its calls (`loops_answered`), and a thread repeats its loop only because
another one has stored in the meantime (`loops_retries`).
-/

universe u v w x y

namespace Cas

/-- The accesses to the shared cell: a load, and a compare-and-swap with what it returns. -/
structure Primitives (μ : Type u) (α : Type v) where
  load : μ → α
  cmpxchg : μ → α → α → μ × α

/-- What a compare-and-swap promises. It never fails without a reason. -/
structure Primitives.Lawful {μ : Type u} {α : Type v} (P : Primitives μ α) : Prop where
  /-- it returns what the cell held -/
  found : ∀ mem old new, (P.cmpxchg mem old new).2 = P.load mem
  /-- it stores when the cell holds the old value -/
  stored : ∀ mem new, P.load (P.cmpxchg mem (P.load mem) new).1 = new
  /-- otherwise it leaves the cell alone -/
  kept : ∀ mem old new, P.load mem ≠ old → P.load (P.cmpxchg mem old new).1 = P.load mem

/-- A cell by itself. -/
def Primitives.cell (α : Type u) [DecidableEq α] : Primitives α α :=
  ⟨fun a => a, fun a old new => (if a = old then new else a, a)⟩

theorem Primitives.lawful_cell (α : Type u) [DecidableEq α] : (Primitives.cell α).Lawful where
  found _ _ _ := rfl
  stored _ _ := if_pos rfl
  kept _ _ _ h := if_neg h

/-- What an operation does with the value it has loaded. -/
inductive Attempt (α : Type u) (ρ : Type v) where
  /-- try to store `new` and return `result` -/
  | swap (new : α) (result : ρ)
  /-- return `result` -/
  | quit (result : ρ)

def Attempt.map {α : Type u} {ρ : Type v} {τ : Type w} (f : ρ → τ) : Attempt α ρ → Attempt α τ
  | .swap new r => .swap new (f r)
  | .quit r => .quit (f r)

/-- The operation as one step. -/
def Attempt.effect {α : Type u} {ρ : Type v} (a : α) : Attempt α ρ → α × ρ
  | .swap new r => (new, r)
  | .quit r => (a, r)

/-- Where a thread is. -/
inductive Pc (ο : Type u) (α : Type v) where
  | idle
  /-- before the load -/
  | called (op : ο)
  /-- before the compare-and-swap -/
  | loaded (op : ο) (old : α)
deriving DecidableEq

structure State (ι : Type u) (ο : Type v) (α : Type w) (μ : Type x) where
  mem : μ
  pc : ι → Pc ο α

inductive Act (ι : Type u) (ο : Type v) where
  | call (i : ι) (op : ο)
  | load (i : ι)
  | swap (i : ι)

@[simp] def Act.thread {ι : Type u} {ο : Type v} : Act ι ο → ι
  | .call i _ | .load i | .swap i => i

inductive Event (ι : Type u) (ο : Type v) (ρ : Type w) where
  | called (i : ι) (op : ο)
  /-- the operation stored and returned -/
  | stored (i : ι) (op : ο) (r : ρ)
  /-- the operation returned without storing -/
  | quit (i : ι) (op : ο) (r : ρ)
  /-- the compare-and-swap failed -/
  | retried (i : ι)
deriving DecidableEq

variable {ι : Type u} {ο : Type v} {α : Type w} {ρ : Type x} {μ : Type y} [DecidableEq ι]

def State.goto (s : State ι ο α μ) (i : ι) (p : Pc ο α) : State ι ο α μ :=
  { s with pc := Function.update s.pc i p }

@[simp] theorem State.mem_goto (s : State ι ο α μ) (i : ι) (p : Pc ο α) :
    (s.goto i p).mem = s.mem :=
  rfl

@[simp] theorem State.pc_goto_self (s : State ι ο α μ) (i : ι) (p : Pc ο α) :
    (s.goto i p).pc i = p := by
  simp [State.goto]

theorem State.pc_goto_of_ne {i j : ι} (h : i ≠ j) (s : State ι ο α μ) (p : Pc ο α) :
    (s.goto i p).pc j = s.pc j := by
  simp [State.goto, h.symm]

/-- The compare-and-swap has succeeded when it returns what was loaded. -/
def State.step [DecidableEq α] (P : Primitives μ α) (attempt : ο → α → Attempt α ρ)
    (s : State ι ο α μ) : Act ι ο → Option (State ι ο α μ × List (Event ι ο ρ))
  | .call i op =>
    match s.pc i with
    | .idle => some (s.goto i (.called op), [.called i op])
    | _ => none
  | .load i =>
    match s.pc i with
    | .called op =>
      match attempt op (P.load s.mem) with
      | .quit r => some (s.goto i .idle, [.quit i op r])
      | .swap _ _ => some (s.goto i (.loaded op (P.load s.mem)), [])
    | _ => none
  | .swap i =>
    match s.pc i with
    | .loaded op old =>
      match attempt op old with
      | .quit _ => none
      | .swap new r =>
        let (mem, found) := P.cmpxchg s.mem old new
        if found = old then
          some ({ s with mem := mem }.goto i .idle, [.stored i op r])
        else
          some ({ s with mem := mem }.goto i (.called op), [.retried i])
    | _ => none

def loops (ι : Type u) [DecidableEq ι] [DecidableEq α] (P : Primitives μ α)
    (attempt : ο → α → Attempt α ρ) : Machine (State ι ο α μ) (Act ι ο) (Event ι ο ρ) :=
  ⟨State.step P attempt⟩

/-- No thread is in an operation. -/
def start (ι : Type u) (ο : Type v) (α : Type w) (mem : μ) : State ι ο α μ := ⟨mem, fun _ => .idle⟩

variable {P : Primitives μ α} {attempt : ο → α → Attempt α ρ} {s s' : State ι ο α μ} {a : Act ι ο}
  {as : List (Act ι ο)} {ev ev' : List (Event ι ο ρ)} {i j : ι}

/-- All that a step can do. -/
inductive Step (P : Primitives μ α) (attempt : ο → α → Attempt α ρ) (s : State ι ο α μ) :
    Act ι ο → State ι ο α μ → List (Event ι ο ρ) → Prop where
  | call {i : ι} {op : ο} (h : s.pc i = .idle) :
      Step P attempt s (.call i op) (s.goto i (.called op)) [.called i op]
  | load {i : ι} {op : ο} {new : α} {r : ρ} (h : s.pc i = .called op)
      (ha : attempt op (P.load s.mem) = .swap new r) :
      Step P attempt s (.load i) (s.goto i (.loaded op (P.load s.mem))) []
  | quit {i : ι} {op : ο} {r : ρ} (h : s.pc i = .called op)
      (ha : attempt op (P.load s.mem) = .quit r) :
      Step P attempt s (.load i) (s.goto i .idle) [.quit i op r]
  | store {i : ι} {op : ο} {new : α} {r : ρ} {mem : μ} (h : s.pc i = .loaded op (P.load s.mem))
      (ha : attempt op (P.load s.mem) = .swap new r) (hm : P.load mem = new) :
      Step P attempt s (.swap i) ({ s with mem := mem }.goto i .idle) [.stored i op r]
  | retry {i : ι} {op : ο} {old : α} {mem : μ} (h : s.pc i = .loaded op old)
      (hne : P.load s.mem ≠ old) (hm : P.load mem = P.load s.mem) :
      Step P attempt s (.swap i) ({ s with mem := mem }.goto i (.called op)) [.retried i]

theorem step_cases [DecidableEq α] (hP : P.Lawful) (h : s.step P attempt a = some (s', ev)) :
    Step P attempt s a s' ev := by
  cases a with
  | call i op =>
    cases hp : s.pc i with
    | idle =>
      simp only [State.step, hp, Option.some.injEq, Prod.mk.injEq] at h
      obtain ⟨rfl, rfl⟩ := h
      exact .call hp
    | called | loaded => simp [State.step, hp] at h
  | load i =>
    cases hp : s.pc i with
    | called op =>
      cases ha : attempt op (P.load s.mem) with
      | swap new r =>
        simp only [State.step, hp, ha, Option.some.injEq, Prod.mk.injEq] at h
        obtain ⟨rfl, rfl⟩ := h
        exact .load hp ha
      | quit r =>
        simp only [State.step, hp, ha, Option.some.injEq, Prod.mk.injEq] at h
        obtain ⟨rfl, rfl⟩ := h
        exact .quit hp ha
    | idle | loaded => simp [State.step, hp] at h
  | swap i =>
    cases hp : s.pc i with
    | loaded op old =>
      cases ha : attempt op old with
      | swap new r =>
        simp only [State.step, hp, ha, hP.found] at h
        split at h
        · next he =>
          simp only [Option.some.injEq, Prod.mk.injEq] at h
          obtain ⟨rfl, rfl⟩ := h
          subst he
          exact .store hp ha (hP.stored _ _)
        · next hne =>
          simp only [Option.some.injEq, Prod.mk.injEq] at h
          obtain ⟨rfl, rfl⟩ := h
          exact .retry hp hne (hP.kept _ _ _ hne)
      | quit r => simp [State.step, hp, ha] at h
    | idle | called => simp [State.step, hp] at h

/-- The invariant rule for the loops. -/
theorem loops_induction [DecidableEq α] {I : State ι ο α μ → List (Event ι ο ρ) → Prop}
    {Q : Act ι ο → Prop} (hP : P.Lawful)
    (h : (loops ι P attempt).run s as = some (s', ev)) (hQ : ∀ a ∈ as, Q a) (h0 : I s [])
    (hstep : ∀ s ev a s' ev', Q a → I s ev → Step P attempt s a s' ev' → I s' (ev ++ ev')) :
    I s' ev :=
  Machine.run_induction h hQ h0 fun s ev a s' ev' ha hI hs =>
    hstep s ev a s' ev' ha hI (step_cases hP hs)

/-! ## The operations are atomic -/

/-- The operations that have returned, in this order. -/
def history (ev : List (Event ι ο ρ)) : List (ι × ο × ρ) :=
  ev.filterMap fun
    | .stored i op r | .quit i op r => some (i, op, r)
    | .called _ _ | .retried _ => none

omit [DecidableEq ι] in
theorem history_append (ev ev' : List (Event ι ο ρ)) :
    history (ev ++ ev') = history ev ++ history ev' := List.filterMap_append

/-- The operations, done one after another from `a`, yield these results and leave `b`. -/
def Replays (attempt : ο → α → Attempt α ρ) : α → List (ι × ο × ρ) → α → Prop
  | a, [], b => a = b
  | a, (_, op, r) :: ops, b =>
    ((attempt op a).effect a).2 = r ∧ Replays attempt ((attempt op a).effect a).1 ops b

omit [DecidableEq ι] in
theorem replays_append {a b : α} {xs ys : List (ι × ο × ρ)} :
    Replays attempt a (xs ++ ys) b ↔ ∃ c, Replays attempt a xs c ∧ Replays attempt c ys b := by
  induction xs generalizing a with
  | nil => simp [Replays]
  | cons x xs ih =>
    obtain ⟨i, op, r⟩ := x
    simp only [List.cons_append, Replays, ih, and_assoc, exists_and_left]

theorem Step.replays (h : Step P attempt s a s' ev) :
    Replays attempt (P.load s.mem) (history ev) (P.load s'.mem) := by
  cases h with
  | call | load => rfl
  | retry _ _ hm => exact hm.symm
  | quit _ ha => exact ⟨by rw [ha]; rfl, by rw [ha]; rfl⟩
  | store _ ha hm => exact ⟨by rw [ha]; rfl, by rw [ha]; exact hm.symm⟩

/-- Every run does what its operations do when each is one step, in the order in which
they return. -/
theorem loops_atomic [DecidableEq α] (hP : P.Lawful)
    (h : (loops ι P attempt).run s as = some (s', ev)) :
    Replays attempt (P.load s.mem) (history ev) (P.load s'.mem) :=
  loops_induction (Q := fun _ => True)
    (I := fun s' ev => Replays attempt (P.load s.mem) (history ev) (P.load s'.mem)) hP
    h (fun _ _ => trivial) rfl fun s₁ ev a s₂ ev' _ hI hs => by
      rw [history_append]
      exact replays_append.mpr ⟨P.load s₁.mem, hI, hs.replays⟩

/-! ## Calls and results of a thread -/

def callsBy (i : ι) (ev : List (Event ι ο ρ)) : List ο :=
  ev.filterMap fun
    | .called j op => if j = i then some op else none
    | _ => none

def returnsBy (i : ι) (ev : List (Event ι ο ρ)) : List (ο × ρ) :=
  (history ev).filterMap fun x => if x.1 = i then some x.2 else none

def Pc.pending : Pc ο α → List ο
  | .idle => []
  | .called op | .loaded op _ => [op]

theorem callsBy_append (i : ι) (ev ev' : List (Event ι ο ρ)) :
    callsBy i (ev ++ ev') = callsBy i ev ++ callsBy i ev' := List.filterMap_append

theorem returnsBy_append (i : ι) (ev ev' : List (Event ι ο ρ)) :
    returnsBy i (ev ++ ev') = returnsBy i ev ++ returnsBy i ev' := by
  rw [returnsBy, history_append, List.filterMap_append]
  rfl

/-- The number of times a compare-and-swap of `i` failed. -/
def retries (i : ι) (ev : List (Event ι ο ρ)) : Nat :=
  ev.countP fun
    | .retried j => j = i
    | _ => false

/-- A step changes nothing for the other threads but the cell. -/
theorem Step.beside (h : Step P attempt s a s' ev) (hi : a.thread ≠ i) :
    s'.pc i = s.pc i ∧ callsBy i ev = [] ∧ returnsBy i ev = [] ∧ retries i ev = 0 := by
  cases h with
  | call | quit | store | retry =>
    exact ⟨State.pc_goto_of_ne hi _ _, by simpa [callsBy, returnsBy, history, retries] using hi⟩
  | load => exact ⟨State.pc_goto_of_ne hi _ _, rfl, rfl, rfl⟩

theorem Step.own (h : Step P attempt s a s' ev) :
    (s.pc a.thread).pending ++ callsBy a.thread ev =
      (returnsBy a.thread ev).map Prod.fst ++ (s'.pc a.thread).pending := by
  cases h with
  | call hp | quit hp | store hp | retry hp | load hp =>
    simp [callsBy, returnsBy, history, hp, Pc.pending]

/-- Calls are answered in order, and a thread makes one call at a time. -/
theorem loops_answered [DecidableEq α] (hP : P.Lawful) {mem : μ}
    (h : (loops ι P attempt).run (start ι ο α mem) as = some (s', ev)) (i : ι) :
    callsBy i ev = (returnsBy i ev).map Prod.fst ++ (s'.pc i).pending := by
  refine loops_induction (Q := fun _ => True)
    (I := fun s ev => callsBy i ev = (returnsBy i ev).map Prod.fst ++ (s.pc i).pending) hP h
    (fun _ _ => trivial) rfl fun s₁ ev a s₂ ev' _ hI hs => ?_
  rw [callsBy_append, returnsBy_append, hI, List.map_append, List.append_assoc, List.append_assoc]
  congr 1
  rcases eq_or_ne a.thread i with rfl | hi
  · exact hs.own
  · obtain ⟨hpc, hcalls, hreturns, -⟩ := hs.beside hi
    rw [hpc, hcalls, hreturns, List.append_nil]
    rfl

/-! ## Retries -/

/-- The number of stores by other threads than `i`. -/
def storesBeside (i : ι) (ev : List (Event ι ο ρ)) : Nat :=
  ev.countP fun
    | .stored j _ _ => j ≠ i
    | _ => false

/-- The next compare-and-swap of the thread will fail. -/
def Pc.stale [DecidableEq α] (c : α) : Pc ο α → Nat
  | .loaded _ old => if c = old then 0 else 1
  | _ => 0

theorem Pc.stale_le_one [DecidableEq α] (c : α) (p : Pc ο α) : p.stale c ≤ 1 := by
  cases p with
  | idle | called => exact Nat.zero_le 1
  | loaded op old =>
    rw [Pc.stale]
    split
    · exact Nat.zero_le 1
    · exact Nat.le_refl 1

/-- A failure ends a staleness, and only the store of another thread begins one. -/
theorem Step.retries_le [DecidableEq α] (h : Step P attempt s a s' ev) (i : ι) :
    retries i ev + (s'.pc i).stale (P.load s'.mem) ≤
      (s.pc i).stale (P.load s.mem) + storesBeside i ev := by
  rcases eq_or_ne a.thread i with rfl | hi
  · cases h with
    | call | quit | store | load => simp [retries, Pc.stale]
    | retry hp hne _ => simp [retries, Pc.stale, hp, hne]
  · obtain ⟨hpc, -, -, hr⟩ := h.beside hi
    rw [hpc, hr, Nat.zero_add]
    cases h with
    | call | quit | load => exact Nat.le_add_right _ _
    | retry _ _ hm =>
      rw [State.mem_goto, hm]
      exact Nat.le_add_right _ _
    | @store j op new r mem hp ha hm =>
      have hone : storesBeside i [Event.stored j op r] = 1 := by simpa [storesBeside] using hi
      rw [hone]
      exact Nat.le_trans (Pc.stale_le_one _ _) (Nat.le_add_left _ _)

/-- A thread repeats its loop at most once for every store of another thread. -/
theorem loops_retries [DecidableEq α] (hP : P.Lawful) {mem : μ}
    (h : (loops ι P attempt).run (start ι ο α mem) as = some (s', ev)) (i : ι) :
    retries i ev ≤ storesBeside i ev := by
  have key := loops_induction (Q := fun _ => True)
    (I := fun s ev => retries i ev + (s.pc i).stale (P.load s.mem) ≤ storesBeside i ev) hP h
    (fun _ _ => trivial) (Nat.le_refl 0) fun s₁ ev a s₂ ev' _ hI hs => by
      have hle := hs.retries_le i
      simp only [retries, storesBeside, List.countP_append] at hI hle ⊢
      omega
  exact Nat.le_trans (Nat.le_add_right _ _) key

end Cas
