import Mathlib.Tactic.Common

/-!
# Loops along a pointer field

A loop over a linked structure has a pointer as its cursor and ends when the cursor is a
given pointer, be it the address of a head or null. `loop` moves the cursor after the
body has run, `safeLoop` has read where it moves to before, so that its body may unlink
the node.

A `Path` lists the nodes that are still to come. The rules say that a loop runs its body
on these nodes, in order, and ends: `loop_eq_foldlM` for a body that leaves the fields of
the nodes alone, `safeLoop_rule` for a body described by an invariant, and
`safeLoop_deleteIf` for a body that deletes nodes.
-/

universe u

namespace Walk

/-- How a loop follows pointers `κ` to nodes `ν` in memory `μ`. -/
structure Links (μ ν κ : Type u) where
  /-- where the loop ends -/
  stop : κ
  /-- the node at an address -/
  addr : κ → Option ν
  /-- the field that is followed -/
  field : μ → ν → κ

namespace Links

variable {μ ν κ σ : Type u}

section Loops

variable [DecidableEq κ] (L : Links μ ν κ) (body : σ → μ → ν → Option (σ × μ))

/-- `for (; pos != stop; pos = pos->field) body`. -/
def loop : Nat → σ → μ → κ → Option (σ × μ)
  | 0, _, _, _ => none
  | fuel + 1, e, m, pos =>
    if pos = L.stop then
      some (e, m)
    else do
      let x ← L.addr pos
      let (e, m) ← body e m x
      loop fuel e m (L.field m x)

/-- `for (; pos != stop; pos = n) body`, where `n` was set to `pos->field` when `pos` was
set. -/
def safeLoop : Nat → σ → μ → κ → Option (σ × μ)
  | 0, _, _, _ => none
  | fuel + 1, e, m, pos =>
    if pos = L.stop then
      some (e, m)
    else do
      let x ← L.addr pos
      let n := L.field m x
      let (e, m) ← body e m x
      safeLoop fuel e m n

end Loops

/-- The field leads from `p` through `xs` to the end. -/
def Path (L : Links μ ν κ) (m : μ) : κ → List ν → Prop
  | p, [] => p = L.stop
  | p, x :: xs => p ≠ L.stop ∧ L.addr p = some x ∧ Path L m (L.field m x) xs

variable {L : Links μ ν κ} {m m' : μ} {p : κ} {xs : List ν}

theorem Path.congr (h : L.Path m p xs) (hf : ∀ x ∈ xs, L.field m' x = L.field m x) :
    L.Path m' p xs := by
  induction xs generalizing p with
  | nil => exact h
  | cons x xs ih =>
    refine ⟨h.1, h.2.1, ?_⟩
    rw [hf x List.mem_cons_self]
    exact ih h.2.2 fun y hy => hf y (List.mem_cons_of_mem _ hy)

variable [DecidableEq κ] {body : σ → μ → ν → Option (σ × μ)} {fuel : Nat} {e : σ}

theorem loop_turn (hp : p ≠ L.stop) (hx : L.addr p = some x) (fuel : Nat) (e : σ) :
    L.loop body (fuel + 1) e m p =
      (body e m x).bind fun r => L.loop body fuel r.1 r.2 (L.field r.2 x) := by
  simp [loop, hp, hx]

/-- A cursor that addresses no node is a fault. -/
theorem loop_fault (hp : p ≠ L.stop) (ha : L.addr p = none) (fuel : Nat) (e : σ) (m : μ) :
    L.loop body fuel e m p = none := by
  cases fuel with
  | zero => rfl
  | succ fuel => simp [loop, hp, ha]

theorem safeLoop_turn (hp : p ≠ L.stop) (hx : L.addr p = some x) (fuel : Nat) (e : σ) :
    L.safeLoop body (fuel + 1) e m p =
      (body e m x).bind fun r => L.safeLoop body fuel r.1 r.2 (L.field m x) := by
  simp [safeLoop, hp, hx]

/-- More fuel changes no result. -/
theorem loop_add_fuel {r : σ × μ} (h : L.loop body fuel e m p = some r) (k : Nat) :
    L.loop body (k + fuel) e m p = some r := by
  induction fuel generalizing e m p with
  | zero => cases h
  | succ fuel ih =>
    by_cases hp : p = L.stop
    · rw [← h, ← Nat.add_assoc, hp]
      simp [loop]
    · cases ha : L.addr p with
      | none =>
        rw [loop_fault hp ha] at h
        cases h
      | some x =>
        rw [loop_turn hp ha] at h
        obtain ⟨r₁, hb, hr⟩ := Option.bind_eq_some_iff.mp h
        rw [← Nat.add_assoc, loop_turn hp ha, hb, Option.bind_some]
        exact ih hr

/-- The body has to leave a path through the nodes that are still to come, from where the
field of the node led before it ran. -/
theorem safeLoop_rule {I : List ν → σ → μ → Prop}
    (hbody : ∀ x xs e m, I (x :: xs) e m → ∃ e' m', body e m x = some (e', m') ∧
      L.Path m' (L.field m x) xs ∧ I xs e' m')
    (hp : L.Path m p xs) (h0 : I xs e m) (hf : xs.length < fuel) :
    ∃ e' m', L.safeLoop body fuel e m p = some (e', m') ∧ I [] e' m' := by
  induction xs generalizing fuel e m p with
  | nil =>
    obtain ⟨fuel, rfl⟩ := Nat.exists_eq_add_one_of_ne_zero (Nat.ne_of_gt hf)
    have hp : p = L.stop := hp
    exact ⟨e, m, by simp [safeLoop, hp], h0⟩
  | cons x xs ih =>
    obtain ⟨fuel, rfl⟩ := Nat.exists_eq_add_one_of_ne_zero (Nat.ne_of_gt (Nat.zero_lt_of_lt hf))
    obtain ⟨e₁, m₁, hb, hp₁, h₁⟩ := hbody x xs e m h0
    rw [safeLoop_turn hp.1 hp.2.1, hb]
    exact ih hp₁ h₁ (Nat.lt_of_succ_lt_succ hf)

/-- A body that leaves the fields alone is run on each node, in order, and may fail. -/
theorem loop_eq_foldlM
    (hbody : ∀ e m x e' m', body e m x = some (e', m') → ∀ y ∈ xs, L.field m' y = L.field m y)
    (hp : L.Path m p xs) (hf : xs.length < fuel) :
    L.loop body fuel e m p = xs.foldlM (fun s x => body s.1 s.2 x) (e, m) := by
  induction xs generalizing fuel e m p with
  | nil =>
    obtain ⟨fuel, rfl⟩ := Nat.exists_eq_add_one_of_ne_zero (Nat.ne_of_gt hf)
    have hp : p = L.stop := hp
    simp [loop, hp]
  | cons x xs ih =>
    obtain ⟨fuel, rfl⟩ := Nat.exists_eq_add_one_of_ne_zero (Nat.ne_of_gt (Nat.zero_lt_of_lt hf))
    rw [loop_turn hp.1 hp.2.1, List.foldlM_cons]
    cases hb : body e m x with
    | none => rfl
    | some r =>
      obtain ⟨e₁, m₁⟩ := r
      have hkeep := hbody e m x e₁ m₁ hb
      refine ih (fun e m x e' m' hb y hy => hbody e m x e' m' hb y (List.mem_cons_of_mem _ hy)) ?_
        (Nat.lt_of_succ_lt_succ hf)
      rw [hkeep x List.mem_cons_self]
      exact hp.2.2.congr fun y hy => hkeep y (List.mem_cons_of_mem _ hy)

end Links

/-! ## Deleting on the way -/

section Delete

variable {μ ν κ : Type u}

/-- `if (p(pos)) del(pos);`, with the nodes deleted so far. -/
def deleteIf (p : ν → Bool) (del : μ → ν → Option μ) (deleted : List ν) (m : μ) (x : ν) :
    Option (List ν × μ) :=
  if p x then do
    let m ← del m x
    some (deleted ++ [x], m)
  else
    some (deleted, m)

variable {L : Links μ ν κ} {m m' : μ} {p : ν → Bool} {del : μ → ν → Option μ} {x : ν}

theorem deleteIf_of_true (hp : p x = true) (hd : del m x = some m') (deleted : List ν) :
    deleteIf p del deleted m x = some (deleted ++ [x], m') := by
  simp [deleteIf, hp, hd]

theorem deleteIf_of_false (hp : p x = false) (deleted : List ν) :
    deleteIf p del deleted m x = some (deleted, m) := by
  simp [deleteIf, hp]

variable [DecidableEq κ] {fuel : Nat} {A B : List ν}

/-- A plain loop up to its first deletion: it goes on from what the node holds then. -/
theorem loop_deleteIf_first {c : κ} (hc : L.Path m c (A ++ x :: B)) (hA : ∀ y ∈ A, p y = false)
    (hp : p x = true) (hd : del m x = some m') (deleted : List ν) (fuel : Nat) :
    L.loop (deleteIf p del) (A.length + (fuel + 1)) deleted m c =
      L.loop (deleteIf p del) fuel (deleted ++ [x]) m' (L.field m' x) := by
  induction A generalizing c with
  | nil =>
    rw [List.length_nil, Nat.zero_add, Links.loop_turn hc.1 hc.2.1, deleteIf_of_true hp hd,
      Option.bind_some]
  | cons y A ih =>
    have hlen : (y :: A).length + (fuel + 1) = (A.length + (fuel + 1)) + 1 := by
      rw [List.length_cons, Nat.add_right_comm]
    rw [hlen, Links.loop_turn hc.1 hc.2.1, deleteIf_of_false (hA y List.mem_cons_self),
      Option.bind_some]
    exact ih hc.2.2 fun z hz => hA z (List.mem_cons_of_mem _ hz)

/-- A plain loop with nothing to delete. -/
theorem loop_deleteIf_none {c : κ} (hc : L.Path m c B) (hB : ∀ y ∈ B, p y = false)
    (hf : B.length < fuel) : L.loop (deleteIf p del) fuel [] m c = some ([], m) := by
  induction B generalizing c fuel with
  | nil =>
    obtain ⟨fuel, rfl⟩ := Nat.exists_eq_add_one_of_ne_zero (Nat.ne_of_gt hf)
    have hc : c = L.stop := hc
    simp [Links.loop, hc]
  | cons y B ih =>
    obtain ⟨fuel, rfl⟩ := Nat.exists_eq_add_one_of_ne_zero (Nat.ne_of_gt (Nat.zero_lt_of_lt hf))
    rw [Links.loop_turn hc.1 hc.2.1, deleteIf_of_false (hB y List.mem_cons_self), Option.bind_some]
    exact ih hc.2.2 (fun z hz => hB z (List.mem_cons_of_mem _ hz)) (Nat.lt_of_succ_lt_succ hf)

variable {c : List ν → κ} {J : List ν → List ν → μ → Prop}

/-- `J A B` says that the nodes that were met and kept are `A` and those to come `B`. -/
theorem safeLoop_deleteIf (hpath : ∀ A B m, J A B m → L.Path m (c B) B)
    (hfield : ∀ A x B m, J A (x :: B) m → L.field m x = c B)
    (hkeep : ∀ A x B m, J A (x :: B) m → J (A ++ [x]) B m)
    (hdel : ∀ A x B m, J A (x :: B) m → ∃ m', del m x = some m' ∧ J A B m')
    (h : J A B m) (hf : B.length < fuel) :
    ∃ m', L.safeLoop (deleteIf p del) fuel [] m (c B) = some (B.filter p, m') ∧
      J (A ++ B.filter fun x => !p x) [] m' := by
  let I (rest deleted : List ν) (m : μ) : Prop :=
    ∃ kept, deleted ++ rest.filter p = B.filter p ∧
      kept ++ rest.filter (fun x => !p x) = B.filter (fun x => !p x) ∧ J (A ++ kept) rest m
  have h0 : I B [] m := ⟨[], rfl, rfl, by rwa [List.append_nil]⟩
  have hstep (x : ν) (rest deleted : List ν) (m : μ) (hI : I (x :: rest) deleted m) :
      ∃ deleted' m', deleteIf p del deleted m x = some (deleted', m') ∧
        L.Path m' (L.field m x) rest ∧ I rest deleted' m' := by
    obtain ⟨kept, hdeleted, hkept, hrep⟩ := hI
    rw [hfield _ _ _ _ hrep]
    cases hp : p x with
    | true =>
      obtain ⟨m', hm', hrep'⟩ := hdel _ _ _ _ hrep
      refine ⟨deleted ++ [x], m', deleteIf_of_true hp hm' _, hpath _ _ _ hrep', kept, ?_, ?_, hrep'⟩
      · simpa [hp] using hdeleted
      · simpa [hp] using hkept
    | false =>
      have hrep' := hkeep _ _ _ _ hrep
      refine ⟨deleted, m, deleteIf_of_false hp _, hpath _ _ _ hrep', kept ++ [x], ?_, ?_, ?_⟩
      · simpa [hp] using hdeleted
      · simpa [hp] using hkept
      · rwa [← List.append_assoc]
  obtain ⟨deleted, m', hrun, kept, hdeleted, hkept, hrep⟩ :=
    Links.safeLoop_rule hstep (hpath _ _ _ h) h0 hf
  refine ⟨m', ?_, ?_⟩
  · rw [hrun, ← hdeleted, List.filter_nil, List.append_nil]
  · rw [← hkept, List.filter_nil, List.append_nil]
    exact hrep

end Delete

end Walk
