import Mathlib.Tactic.Common

/-!
# Loops with a bound on their passes

`whileLoop test body n s` runs `while (test) body` from the state `s` and gives up
(`none`) after `n` tests; a body without a result ends the loop without one, too. The
one rule about it proves that a loop ends, and what holds then: an invariant, which
keeps the body from failing, and a measure that every pass lowers. `Ends` is about programs
that hand such a bound to their loops.
-/

universe u

variable {σ : Type u}

def whileLoop (test : σ → Bool) (body : σ → Option σ) : Nat → σ → Option σ
  | 0, _ => none
  | n + 1, s => if test s then (body s).bind (whileLoop test body n) else some s

theorem whileLoop_total (test : σ → Bool) (body : σ → Option σ) (I : σ → Prop) (μ : σ → Nat)
    {n : Nat} {s : σ} (hI : I s) (hn : μ s < n)
    (hbody : ∀ s, I s → test s = true → ∃ t, body s = some t ∧ I t ∧ μ t < μ s) :
    ∃ t, whileLoop test body n s = some t ∧ I t ∧ test t = false := by
  induction n generalizing s with
  | zero => exact absurd hn (Nat.not_lt_zero _)
  | succ n ih =>
    unfold whileLoop
    split
    · next ht =>
      obtain ⟨t, hs, hIt, hμ⟩ := hbody s hI ht
      rw [hs]
      exact ih hIt (Nat.lt_of_lt_of_le hμ (Nat.le_of_lt_succ hn))
    · next ht => exact ⟨s, rfl, hI, Bool.eq_false_iff.mpr ht⟩

/-- `do body while (test)`. -/
def doWhileLoop (test : σ → Bool) (body : σ → Option σ) (n : Nat) (s : σ) : Option σ :=
  (body s).bind (whileLoop test body n)

/-- With enough passes, the program ends with `r`. -/
def Ends {α : Type u} (run : Nat → Option α) (r : α) : Prop := ∃ n, ∀ k, n ≤ k → run k = some r

theorem Ends.unique {α : Type u} {run : Nat → Option α} {r r' : α} (h : Ends run r)
    (h' : Ends run r') : r = r' := by
  obtain ⟨n, hn⟩ := h
  obtain ⟨n', hn'⟩ := h'
  have he := hn (max n n') (Nat.le_max_left _ _)
  rw [hn' _ (Nat.le_max_right _ _)] at he
  exact (Option.some.inj he).symm

theorem not_ends_of_none {α : Type u} {run : Nat → Option α} (h : ∀ n, run n = none) (r : α) :
    ¬ Ends run r := by
  rintro ⟨n, hn⟩
  exact Option.some_ne_none r ((hn n n.le_refl).symm.trans (h n))
