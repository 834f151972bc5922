import Mathlib.Data.List.Induction
import Mathlib.Tactic.Common

/-!
# Deterministic machines with observations

A machine takes labelled steps; a step may be disabled, and an enabled one
yields the next state together with the events it shows. The module fixes runs
over lists of labels and the rules proofs about runs use: composition
(`run_append`), the invariant rule (`run_induction`), whose invariant may speak
about the events seen so far, the same rule for runs whose steps meet a condition
(`run_induction_meets`) and for invariants that also see the labels taken
(`run_induction_labels`), the simulation rule (`run_simulates`), and the ranking
rule (`run_countP_le`).
-/

universe u v w

/-- `step s a` is `none` when `a` is disabled in `s`. -/
structure Machine (σ : Type u) (α : Type v) (ε : Type w) where
  step : σ → α → Option (σ × List ε)

namespace Machine

variable {σ : Type u} {α : Type v} {ε : Type w} {M : Machine σ α ε}

/-- Take the steps one after another and collect what they show. -/
def run (M : Machine σ α ε) : σ → List α → Option (σ × List ε)
  | s, [] => some (s, [])
  | s, a :: as =>
    match M.step s a with
    | none => none
    | some (t, es) =>
      match run M t as with
      | none => none
      | some (u, es') => some (u, es ++ es')

@[simp] theorem run_nil (s : σ) : M.run s [] = some (s, []) := rfl

theorem run_cons {s u : σ} {a : α} {as : List α} {es : List ε} :
    M.run s (a :: as) = some (u, es) ↔
      ∃ t es₁ es₂, M.step s a = some (t, es₁) ∧ M.run t as = some (u, es₂) ∧ es = es₁ ++ es₂ := by
  simp only [run]
  constructor
  · intro h
    split at h
    · cases h
    · next t es₁ hs =>
      split at h
      · cases h
      · next u' es₂ hr =>
        cases h
        exact ⟨t, es₁, es₂, hs, hr, rfl⟩
  · rintro ⟨t, es₁, es₂, hs, hr, rfl⟩
    rw [hs]
    simp only [hr]

theorem run_append {s u : σ} {as bs : List α} {es : List ε} :
    M.run s (as ++ bs) = some (u, es) ↔
      ∃ t es₁ es₂, M.run s as = some (t, es₁) ∧ M.run t bs = some (u, es₂) ∧ es = es₁ ++ es₂ := by
  induction as generalizing s es with
  | nil => simp
  | cons a as ih =>
    rw [List.cons_append, run_cons]
    constructor
    · rintro ⟨t, es₁, es₂, hs, hr, rfl⟩
      obtain ⟨t', es₃, es₄, hr₁, hr₂, rfl⟩ := ih.mp hr
      exact ⟨t', es₁ ++ es₃, es₄, run_cons.mpr ⟨t, es₁, es₃, hs, hr₁, rfl⟩, hr₂,
        (List.append_assoc _ _ _).symm⟩
    · rintro ⟨t', es₁, es₂, hr₁, hr₂, rfl⟩
      obtain ⟨t, es₃, es₄, hs, hr, rfl⟩ := run_cons.mp hr₁
      exact ⟨t, es₃, es₄ ++ es₂, hs, ih.mpr ⟨t', es₄, es₂, hr, hr₂, rfl⟩, List.append_assoc _ _ _⟩

theorem run_singleton {s u : σ} {a : α} {es : List ε} :
    M.run s [a] = some (u, es) ↔ M.step s a = some (u, es) := by
  rw [run_cons]
  simp

/-- The invariant rule: what holds at the start and is kept by every step with
a label in `Q` holds after every run over such labels. -/
theorem run_induction {P : σ → List ε → Prop} {Q : α → Prop} {s u : σ} {as : List α} {es : List ε}
    (h : M.run s as = some (u, es)) (hQ : ∀ a ∈ as, Q a) (h0 : P s [])
    (hstep : ∀ t es a t' es', Q a → P t es → M.step t a = some (t', es') → P t' (es ++ es')) :
    P u es := by
  induction as using List.reverseRecOn generalizing u es with
  | nil =>
    cases h
    exact h0
  | append_singleton as a ih =>
    obtain ⟨t, es₁, es₂, hr, hs, rfl⟩ := run_append.mp h
    have hP := ih hr fun b hb => hQ b (by simp [hb])
    exact hstep t es₁ a u es₂ (hQ a (by simp)) hP (run_singleton.mp hs)

/-- The simulation rule: when related states take the same steps and show the same
events, they have the same runs. -/
theorem run_simulates {R : σ → σ → Prop} {s s' u : σ} {as : List α} {es : List ε}
    (hstep : ∀ s s' a t es, R s s' → M.step s a = some (t, es) →
      ∃ t', M.step s' a = some (t', es) ∧ R t t')
    (hR : R s s') (h : M.run s as = some (u, es)) : ∃ u', M.run s' as = some (u', es) ∧ R u u' := by
  induction as generalizing s s' es with
  | nil =>
    cases h
    exact ⟨s', rfl, hR⟩
  | cons a as ih =>
    obtain ⟨t, es₁, es₂, hs, hr, rfl⟩ := run_cons.mp h
    obtain ⟨t', hs', hR'⟩ := hstep s s' a t es₁ hR hs
    obtain ⟨u', hr', hRu⟩ := ih hR' hr
    exact ⟨u', run_cons.mpr ⟨t', es₁, es₂, hs', hr', rfl⟩, hRu⟩

/-- Every step of the run of `as` from `s` meets the condition `C`. -/
def Meets (M : Machine σ α ε) (C : σ → α → Prop) : σ → List α → Prop
  | _, [] => True
  | s, a :: as => C s a ∧ ∀ t es, M.step s a = some (t, es) → Meets M C t as

theorem Meets.mono {C D : σ → α → Prop} (h : ∀ s a, C s a → D s a) {s : σ} {as : List α}
    (hC : M.Meets C s as) : M.Meets D s as := by
  induction as generalizing s with
  | nil => trivial
  | cons a as ih => exact ⟨h s a hC.1, fun t es hs => ih (hC.2 t es hs)⟩

theorem meets_of_run {C : σ → α → Prop} {s : σ} {as : List α}
    (h : ∀ bs a cs t es, as = bs ++ a :: cs → M.run s bs = some (t, es) → C t a) :
    M.Meets C s as := by
  induction as generalizing s with
  | nil => trivial
  | cons a as ih =>
    refine ⟨h [] a as s [] rfl rfl, fun t es hs => ih fun bs b cs u fs he hr => ?_⟩
    rw [he] at h
    exact h (a :: bs) b cs u (es ++ fs) rfl (run_cons.mpr ⟨t, es, fs, hs, hr, rfl⟩)

/-- The condition is checked by running the machine. -/
instance decidableMeets {C : σ → α → Prop} [∀ s a, Decidable (C s a)] :
    (s : σ) → (as : List α) → Decidable (M.Meets C s as)
  | _, [] => isTrue trivial
  | s, a :: as =>
    match hs : M.step s a with
    | none => decidable_of_iff (C s a) ⟨fun h => ⟨h, fun _ _ he => by simp [hs] at he⟩, And.left⟩
    | some (t, es) =>
      have : Decidable (M.Meets C t as) := decidableMeets t as
      decidable_of_iff (C s a ∧ M.Meets C t as)
        ⟨fun h => ⟨h.1, fun t' es' he => by
          rw [hs] at he
          cases he
          exact h.2⟩, fun h => ⟨h.1, h.2 t es hs⟩⟩

/-- The invariant rule for runs whose steps meet a condition on the state. -/
theorem run_induction_meets {P : σ → List ε → Prop} {C : σ → α → Prop} {Q : α → Prop} {s u : σ}
    {as : List α} {es fs : List ε} (h : M.run s as = some (u, es)) (hC : M.Meets C s as)
    (hQ : ∀ a ∈ as, Q a) (h0 : P s fs)
    (hstep : ∀ t fs a t' es', C t a → Q a → P t fs → M.step t a = some (t', es') →
      P t' (fs ++ es')) :
    P u (fs ++ es) := by
  induction as generalizing s es fs with
  | nil =>
    cases h
    rwa [List.append_nil]
  | cons a as ih =>
    obtain ⟨t, es₁, es₂, hs, hr, rfl⟩ := run_cons.mp h
    rw [← List.append_assoc]
    exact ih hr (hC.2 t es₁ hs) (fun b hb => hQ b (List.mem_cons_of_mem _ hb))
      (hstep s fs a t es₁ hC.1 (hQ a List.mem_cons_self) h0 hs)

/-- The same rule for an invariant that also sees the labels taken so far. -/
theorem run_induction_labels {P : σ → List α → List ε → Prop} {C : σ → α → Prop} {s u : σ}
    {as : List α} {es : List ε} (h : M.run s as = some (u, es)) (hC : M.Meets C s as)
    (h0 : P s [] [])
    (hstep : ∀ t as es a t' es', C t a → P t as es → M.step t a = some (t', es') →
      P t' (as ++ [a]) (es ++ es')) :
    P u as es := by
  have key (bs : List α) (fs : List ε) (h0 : P s bs fs) : P u (bs ++ as) (fs ++ es) := by
    clear * - h hC h0 hstep
    induction as generalizing s es bs fs with
    | nil =>
      cases h
      simpa using h0
    | cons a as ih =>
      obtain ⟨t, es₁, es₂, hs, hr, rfl⟩ := run_cons.mp h
      have hP := ih hr (hC.2 t es₁ hs) _ _ (hstep s bs fs a t es₁ hC.1 h0 hs)
      rwa [List.append_assoc, List.append_assoc, List.singleton_append] at hP
  exact key [] [] h0

/-- The ranking rule: when every step keeps a rank and the steps counted by `p`
lower it, a run takes at most as many of these as the rank it starts with. -/
theorem run_countP_le {R : σ → Nat → Prop} {p : α → Bool} {Q : α → Prop} {s u : σ} {as : List α}
    {es : List ε} {n : Nat} (h : M.run s as = some (u, es)) (hQ : ∀ a ∈ as, Q a) (hR : R s n)
    (hstep : ∀ t k a t' es', Q a → R t k → M.step t a = some (t', es') →
      ∃ k', R t' k' ∧ k' + (if p a then 1 else 0) ≤ k) :
    ∃ k, R u k ∧ k + as.countP p ≤ n := by
  induction as generalizing s n es with
  | nil =>
    cases h
    exact ⟨n, hR, by simp⟩
  | cons a as ih =>
    obtain ⟨t, es₁, es₂, hs, hr, -⟩ := run_cons.mp h
    obtain ⟨k', hR', hk'⟩ := hstep s n a t es₁ (hQ a List.mem_cons_self) hR hs
    obtain ⟨k, hk, hle⟩ := ih hr (fun b hb => hQ b (List.mem_cons_of_mem _ hb)) hR'
    refine ⟨k, hk, ?_⟩
    rw [List.countP_cons]
    omega

/-- A state reached by some run from `s₀`. -/
def Reachable (M : Machine σ α ε) (s₀ s : σ) : Prop := ∃ as es, M.run s₀ as = some (s, es)

theorem Reachable.refl (s : σ) : M.Reachable s s := ⟨[], [], rfl⟩

theorem Reachable.induction {P : σ → Prop} {s₀ s : σ} (hr : M.Reachable s₀ s) (h0 : P s₀)
    (hstep : ∀ t a t' es, P t → M.step t a = some (t', es) → P t') : P s := by
  obtain ⟨as, es, h⟩ := hr
  exact run_induction (P := fun s _ => P s) (Q := fun _ => True) h (fun _ _ => trivial) h0
    fun t _ a t' es' _ hP hs => hstep t a t' es' hP hs

end Machine
