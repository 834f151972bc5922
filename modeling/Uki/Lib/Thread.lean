import Mathlib.Data.List.Nodup
import Mathlib.Tactic.Common

/-!
# Threads of a tie relation

A thread is what a null-terminated list with back links looks like once the
memory it lives in is forgotten. The nodes of a thread are sites, each with one
forward field: `T a (some b)` reads "the field of `a` points at `b` and `b` points
back at that field", and `T a none` reads "the field of `a` is null". `Thread T a xs`
says that the fields lead from `a` through exactly `xs` to null.

Every surgery is a few calls of one primitive, `retie T a q`, which writes the
field of `a` and the back link of the node it then points at. Three rules say what
the calls achieve:

* `Thread.insert`: two calls put a new site between two neighbours;
* `Thread.cut`: one call takes a site out;
* `Thread.move`: two calls give the whole thread to another first site.
-/

namespace TieThread

variable {σ : Type*} {T S : σ → Option σ → Prop} {a b n p : σ} {q : Option σ} {xs A B : List σ}

/-- The fields lead from `a` through `xs` to null. -/
def Thread (T : σ → Option σ → Prop) : σ → List σ → Prop
  | a, [] => T a none
  | a, x :: xs => T a (some x) ∧ Thread T x xs

/-- The relation after the field of `a` and the back link of `q` were written. The
old predecessor of `q` loses its tie; nobody else does when `q` is null. -/
def retie (T : σ → Option σ → Prop) (a : σ) (q : Option σ) : σ → Option σ → Prop := fun x y =>
  (x = a ∧ y = q) ∨ (x ≠ a ∧ (y = none ∨ y ≠ q) ∧ T x y)

theorem retie_self : retie T a q a q := .inl ⟨rfl, rfl⟩

theorem retie_of_ne {x : σ} {y : Option σ} (hx : x ≠ a) (hy : y = none ∨ y ≠ q) (h : T x y) :
    retie T a q x y := .inr ⟨hx, hy, h⟩

theorem retie_mono (hTS : ∀ x y, T x y → S x y) {x : σ} {y : Option σ} (h : retie T a q x y) :
    retie S a q x y :=
  h.imp_right fun ⟨hx, hy, hxy⟩ => ⟨hx, hy, hTS x y hxy⟩

/-- The field of the first site points at the head of what follows. -/
theorem Thread.head (h : Thread T a xs) : T a xs.head? := by
  cases xs with
  | nil => exact h
  | cons x xs => exact h.1

theorem Thread.mono (h : Thread T a xs)
    (hl : ∀ x y, x ∈ a :: xs → (∀ z, y = some z → z ∈ xs) → T x y → S x y) : Thread S a xs := by
  induction xs generalizing a with
  | nil => exact hl a none List.mem_cons_self (fun z hz => nomatch hz) h
  | cons x xs ih =>
    refine ⟨hl a (some x) List.mem_cons_self ?_ h.1, ih h.2 fun y z hy hz => hl y z ?_ ?_⟩
    · intro z hz
      cases hz
      exact List.mem_cons_self
    · exact List.mem_cons_of_mem _ hy
    · exact fun w hw => List.mem_cons_of_mem _ (hz w hw)

/-- A thread that the call does not meet survives it. -/
theorem Thread.frame (h : Thread T a xs) (hp : p ∉ a :: xs) (hq : ∀ z, q = some z → z ∉ xs) :
    Thread (retie T p q) a xs := by
  refine h.mono fun x y hx hy hxy => retie_of_ne ?_ ?_ hxy
  · rintro rfl
    exact hp hx
  · cases y with
    | none => exact .inl rfl
    | some y => exact .inr fun he => hq y he.symm (hy y rfl)

/-- What follows a prefix of a thread is a thread from its last site. -/
theorem Thread.drop (h : Thread T a (A ++ B)) : Thread T (A.getLastD a) B := by
  induction A generalizing a with
  | nil => exact h
  | cons x A ih =>
    rw [List.getLastD_cons]
    exact ih h.2

/-! ## Surgeries -/

/-- One call takes the site `n` out of the thread. -/
theorem Thread.cut (h : Thread T a (A ++ n :: B)) (hn : (a :: (A ++ n :: B)).Nodup) :
    Thread (retie T (A.getLastD a) B.head?) a (A ++ B) := by
  induction A generalizing a with
  | nil =>
    obtain ⟨ha, hn⟩ := List.nodup_cons.mp hn
    obtain ⟨-, hB⟩ := List.nodup_cons.mp hn
    cases B with
    | nil => exact retie_self
    | cons b B =>
      -- `b` has lost its old predecessor `n`, which is no longer in the thread
      refine ⟨retie_self, h.2.2.frame (fun hm => ha (List.mem_cons_of_mem _ hm)) fun z hz => ?_⟩
      cases hz
      exact (List.nodup_cons.mp hB).1
  | cons x A ih =>
    obtain ⟨ha, hn⟩ := List.nodup_cons.mp hn
    have hne : ∀ y, y ∈ x :: A → a ≠ y := by
      rintro y hy rfl
      exact ha (List.mem_append_left (n :: B) hy)
    rw [List.getLastD_cons]
    refine ⟨retie_of_ne (hne _ List.getLastD_mem_cons) (.inr fun he => ?_) h.1, ih h.2 hn⟩
    have hm : x ∈ B := List.mem_of_mem_head? he.symm
    exact (List.nodup_cons.mp hn).1 (List.mem_append_right _ (List.mem_cons_of_mem _ hm))

/-- Two calls put the foreign site `n` after the prefix `A`. -/
theorem Thread.insert (h : Thread T a (A ++ B)) (hn : (a :: (A ++ B)).Nodup)
    (hm : n ∉ a :: (A ++ B)) :
    Thread (retie (retie T n B.head?) (A.getLastD a) (some n)) a (A ++ n :: B) := by
  induction A generalizing a with
  | nil =>
    obtain ⟨ha, hB⟩ := List.nodup_cons.mp hn
    have hna : n ≠ a := fun he => hm (he ▸ List.mem_cons_self)
    have hnB : n ∉ B := fun h => hm (List.mem_cons_of_mem _ h)
    refine ⟨retie_self, ?_⟩
    have hfr : Thread (retie T n B.head?) n B := by
      cases B with
      | nil => exact retie_self
      | cons b B =>
        refine ⟨retie_self, h.2.frame hnB fun z hz => ?_⟩
        cases hz
        exact (List.nodup_cons.mp hB).1
    refine hfr.frame ?_ fun z hz => ?_
    · intro hmem
      rcases List.mem_cons.mp hmem with he | hmem
      · exact hna he.symm
      · exact ha hmem
    · cases hz
      exact hnB
  | cons x A ih =>
    obtain ⟨ha, hn⟩ := List.nodup_cons.mp hn
    have hne : ∀ y, y ∈ x :: A → a ≠ y := by
      rintro y hy rfl
      exact ha (List.mem_append_left B hy)
    have hxn : x ≠ n := fun he => hm (he ▸ List.mem_cons_of_mem _ List.mem_cons_self)
    rw [List.getLastD_cons]
    refine ⟨retie_of_ne (hne _ List.getLastD_mem_cons) (.inr ?_) ?_, ih h.2 hn fun hmem => ?_⟩
    · exact fun he => hxn (Option.some.inj he)
    · refine retie_of_ne (fun he => hm (he ▸ List.mem_cons_self)) (.inr fun he => ?_) h.1
      exact (List.nodup_cons.mp hn).1 (List.mem_append_right _ (List.mem_of_mem_head? he.symm))
    · exact hm (List.mem_cons_of_mem _ hmem)

/-- Two calls give the whole thread to the foreign site `b` and leave `a` with none. -/
theorem Thread.move (h : Thread T a xs) (hn : (a :: xs).Nodup) (hb : b ∉ a :: xs) :
    Thread (retie (retie T b xs.head?) a none) b xs ∧
      Thread (retie (retie T b xs.head?) a none) a [] := by
  obtain ⟨ha, hn⟩ := List.nodup_cons.mp hn
  refine ⟨?_, retie_self⟩
  have hfr : Thread (retie T b xs.head?) b xs := by
    cases xs with
    | nil => exact retie_self
    | cons x xs =>
      refine ⟨retie_self, h.2.frame (fun hm => hb (List.mem_cons_of_mem _ hm)) fun z hz => ?_⟩
      cases hz
      exact (List.nodup_cons.mp hn).1
  refine hfr.frame ?_ fun z hz => nomatch hz
  intro hm
  rcases List.mem_cons.mp hm with he | hm
  · exact hb (he ▸ List.mem_cons_self)
  · exact ha hm

end TieThread
