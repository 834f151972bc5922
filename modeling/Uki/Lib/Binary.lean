import Mathlib.Algebra.Group.Nat.Defs
import Mathlib.Data.Nat.Size
import Mathlib.Order.Bounds.Basic
import Mathlib.Tactic.Common

/-!
# Positions of set bits, and powers of two

The set bits of a number lie between the exponent of the power of two that divides it
with an odd quotient and the length of its binary representation, `Nat.size`. That
length also rounds to powers of two: `2 ^ (n.size - 1)` is the greatest one not above
`n`, `2 ^ (n - 1).size` the least one not below.
-/

namespace Binary

variable {n k : Nat}

/-- The positions of the bits of `n` that are set. -/
def setBits (n : Nat) : Set Nat := {i | n.testBit i = true}

theorem mem_setBits {i : Nat} : i ∈ setBits n ↔ n.testBit i = true := Iff.rfl

/-! ## The lowest and the highest bit -/

theorem isLeast_setBits {q : Nat} (hn : n = q * 2 ^ k) (hq : q % 2 = 1) :
    IsLeast (setBits n) k := by
  subst hn
  constructor
  · rw [mem_setBits, Nat.mul_comm, Nat.testBit_two_pow_mul, Nat.sub_self, Nat.testBit_zero, hq]
    simp
  · intro i hi
    rw [mem_setBits, Nat.mul_comm, Nat.testBit_two_pow_mul, Bool.and_eq_true,
      decide_eq_true_iff] at hi
    exact hi.1

theorem isGreatest_setBits (hn : 0 < n) : IsGreatest (setBits n) (n.size - 1) := by
  have hsize : n.size - 1 < n.size := Nat.sub_lt (Nat.size_pos.mpr hn) Nat.one_pos
  constructor
  · refine Nat.testBit_of_two_pow_le_and_two_pow_add_one_gt (Nat.lt_size.mp hsize) ?_
    rw [Nat.sub_add_cancel (Nat.size_pos.mpr hn)]
    exact Nat.lt_size_self n
  · intro i hi
    have hle : 2 ^ i ≤ n := Nat.ge_two_pow_of_testBit hi
    exact Nat.le_sub_one_of_lt (Nat.lt_size.mpr hle)

/-- One bit is set. -/
theorem lowest_eq_highest_iff {a b : Nat} (ha : IsLeast (setBits n) a)
    (hb : IsGreatest (setBits n) b) : a = b ↔ n.isPowerOfTwo := by
  constructor
  · rintro rfl
    refine ⟨a, Nat.eq_of_testBit_eq fun i => ?_⟩
    rw [Nat.testBit_two_pow, Bool.eq_iff_iff, decide_eq_true_iff]
    constructor
    · exact fun hi => le_antisymm (ha.2 hi) (hb.2 hi)
    · rintro rfl
      exact ha.1
  · rintro ⟨k, rfl⟩
    have honly {i : Nat} (hi : i ∈ setBits (2 ^ k)) : i = k := by
      rw [mem_setBits, Nat.testBit_two_pow, decide_eq_true_iff] at hi
      exact hi.symm
    rw [honly ha.1, honly hb.1]

/-- The bits above `b` do not change the lowest one, if it is below. -/
theorem lowest_of_mod {b : Nat} (h : IsLeast (setBits (n % 2 ^ b)) k) :
    IsLeast (setBits n) k := by
  have hmod (i : Nat) : i ∈ setBits (n % 2 ^ b) ↔ i < b ∧ i ∈ setBits n := by
    rw [mem_setBits, Nat.testBit_mod_two_pow, Bool.and_eq_true, decide_eq_true_iff, mem_setBits]
  obtain ⟨hkb, hk⟩ := (hmod k).mp h.1
  refine ⟨hk, fun i hi => ?_⟩
  rcases Nat.lt_or_ge i b with hib | hib
  · exact h.2 ((hmod i).mpr ⟨hib, hi⟩)
  · exact hkb.le.trans hib

theorem lowest_mul_two_pow (j : Nat) (h : IsLeast (setBits n) k) :
    IsLeast (setBits (n * 2 ^ j)) (k + j) := by
  have hmul (i : Nat) : i ∈ setBits (n * 2 ^ j) ↔ j ≤ i ∧ i - j ∈ setBits n := by
    rw [mem_setBits, Nat.mul_comm, Nat.testBit_two_pow_mul, Bool.and_eq_true, decide_eq_true_iff,
      mem_setBits]
  refine ⟨(hmul _).mpr ⟨Nat.le_add_left j k, by rw [Nat.add_sub_cancel]; exact h.1⟩, fun i hi => ?_⟩
  obtain ⟨hji, hi⟩ := (hmul i).mp hi
  exact (Nat.le_sub_iff_add_le hji).mp (h.2 hi)

/-! ## The length of the representation -/

theorem size_eq (hlow : 2 ^ k ≤ n) (hlt : n < 2 ^ (k + 1)) : n.size = k + 1 :=
  Nat.le_antisymm (Nat.size_le.mpr hlt) (Nat.lt_size.mpr hlow)

theorem size_div_two_pow (h : n / 2 ^ k ≠ 0) : n.size = (n / 2 ^ k).size + k := by
  have hk := Nat.two_pow_pos k
  have hpos : 0 < (n / 2 ^ k).size := Nat.size_pos.mpr (Nat.pos_of_ne_zero h)
  apply Nat.le_antisymm
  · rw [Nat.size_le, Nat.pow_add, ← Nat.div_lt_iff_lt_mul hk]
    exact Nat.lt_size_self _
  · have hlow : 2 ^ ((n / 2 ^ k).size - 1) ≤ n / 2 ^ k := Nat.lt_size.mp (Nat.sub_lt hpos one_pos)
    have hlt : (n / 2 ^ k).size - 1 + k < n.size := by
      rw [Nat.lt_size, Nat.pow_add]
      exact (Nat.le_div_iff_mul_le hk).mp hlow
    omega

/-- One less is shorter exactly for a power of two. -/
theorem size_sub_one (hn : 0 < n) :
    (n - 1).size = if n.isPowerOfTwo then n.size - 1 else n.size := by
  split
  · next h =>
    obtain ⟨k, rfl⟩ := h
    rw [Nat.size_pow, Nat.add_sub_cancel]
    cases k with
    | zero => rfl
    | succ k =>
      have hpow := Nat.two_pow_pos k
      exact size_eq (by rw [Nat.pow_succ]; omega) (Nat.sub_lt (Nat.two_pow_pos _) Nat.one_pos)
  · next h =>
    have hpos := Nat.size_pos.mpr hn
    have hlow : 2 ^ (n.size - 1) ≤ n := Nat.lt_size.mp (Nat.sub_lt hpos Nat.one_pos)
    have hne : n ≠ 2 ^ (n.size - 1) := fun he => h ⟨_, he⟩
    have hlt : n < 2 ^ (n.size - 1 + 1) := by
      rw [Nat.sub_add_cancel hpos]
      exact Nat.lt_size_self n
    rw [size_eq (k := n.size - 1) (by omega) (by omega), Nat.sub_add_cancel hpos]

/-! ## Rounding to powers of two -/

theorem isLeast_two_pow (hn : 0 < n) :
    IsLeast {p | p.isPowerOfTwo ∧ n ≤ p} (2 ^ (n - 1).size) := by
  refine ⟨⟨⟨_, rfl⟩, Nat.le_of_pred_lt (Nat.lt_size_self (n - 1))⟩, ?_⟩
  rintro p ⟨⟨k, rfl⟩, hle⟩
  exact Nat.pow_le_pow_right Nat.two_pos (Nat.size_le.mpr (by omega))

theorem isGreatest_two_pow (hn : 0 < n) :
    IsGreatest {p | p.isPowerOfTwo ∧ p ≤ n} (2 ^ (n.size - 1)) := by
  have hpos := Nat.size_pos.mpr hn
  refine ⟨⟨⟨_, rfl⟩, Nat.lt_size.mp (Nat.sub_lt hpos Nat.one_pos)⟩, ?_⟩
  rintro p ⟨⟨k, rfl⟩, hle⟩
  exact Nat.pow_le_pow_right Nat.two_pos (Nat.le_sub_one_of_lt (Nat.lt_size.mpr hle))

theorem least_eq_iff {p : Nat} (h : IsLeast {p | p.isPowerOfTwo ∧ n ≤ p} p) :
    p = n ↔ n.isPowerOfTwo := by
  constructor
  · rintro rfl
    exact h.1.1
  · exact fun hn => le_antisymm (h.2 ⟨hn, le_rfl⟩) h.1.2

theorem greatest_eq_iff {p : Nat} (h : IsGreatest {p | p.isPowerOfTwo ∧ p ≤ n} p) :
    p = n ↔ n.isPowerOfTwo := by
  constructor
  · rintro rfl
    exact h.1.1
  · exact fun hn => le_antisymm h.1.2 (h.2 ⟨hn, le_rfl⟩)

end Binary
