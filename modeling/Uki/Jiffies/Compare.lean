import Uki.Long

/-!
# Comparing ticks

The comparison macros of `jiffies.h` test the sign of a difference. Times are points on a
circle, and `ahead` is the way from one to the other. The macros mean what they say up to
half a turn; the results say what they mean at half a turn and beyond. The macros for
`jiffies_64` are the same on `__u64`, which is the `unsigned long` of 64 bits.

Results:
1. `time_compare_exact`: two times are before and after each other half a turn apart,
   `time_after_eq` is not implied by `time_after` there, and the macros are transitive
   until two steps add up to half a turn.
2. `time_in_range_exact_iff`: the range tests hold of the times in a range if and only if
   it is shorter than half a turn, or not longer for the half-open one.
-/

set_option linter.style.nameCheck false

namespace Uki

variable {m : LongModel} {a b c : ULong m}

/-! ## `jiffies.h` -/

def timeBeforeEq (a b : ULong m) : Bool := timeAfterEq b a

def timeInRange (a b c : ULong m) : Bool := timeAfterEq a b && timeBeforeEq a c

def timeInRangeOpen (a b c : ULong m) : Bool := timeAfterEq a b && timeBefore a c

/-! ## Ways around the circle -/

theorem ahead_lt (a b : ULong m) : ahead a b < 2 * half m := by
  rw [two_half]
  exact (b - a).isLt

/-- The way there and the way back are one turn. -/
theorem ahead_back (h : a ≠ b) : ahead a b + ahead b a = 2 * half m := by
  have hpos : ahead b a ≠ 0 := fun h0 => h (ahead_eq_zero.mp h0)
  have ha := a.isLt
  have hb := b.isLt
  rw [two_half]
  simp only [ahead, BitVec.toNat_sub] at *
  cases m <;> simp only [LongModel.bits] at * <;> omega

/-- Two ways are one way, up to a turn. -/
theorem ahead_trans (a b c : ULong m) :
    ahead a b + ahead b c = ahead a c ∨ ahead a b + ahead b c = ahead a c + 2 * half m := by
  have ha := a.isLt
  have hb := b.isLt
  have hc := c.isLt
  rw [two_half]
  simp only [ahead, BitVec.toNat_sub] at *
  cases m <;> simp only [LongModel.bits] at * <;> omega

/-! ## The order -/

/-- The comparisons are those of an order around a time, but for the time half a turn
away. -/
theorem time_compare_exact (a b : ULong m) :
    ((timeAfter a b = true ∧ timeBefore a b = true) ↔ ahead a b = half m) ∧
      ((timeAfter a b = true ∧ timeAfterEq a b = false) ↔ ahead a b = half m) ∧
      ((timeAfter a b = false ∧ timeBefore a b = false) ↔ a = b) ∧
      ∀ c, timeAfterEq a b = true → timeAfterEq b c = true →
        (timeAfterEq a c = true ↔ ahead c b + ahead b a < half m) := by
  have hhalf := le_half m
  have hab := ahead_lt a b
  have hback : (a = b ∧ ahead a b = 0 ∧ ahead b a = 0) ∨
      (a ≠ b ∧ ahead a b + ahead b a = 2 * half m) := by
    rcases eq_or_ne a b with rfl | hne
    · exact .inl ⟨rfl, ahead_self a, ahead_self a⟩
    · exact .inr ⟨hne, ahead_back hne⟩
  simp only [timeBefore, ← Bool.not_eq_true, timeAfter_iff, timeAfterEq_iff]
  refine ⟨by omega, by omega, ?_, fun c hb hc => ?_⟩
  · rcases hback with ⟨he, h0, h0'⟩ | ⟨hne, hsum⟩
    · exact iff_of_true (by omega) he
    · exact iff_of_false (by omega) hne
  · have htrans := ahead_trans c b a
    have hca := ahead_lt c a
    omega

/-- Two times half a turn apart. -/
example : timeAfter (0 : ULong .long32) 2147483648 = true ∧
    timeBefore (0 : ULong .long32) 2147483648 = true := by decide

/-! ## Ranges -/

theorem timeInRange_iff :
    timeInRange a b c = true ↔ ahead b a < half m ∧ ahead a c < half m := by
  rw [timeInRange, timeBeforeEq, Bool.and_eq_true, timeAfterEq_iff, timeAfterEq_iff]

theorem timeInRangeOpen_iff :
    timeInRangeOpen a b c = true ↔ ahead b a < half m ∧ half m ≤ ahead c a := by
  rw [timeInRangeOpen, timeBefore, Bool.and_eq_true, timeAfterEq_iff, timeAfter_iff]

/-- The range tests are right for every time if and only if the range is shorter than half
a turn, or not longer when its end is left out. -/
theorem time_in_range_exact_iff (b c : ULong m) :
    ((∀ a, timeInRange a b c = true ↔ ahead b a ≤ ahead b c) ↔ ahead b c < half m) ∧
      ((∀ a, timeInRangeOpen a b c = true ↔ ahead b a < ahead b c) ↔ ahead b c ≤ half m) := by
  have hhalf := le_half m
  have hbc := ahead_lt b c
  refine ⟨⟨fun hall => ?_, fun hlt a => ?_⟩, fun hall => ?_, fun hle a => ?_⟩
  · -- the end of the range is in it
    exact (timeInRange_iff.mp ((hall c).mpr (Nat.le_refl _))).1
  · have htrans := ahead_trans b a c
    have hba := ahead_lt b a
    have hac := ahead_lt a c
    rw [timeInRange_iff]
    omega
  · -- half a turn into a longer range, the sign turns
    by_contra hlong
    have hmid : ahead b (b + BitVec.ofNat _ (half m)) = half m := ahead_self_add (by omega)
    have hin := (hall (b + BitVec.ofNat _ (half m))).mpr (by omega)
    have hnot := (timeInRangeOpen_iff.mp hin).1
    omega
  · have htrans := ahead_trans b c a
    have hba := ahead_lt b a
    have hca := ahead_lt c a
    rw [timeInRangeOpen_iff]
    omega

end Uki
