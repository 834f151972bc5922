import Mathlib.Tactic.Common
import Mathlib.Data.BitVec

/-!
# `unsigned long` and the wrapping time comparisons of `jiffies.h`

The library is built for a 32-bit and for a 64-bit `unsigned long`. Tick counts
are of that type, wrap around, and are compared by the sign of a difference.
-/

namespace Uki

/-- The two sizes of `long` the library is built for. -/
inductive LongModel where
  | long32
  | long64
deriving DecidableEq, Repr

def LongModel.bits : LongModel → Nat
  | .long32 => 32
  | .long64 => 64

abbrev ULong (m : LongModel) : Type := BitVec m.bits

variable {m : LongModel}

/-- `time_after(a, b)`: `a` is after `b`. -/
def timeAfter (a b : ULong m) : Bool := (b - a).toInt < 0

def timeBefore (a b : ULong m) : Bool := timeAfter b a

def timeAfterEq (a b : ULong m) : Bool := 0 ≤ (a - b).toInt

/-! ## Distances -/

/-- How far `e` lies ahead of `t`, as the unsigned difference. -/
def ahead (t e : ULong m) : Nat := (e - t).toNat

/-- Half the range of `unsigned long`. -/
def half (m : LongModel) : Nat := 2 ^ (m.bits - 1)

@[simp] theorem toNat_one : (1 : ULong m).toNat = 1 := by cases m <;> rfl

theorem two_half (m : LongModel) : 2 * half m = 2 ^ m.bits := by
  cases m <;> rfl

theorem le_half (m : LongModel) : 2 ^ 31 ≤ half m := by
  cases m <;> decide

theorem toInt_sub_nonneg_iff (t e : ULong m) : 0 ≤ (e - t).toInt ↔ ahead t e < half m := by
  have h := two_half m
  rw [BitVec.toInt_eq_toNat_cond, ahead]
  have hlt := (e - t).isLt
  split <;> omega

theorem timeAfterEq_iff (a b : ULong m) : timeAfterEq a b = true ↔ ahead b a < half m := by
  rw [timeAfterEq, decide_eq_true_iff, toInt_sub_nonneg_iff]

theorem timeAfter_iff (a b : ULong m) : timeAfter a b = true ↔ half m ≤ ahead a b := by
  rw [timeAfter, decide_eq_true_iff, ← not_le, toInt_sub_nonneg_iff, not_lt]

/-- Below half the range nothing wraps. -/
theorem timeAfter_iff_lt {a b : ULong m} (ha : a.toNat < half m) (hb : b.toNat < half m) :
    timeAfter a b = true ↔ b.toNat < a.toNat := by
  have h := two_half m
  rw [timeAfter_iff, ahead, BitVec.toNat_sub]
  cases m <;> simp only [LongModel.bits] at * <;> omega

@[simp] theorem ahead_self (t : ULong m) : ahead t t = 0 := by
  simp [ahead]

theorem ahead_eq_zero {t e : ULong m} : ahead t e = 0 ↔ e = t := by
  constructor
  · intro h
    have h' : e - t = 0 := BitVec.eq_of_toNat_eq (by simpa [ahead] using h)
    have := congrArg (· + t) h'
    simpa using this
  · rintro rfl
    simp

/-- `e` is `t` plus the distance, up to wrapping. -/
theorem toNat_of_ahead (t e : ULong m) : e.toNat = (t.toNat + ahead t e) % 2 ^ m.bits := by
  have ht := t.isLt
  have he := e.isLt
  simp only [ahead, BitVec.toNat_sub]
  cases m <;> simp only [LongModel.bits] at * <;> omega

theorem ahead_succ {t e : ULong m} (h : t ≠ e) : ahead (t + 1) e = ahead t e - 1 := by
  have hne : ahead t e ≠ 0 := fun h' => h (ahead_eq_zero.mp h').symm
  have ht := t.isLt
  have he := e.isLt
  simp only [ahead, BitVec.toNat_sub, BitVec.toNat_add, toNat_one] at *
  cases m <;> simp only [LongModel.bits] at * <;> omega

theorem ahead_add {t e : ULong m} {k : Nat} (hk : k ≤ ahead t e) :
    ahead (t + BitVec.ofNat _ k) e = ahead t e - k := by
  have ht := t.isLt
  have he := e.isLt
  simp only [ahead, BitVec.toNat_sub, BitVec.toNat_add, BitVec.toNat_ofNat] at *
  cases m <;> simp only [LongModel.bits] at * <;> omega

theorem ahead_self_add {t : ULong m} {k : Nat} (hk : k < 2 * half m) :
    ahead t (t + BitVec.ofNat _ k) = k := by
  have ht := t.isLt
  rw [two_half] at hk
  simp only [ahead, BitVec.toNat_sub, BitVec.toNat_add, BitVec.toNat_ofNat] at *
  cases m <;> simp only [LongModel.bits] at * <;> omega

theorem add_one_add (t : ULong m) (k : Nat) :
    t + 1 + BitVec.ofNat _ k = t + BitVec.ofNat _ (k + 1) := by
  apply BitVec.eq_of_toNat_eq
  simp only [BitVec.toNat_add, BitVec.toNat_ofNat, toNat_one]
  cases m <;> simp only [LongModel.bits] at * <;> omega

theorem add_ofNat_succ (t : ULong m) (k : Nat) :
    t + BitVec.ofNat _ (k + 1) = t + BitVec.ofNat _ k + 1 := by
  rw [← add_one_add, BitVec.add_assoc, BitVec.add_comm 1, ← BitVec.add_assoc]

theorem add_ahead (t e : ULong m) : t + BitVec.ofNat _ (ahead t e) = e := by
  rw [ahead, BitVec.ofNat_toNat, BitVec.setWidth_eq, BitVec.add_comm, BitVec.sub_add_cancel]

theorem ahead_succ_self (t : ULong m) : ahead (t + 1) t = 2 * half m - 1 := by
  have ht := t.isLt
  rw [two_half]
  simp only [ahead, BitVec.toNat_sub, BitVec.toNat_add, toNat_one]
  cases m <;> simp only [LongModel.bits] at * <;> omega

theorem ahead_sub_one (t : ULong m) : ahead t (t - 1) = 2 * half m - 1 := by
  have := ahead_succ_self (t - 1)
  rwa [BitVec.sub_add_cancel] at this

theorem toNat_succ_mod (t : ULong m) : (t + 1).toNat = (t.toNat + 1) % 2 ^ m.bits := by
  rw [BitVec.toNat_add, toNat_one]

end Uki
