import Uki.Jiffies.Ticks

/-!
# Microseconds and nanoseconds of ticks

`jiffies_to_usecs` returns an `unsigned int`, which wraps after 71 minutes. Two functions
rest on it: the limit of `usecs_to_jiffies`, which wraps to a time that an `unsigned int`
can hold, and `jiffies_to_nsecs`, which widens what was cut off.
-/

set_option linter.style.nameCheck false

namespace Uki

open Words

variable {m : LongModel} {o : Overflow}

def USEC_PER_SEC : Nat := 1000000

/-- `USEC_PER_SEC` is a multiple of `HZ`, and not less. -/
def jiffiesToUsecs (j : ULong m) : BitVec 32 :=
  (((USEC_PER_SEC / HZ : Nat) : ULong m) * j).setWidth 32

/-- The sum is an `unsigned long` on 32 bits; on 64 bits it is a `long`, and nonnegative. -/
def _usecsToJiffies (o : Overflow) (u : BitVec 32) : Option (ULong m) := do
  let sum ← o.add (u.setWidth m.bits) ((USEC_PER_SEC / HZ : Nat) : ULong m)
  let sum ← o.sub sum 1
  some (sum / ((USEC_PER_SEC / HZ : Nat) : ULong m))

def __usecsToJiffies (o : Overflow) (u : BitVec 32) : Option (ULong m) :=
  if jiffiesToUsecs (MAX_JIFFY_OFFSET m) < u then
    some (MAX_JIFFY_OFFSET m)
  else
    _usecsToJiffies o u

/-- `constant` is the compiler's answer to `__builtin_constant_p(u)`. -/
def usecsToJiffies (o : Overflow) (constant : Bool) (u : BitVec 32) : Option (ULong m) :=
  if constant then
    if jiffiesToUsecs (MAX_JIFFY_OFFSET m) < u then
      some (MAX_JIFFY_OFFSET m)
    else
      _usecsToJiffies o u
  else
    __usecsToJiffies o u

def jiffiesToNsecs (j : ULong m) : BitVec 64 := wide (jiffiesToUsecs j) * NSEC_PER_USEC

def jiffies64ToNsecs (j : BitVec 64) : BitVec 64 := ((NSEC_PER_SEC / HZ : Nat) : BitVec 64) * j

def nsecsToJiffies64 (n : BitVec 64) : Option (BitVec 64) := divU64 n (NSEC_PER_SEC / HZ : Nat)

def nsecsToJiffies (m : LongModel) (n : BitVec 64) : Option (ULong m) := do
  let j ← nsecsToJiffies64 n
  some (j.setWidth m.bits)

/-! ## `usecs_to_jiffies` -/

/-- The product that is to be the limit is `-20000`, on both sizes. -/
theorem toNat_limit (m : LongModel) : (jiffiesToUsecs (MAX_JIFFY_OFFSET m)).toNat = 4294947296 := by
  cases m <;> decide

/-- The compiler's answer makes no difference. -/
theorem usecsToJiffies_eq (constant : Bool) (u : BitVec 32) :
    usecsToJiffies o constant u = __usecsToJiffies (m := m) o u := by
  cases constant <;> rfl

/-- Below the limit neither the sum nor the rounded quotient wraps. -/
theorem _usecsToJiffies_spec {u : BitVec 32} (h : u.toNat ≤ 4294947296) :
    ∃ r : ULong m, _usecsToJiffies o u = some r ∧ r.toNat = (u.toNat + 9999) / 10000 := by
  have hword : (u.setWidth m.bits).toNat = u.toNat :=
    BitVec.toNat_setWidth_of_le (by cases m <;> decide)
  have hbits : (2 : Nat) ^ 32 ≤ 2 ^ m.bits := by cases m <;> decide
  obtain ⟨d, hd⟩ : ∃ d : ULong m, d = (USEC_PER_SEC / HZ : Nat) := ⟨_, rfl⟩
  have hstep : d.toNat = 10000 := by subst hd; cases m <;> rfl
  have hsum : (u.setWidth m.bits + d).toNat = u.toNat + 10000 := by
    rw [BitVec.toNat_add, hword, hstep]
    exact Nat.mod_eq_of_lt (by omega)
  have hle : (1 : ULong m).toNat ≤ (u.setWidth m.bits + d).toNat := by
    rw [hsum, toNat_one]
    omega
  have hadd : o.add (u.setWidth m.bits) d = some (u.setWidth m.bits + d) :=
    Overflow.add_eq (by omega)
  have hsub : o.sub (u.setWidth m.bits + d) 1 = some (u.setWidth m.bits + d - 1) :=
    Overflow.sub_eq hle
  refine ⟨(u.setWidth m.bits + d - 1) / d, ?_, ?_⟩
  · unfold _usecsToJiffies
    simp only [← hd, hadd, hsub, Option.bind_eq_bind, Option.bind_some]
  · rw [BitVec.toNat_udiv, hstep, BitVec.toNat_sub_of_le (BitVec.le_def.mpr hle), hsum, toNat_one]
    omega

/-- `usecs_to_jiffies` rounds up exactly when the microseconds are not above the limit. -/
theorem usecs_to_jiffies_exact_iff (m : LongModel) (constant : Bool) (u : BitVec 32) :
    (∃ r : ULong m, usecsToJiffies .trap constant u = some r ∧
      r.toNat = if (u.toNat + (10000 - 1)) / 10000 ≤ (MAX_JIFFY_OFFSET m).toNat then
        (u.toNat + (10000 - 1)) / 10000
      else
        (MAX_JIFFY_OFFSET m).toNat) ↔
      u.toNat ≤ 4294947296 := by
  have hlt := u.isLt
  have hmax : 1073741822 ≤ (MAX_JIFFY_OFFSET m).toNat := by cases m <;> decide
  have hlimit := toNat_limit m
  rw [usecsToJiffies_eq, if_pos (by omega)]
  unfold __usecsToJiffies
  rcases Nat.lt_or_ge 4294947296 u.toNat with hgt | hle
  · rw [if_pos (BitVec.lt_def.mpr (by omega))]
    refine iff_of_false ?_ hgt.not_ge
    rintro ⟨r, hr, hexact⟩
    cases hr
    omega
  · rw [if_neg fun hgt => by have := BitVec.lt_def.mp hgt; omega]
    exact iff_of_true (_usecsToJiffies_spec hle) hle

/-- The greatest argument, 71.6 minutes, is converted to the infinite timeout, by both
branches and for both sizes. -/
theorem usecs_to_jiffies_exact_counterexample :
    (¬ ∀ u : BitVec 32, (u.toNat + (10000 - 1)) / 10000 ≤ (MAX_JIFFY_OFFSET .long32).toNat →
      usecsToJiffies .wrap true u =
        some (BitVec.ofNat LongModel.long32.bits ((u.toNat + (10000 - 1)) / 10000))) ∧
    ¬ ∀ u : BitVec 32, (u.toNat + (10000 - 1)) / 10000 ≤ (MAX_JIFFY_OFFSET .long64).toNat →
      usecsToJiffies .wrap false u =
        some (BitVec.ofNat LongModel.long64.bits ((u.toNat + (10000 - 1)) / 10000)) :=
  ⟨fun hall => absurd (hall 4294967295 (by decide)) (by decide),
    fun hall => absurd (hall 4294967295 (by decide)) (by decide)⟩

/-! ## `jiffies_to_nsecs` -/

theorem toNat_jiffiesToUsecs (j : ULong m) :
    (jiffiesToUsecs j).toNat = 10000 * j.toNat % 2 ^ 32 := by
  have hstep : ((USEC_PER_SEC / HZ : Nat) : ULong m).toNat = 10000 := by cases m <;> rfl
  have hbits : 32 ≤ m.bits := by cases m <;> decide
  rw [jiffiesToUsecs, BitVec.toNat_setWidth, BitVec.toNat_mul, hstep]
  exact Nat.mod_mod_of_dvd _ (Nat.pow_dvd_pow 2 hbits)

theorem toNat_jiffiesToNsecs (j : ULong m) :
    (jiffiesToNsecs j).toNat = 10000 * j.toNat % 2 ^ 32 * 1000 := by
  have hstep : (NSEC_PER_USEC : BitVec 64).toNat = 1000 := rfl
  rw [jiffiesToNsecs, BitVec.toNat_mul, toNat_wide, toNat_jiffiesToUsecs, hstep]
  exact Nat.mod_eq_of_lt (by omega)

theorem toNat_jiffies64ToNsecs {j : ULong m} (h : j.toNat * 10000000 < 2 ^ 64) :
    (jiffies64ToNsecs j.toU64).toNat = j.toNat * 10000000 := by
  have hstep : ((NSEC_PER_SEC / HZ : Nat) : BitVec 64).toNat = 10000000 := rfl
  rw [jiffies64ToNsecs, BitVec.toNat_mul, toNat_toU64, hstep, Nat.mul_comm]
  exact Nat.mod_eq_of_lt h

theorem nsecsToJiffies_spec (m : LongModel) (n : BitVec 64) :
    nsecsToJiffies m n = some (BitVec.ofNat m.bits (n.toNat / 10000000)) := by
  have hne : ((NSEC_PER_SEC / HZ : Nat) : BitVec 32) ≠ 0 := by decide
  have hstep : ((NSEC_PER_SEC / HZ : Nat) : BitVec 32).toNat = 10000000 := rfl
  obtain ⟨q, hdiv, hq⟩ := divU64_spec n hne
  rw [hstep] at hq
  simp only [nsecsToJiffies, nsecsToJiffies64, hdiv, Option.bind_eq_bind, Option.bind_some, ← hq]
  rw [setWidth_eq_ofInt, BitVec.ofInt_natCast]

/-- Both halves hold exactly when the microseconds fit 32 bits. -/
theorem jiffies_to_nsecs_agrees_iff (j : ULong m) (h : j.toNat * 10000000 < 2 ^ 64) :
    (jiffiesToNsecs j = jiffies64ToNsecs j.toU64 ↔ 10000 * j.toNat < 2 ^ 32) ∧
    (nsecsToJiffies m (jiffiesToNsecs j) = some j ↔ 10000 * j.toNat < 2 ^ 32) := by
  have hnsecs := toNat_jiffiesToNsecs j
  have hnsecs64 := toNat_jiffies64ToNsecs h
  constructor
  · rw [← BitVec.toNat_inj, hnsecs, hnsecs64]
    omega
  · have hlt : 10000 * j.toNat % 2 ^ 32 * 1000 / 10000000 < 2 ^ m.bits := by
      have hbits : (2 : Nat) ^ 32 ≤ 2 ^ m.bits := by cases m <;> decide
      omega
    rw [nsecsToJiffies_spec, Option.some_inj, ← BitVec.toNat_inj, BitVec.toNat_ofNat, hnsecs,
      Nat.mod_eq_of_lt hlt]
    omega

/-- The last tick before the microseconds wrap. -/
theorem jiffies_to_nsecs_agrees_iff_test1 :
    jiffiesToNsecs (429496 : ULong .long32) = jiffies64ToNsecs (ULong.toU64 (m := .long32) 429496) ∧
    nsecsToJiffies .long32 (jiffiesToNsecs (429496 : ULong .long32)) =
      some (429496 : ULong .long32) :=
  have h := jiffies_to_nsecs_agrees_iff (429496 : ULong .long32) (by decide)
  ⟨h.1.mpr (by decide), h.2.mpr (by decide)⟩

/-- After 71.6 minutes the nanoseconds start again. -/
theorem jiffies_to_nsecs_agrees_counterexample :
    (¬ ∀ j : ULong .long32, j.toNat * 10000000 < 2 ^ 64 →
      jiffiesToNsecs j = jiffies64ToNsecs j.toU64) ∧
    ¬ ∀ j : ULong .long64, j.toNat * 10000000 < 2 ^ 64 →
      nsecsToJiffies .long64 (jiffiesToNsecs j) = some j := by
  constructor
  · intro hall
    exact absurd (hall 429497 (by decide)) (by decide)
  · intro hall
    have h := hall 429497 (by decide)
    rw [nsecsToJiffies_spec, Option.some_inj] at h
    exact absurd h (by decide)

end Uki
