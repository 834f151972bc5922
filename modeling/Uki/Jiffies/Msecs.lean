import Uki.Kernel
import Uki.Jiffies.Timespec

/-!
# Milliseconds and sleeping

`msecs_to_jiffies` rounds up and takes what is negative as an `int` for infinite.
`jiffies_to_msecs` returns an `unsigned int`. The sleeping functions multiply before they
widen, and `uki_usleep` hands its 64 bits to `usleep`, which takes 32, so what is long comes
out short.

Results:
1. `msecs_to_jiffies_round_trip`: what `msecs_to_jiffies` returns, and for which ticks
   it undoes `jiffies_to_msecs`.
2. `sleeps_exact_iff`: for which arguments the sleeping functions sleep as long as they
   are told to.
-/

set_option linter.style.nameCheck false

namespace Uki

open Words

variable {m : LongModel} {o : Overflow}

def MSEC_PER_SEC : Nat := 1000

def USEC_PER_MSEC : Nat := 1000

/-! ## `jiffies.h` and `jiffies.c` -/

/-- `HZ` is not above `MSEC_PER_SEC`, and divides it. -/
def jiffiesToMsecs (j : ULong m) : BitVec 32 :=
  (((MSEC_PER_SEC / HZ : Nat) : ULong m) * j).setWidth 32

def _msecsToJiffies (o : Overflow) (u : BitVec 32) : Option (ULong m) :=
  divRoundUp o (u.setWidth m.bits) ((MSEC_PER_SEC / HZ : Nat) : ULong m)

def __msecsToJiffies (o : Overflow) (u : BitVec 32) : Option (ULong m) :=
  if u.toInt < 0 then
    some (MAX_JIFFY_OFFSET m)
  else
    _msecsToJiffies o u

/-- `constant` is the compiler's answer to `__builtin_constant_p(m)`. -/
def msecsToJiffies (o : Overflow) (constant : Bool) (u : BitVec 32) : Option (ULong m) :=
  if constant then
    if u.toInt < 0 then
      some (MAX_JIFFY_OFFSET m)
    else
      _msecsToJiffies o u
  else
    __msecsToJiffies o u

/-! ## `timer.c` and `delay.h`

The result of a sleeping function is the number of microseconds that `usleep` is called
with. -/

/-- `useconds_t` is an `unsigned int`. -/
def ukiUsleep (usec : BitVec 64) : BitVec 32 := usec.setWidth 32

def msleep (m : LongModel) (msecs : BitVec 32) : BitVec 32 :=
  ukiUsleep (ULong.toU64 (msecs.setWidth m.bits * (USEC_PER_MSEC : ULong m)))

def ssleep (m : LongModel) (seconds : BitVec 32) : BitVec 32 := msleep m (seconds * 1000)

/-- Also what is returned. -/
def msleepInterruptible (m : LongModel) (o : Overflow) (constant : Bool) (msecs : BitVec 32) :
    Option (BitVec 32 × ULong m) := do
  let timeout : ULong m ← msecsToJiffies o constant msecs
  let timeout := timeout + 1
  some (ukiUsleep (ULong.toU64 (msecs.setWidth m.bits * (USEC_PER_MSEC : ULong m))),
    (jiffiesToMsecs timeout).setWidth m.bits)

def ndelay (o : Overflow) (x : ULong m) : Option (BitVec 32) := do
  let usec ← divRoundUp o x 1000
  some (ukiUsleep (ULong.toU64 usec))

/-! ## Conversion -/

/-- The compiler's answer makes no difference. -/
theorem msecsToJiffies_eq (constant : Bool) (u : BitVec 32) :
    msecsToJiffies o constant u = __msecsToJiffies (m := m) o u := by
  cases constant <;> rfl

theorem toNat_jiffiesToMsecs (j : ULong m) :
    (jiffiesToMsecs j).toNat = 10 * j.toNat % 2 ^ 32 := by
  have hstep : ((MSEC_PER_SEC / HZ : Nat) : ULong m).toNat = 10 := by cases m <;> rfl
  have hbits : 32 ≤ m.bits := by cases m <;> decide
  rw [jiffiesToMsecs, BitVec.toNat_setWidth, BitVec.toNat_mul, hstep]
  exact Nat.mod_mod_of_dvd _ (Nat.pow_dvd_pow 2 hbits)

theorem toNat_unsignedInt (u : BitVec 32) : (u.setWidth m.bits).toNat = u.toNat :=
  BitVec.toNat_setWidth_of_le (by cases m <;> decide)

theorem msecsToJiffies_of_nonneg (constant : Bool) {u : BitVec 32} (h : u.toNat < 2 ^ 31) :
    ∃ r : ULong m, msecsToJiffies o constant u = some r ∧ r.toNat = (u.toNat + 9) / 10 := by
  have hint : ¬ u.toInt < 0 := by
    rw [BitVec.toInt_eq_toNat_of_lt (by omega)]
    omega
  have hstep : ((MSEC_PER_SEC / HZ : Nat) : ULong m).toNat = 10 := by cases m <;> rfl
  have hne : ((MSEC_PER_SEC / HZ : Nat) : ULong m) ≠ 0 := fun h0 => by
    rw [h0] at hstep
    simp at hstep
  have hbits : (2 : Nat) ^ 32 ≤ 2 ^ m.bits := by cases m <;> decide
  rw [msecsToJiffies_eq, __msecsToJiffies, if_neg hint, _msecsToJiffies]
  obtain ⟨r, hr, hval⟩ := divRoundUp_spec (o := o) (n := u.setWidth m.bits) hne (by
    rw [toNat_unsignedInt, hstep]
    omega)
  rw [toNat_unsignedInt, hstep] at hval
  exact ⟨r, hr, hval⟩

theorem msecsToJiffies_of_neg (constant : Bool) {u : BitVec 32} (h : 2 ^ 31 ≤ u.toNat) :
    msecsToJiffies o constant u = some (MAX_JIFFY_OFFSET m) := by
  have hint : u.toInt < 0 := by
    have := u.isLt
    rw [BitVec.toInt_eq_toNat_cond, if_neg (by omega)]
    omega
  rw [msecsToJiffies_eq, __msecsToJiffies, if_pos hint]

/-- On 64 bits the product for the infinite timeout wraps to a value that is negative as an
`int`. -/
theorem toNat_jiffiesToMsecs_max (m : LongModel) :
    2 ^ 31 ≤ (jiffiesToMsecs (MAX_JIFFY_OFFSET m)).toNat ↔ m = .long64 := by
  cases m <;> decide

/-- `msecs_to_jiffies` is finite for what is not negative as an `int`, and
`jiffies_to_msecs` then gives the time rounded up. It undoes `jiffies_to_msecs` for the ticks
of 24.8 days. -/
theorem msecs_to_jiffies_round_trip (m : LongModel) (o : Overflow) (constant : Bool) :
    (∀ u : BitVec 32, u.toNat < 2 ^ 31 → ∃ j : ULong m, msecsToJiffies o constant u = some j ∧
      j.toNat = (u.toNat + 9) / 10 ∧ j.toNat < (MAX_JIFFY_OFFSET m).toNat ∧
      (jiffiesToMsecs j).toNat = (u.toNat + 9) / 10 * 10) ∧
    (∀ u : BitVec 32, 2 ^ 31 ≤ u.toNat →
      msecsToJiffies o constant u = some (MAX_JIFFY_OFFSET m)) ∧
    ∀ j : ULong m, msecsToJiffies o constant (jiffiesToMsecs j) = some j ↔
      10 * j.toNat < 2 ^ 31 ∨ (m = .long64 ∧ j = MAX_JIFFY_OFFSET m) := by
  have hmax : 1073741822 ≤ (MAX_JIFFY_OFFSET m).toNat := by cases m <;> decide
  refine ⟨fun u hu => ?_, fun u hu => msecsToJiffies_of_neg constant hu, fun j => ?_⟩
  · obtain ⟨j, hj, hval⟩ := msecsToJiffies_of_nonneg (m := m) (o := o) constant hu
    refine ⟨j, hj, hval, by omega, ?_⟩
    rw [toNat_jiffiesToMsecs, hval]
    omega
  · obtain ⟨q, hback⟩ : ∃ q, (jiffiesToMsecs j).toNat + 2 ^ 32 * q = 10 * j.toNat := by
      rw [toNat_jiffiesToMsecs]
      exact ⟨_, Nat.mod_add_div _ _⟩
    have hword := (jiffiesToMsecs j).isLt
    rcases Nat.lt_or_ge (jiffiesToMsecs j).toNat (2 ^ 31) with hlt | hge
    · obtain ⟨r, hr, hval⟩ := msecsToJiffies_of_nonneg (m := m) (o := o) constant hlt
      have hinf : ¬ (m = .long64 ∧ j = MAX_JIFFY_OFFSET m) := by
        rintro ⟨hm, rfl⟩
        exact absurd ((toNat_jiffiesToMsecs_max m).mpr hm) (Nat.not_le_of_lt hlt)
      rw [hr, Option.some_inj, ← BitVec.toNat_inj, or_iff_left hinf]
      omega
    · rw [msecsToJiffies_of_neg constant hge, Option.some_inj]
      constructor
      · rintro rfl
        exact .inr ⟨(toNat_jiffiesToMsecs_max m).mp hge, rfl⟩
      · rintro (hlt | ⟨-, rfl⟩)
        · omega
        · rfl

/-! ## Sleeping -/

theorem toNat_ukiUsleep (usec : ULong m) :
    (ukiUsleep (ULong.toU64 usec)).toNat = usec.toNat % 2 ^ 32 := by
  rw [ukiUsleep, BitVec.toNat_setWidth, toNat_toU64]

/-- The width of the long makes no difference. -/
theorem toNat_msleep (m : LongModel) (msecs : BitVec 32) :
    (msleep m msecs).toNat = 1000 * msecs.toNat % 2 ^ 32 := by
  have hstep : (USEC_PER_MSEC : ULong m).toNat = 1000 := by cases m <;> rfl
  have hbits : 32 ≤ m.bits := by cases m <;> decide
  rw [msleep, toNat_ukiUsleep, BitVec.toNat_mul, toNat_unsignedInt, hstep, Nat.mul_comm]
  exact Nat.mod_mod_of_dvd _ (Nat.pow_dvd_pow 2 hbits)

theorem msleep_exact_iff (m : LongModel) (msecs : BitVec 32) :
    (msleep m msecs).toNat = 1000 * msecs.toNat ↔ msecs.toNat ≤ 4294967 := by
  rw [toNat_msleep, Nat.mod_eq_iff_lt (by decide)]
  omega

/-- The seconds are multiplied as an `unsigned int` first, which changes nothing. -/
theorem toNat_ssleep (m : LongModel) (seconds : BitVec 32) :
    (ssleep m seconds).toNat = 1000000 * seconds.toNat % 2 ^ 32 := by
  have hmul : (seconds * 1000).toNat = 1000 * seconds.toNat % 2 ^ 32 := by
    rw [BitVec.toNat_mul, Nat.mul_comm]
    rfl
  rw [ssleep, toNat_msleep, hmul, Nat.mul_mod, Nat.mod_mod, ← Nat.mul_mod, ← Nat.mul_assoc]

theorem ssleep_exact_iff (m : LongModel) (seconds : BitVec 32) :
    (ssleep m seconds).toNat = 1000000 * seconds.toNat ↔ seconds.toNat ≤ 4294 := by
  rw [toNat_ssleep, Nat.mod_eq_iff_lt (by decide)]
  omega

theorem toNat_ndelay (x : ULong m) :
    ∃ usec, ndelay .wrap x = some usec ∧
      usec.toNat = (x.toNat + 999) % 2 ^ m.bits / 1000 % 2 ^ 32 := by
  have hstep : (1000 : ULong m).toNat = 1000 := by cases m <;> rfl
  have hne : (1000 : ULong m) ≠ 0 := fun h0 => by
    rw [h0] at hstep
    simp at hstep
  obtain ⟨q, hq, hval⟩ := divRoundUp_wrap x hne
  rw [hstep] at hval
  exact ⟨ukiUsleep (ULong.toU64 q), by rw [ndelay, hq]; rfl, by rw [toNat_ukiUsleep, hval]⟩

/-- Rounded up over the end, the delay is none; what is more than 71 minutes is cut off. -/
theorem ndelay_long_enough_iff (x : ULong m) :
    (∃ usec, ndelay .wrap x = some usec ∧ x.toNat ≤ 1000 * usec.toNat) ↔
      x.toNat + 999 < 2 ^ m.bits ∧ x.toNat ≤ 4294967295000 := by
  have hx := x.isLt
  obtain ⟨usec, hrun, hval⟩ := toNat_ndelay x
  simp only [hrun, Option.some_inj, exists_eq_left']
  have hword := usec.isLt
  rcases Nat.lt_or_ge (x.toNat + 999) (2 ^ m.bits) with hlt | hge
  · rw [Nat.mod_eq_of_lt hlt] at hval
    rw [and_iff_right hlt]
    omega
  · have hbits : (2 : Nat) ^ 32 ≤ 2 ^ m.bits := by cases m <;> decide
    have hcut : (x.toNat + 999) % 2 ^ m.bits = x.toNat + 999 - 2 ^ m.bits := by
      rw [Nat.mod_eq_sub_mod hge, Nat.mod_eq_of_lt (by omega)]
    rw [hcut] at hval
    exact iff_of_false (by omega) fun h => absurd h.1 (Nat.not_lt.mpr hge)

/-- A sleep that nothing can interrupt is reported as time left, and then some. -/
theorem msleepInterruptible_spec (m : LongModel) (o : Overflow) (constant : Bool)
    (msecs : BitVec 32) :
    ∃ left, msleepInterruptible m o constant msecs = some (msleep m msecs, left) ∧
      0 < left.toNat ∧ (msecs.toNat < 2 ^ 31 → msecs.toNat < left.toNat) := by
  have hleft (timeout : ULong m) : ((jiffiesToMsecs (timeout + 1)).setWidth m.bits).toNat =
      10 * (timeout + 1).toNat % 2 ^ 32 := by
    rw [toNat_unsignedInt, toNat_jiffiesToMsecs]
  rcases Nat.lt_or_ge msecs.toNat (2 ^ 31) with hlt | hge
  · obtain ⟨j, hj, hval⟩ := msecsToJiffies_of_nonneg (m := m) (o := o) constant hlt
    have hbits : (2 : Nat) ^ 32 ≤ 2 ^ m.bits := by cases m <;> decide
    have hsucc : (j + 1).toNat = j.toNat + 1 := by
      rw [toNat_succ_mod]
      exact Nat.mod_eq_of_lt (by omega)
    refine ⟨_, by rw [msleepInterruptible, hj]; rfl, ?_⟩
    rw [hleft, hsucc, hval, Nat.mod_eq_of_lt (by omega)]
    omega
  · refine
      ⟨_, by rw [msleepInterruptible, msecsToJiffies_of_neg constant hge]; rfl, ?_, fun h => ?_⟩
    · rw [hleft]
      cases m <;> decide
    · omega

/-- Which arguments are slept for in full, and that no sleep is longer. A nanosecond delay
is at least as long as asked for, unless it is more than 71 minutes or zero.
`msleep_interruptible` sleeps like `msleep`, and never says that nothing is left. -/
theorem sleeps_exact_iff (m : LongModel) :
    (∀ msecs, ((msleep m msecs).toNat = 1000 * msecs.toNat ↔ msecs.toNat ≤ 4294967) ∧
      (msleep m msecs).toNat ≤ 1000 * msecs.toNat) ∧
    (∀ seconds, ((ssleep m seconds).toNat = 1000000 * seconds.toNat ↔ seconds.toNat ≤ 4294) ∧
      (ssleep m seconds).toNat ≤ 1000000 * seconds.toNat) ∧
    (∀ x : ULong m, (∃ usec, ndelay .wrap x = some usec ∧ x.toNat ≤ 1000 * usec.toNat) ↔
      x.toNat + 999 < 2 ^ m.bits ∧ x.toNat ≤ 4294967295000) ∧
    ∀ o constant msecs, ∃ left,
      msleepInterruptible m o constant msecs = some (msleep m msecs, left) ∧
        0 < left.toNat ∧ (msecs.toNat < 2 ^ 31 → msecs.toNat < left.toNat) := by
  refine ⟨fun msecs => ⟨msleep_exact_iff m msecs, ?_⟩,
    fun seconds => ⟨ssleep_exact_iff m seconds, ?_⟩,
    fun x => ndelay_long_enough_iff x, msleepInterruptible_spec m⟩
  · rw [toNat_msleep]
    exact Nat.mod_le _ _
  · rw [toNat_ssleep]
    exact Nat.mod_le _ _

/-- 71 minutes and 35 seconds come out as less than a millisecond. -/
example : (msleep .long64 4294968).toNat = 704 := by decide

end Uki
