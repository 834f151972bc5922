import Uki.Long

/-!
# From `timespec` to `jiffies`

The scaled conversion of `jiffies.c`, with the constants of `jiffies.h` and
`time64.h` for `HZ` 100 and `BITS_PER_LONG` 32. Its result is the number of ticks
rounded up, which stops at `MAX_SEC_IN_JIFFIES` seconds and is reduced modulo
`jiffyPeriod`, since a shift by `SEC_JIFFIE_SC` takes the upper bits of a 64-bit
word (`toNat_timespec64ToJiffies`).
-/

set_option linter.style.nameCheck false

namespace Uki

variable {m : LongModel}

/-! ## Constants -/

def HZ : Nat := 100

/-- The value for `HZ >= 96 && HZ < 192`. -/
def SHIFT_HZ : Nat := 7

def NSEC_PER_SEC : Nat := 1000000000

def TICK_NSEC : Nat := (NSEC_PER_SEC + HZ / 2) / HZ

/-- `31 - SHIFT_HZ`, or one more when the scaled second leaves the top bit free. -/
def SEC_JIFFIE_SC : Nat :=
  if ((NSEC_PER_SEC <<< 2) / TICK_NSEC) <<< (31 - SHIFT_HZ - 2) &&& 0x80000000 = 0 then
    32 - SHIFT_HZ
  else
    31 - SHIFT_HZ

def NSEC_JIFFIE_SC : Nat := SEC_JIFFIE_SC + 29

/-- `unsigned long` as `u64`. -/
def ULong.toU64 (a : ULong m) : BitVec 64 := a.setWidth 64

/-- `long` as `u64`. -/
def ULong.signedToU64 (a : ULong m) : BitVec 64 := a.signExtend 64

def SEC_CONVERSION (m : LongModel) : ULong m :=
  (((NSEC_PER_SEC : BitVec 64) <<< SEC_JIFFIE_SC + TICK_NSEC - 1) / TICK_NSEC).setWidth m.bits

def NSEC_CONVERSION (m : LongModel) : ULong m :=
  (((1 : BitVec 64) <<< NSEC_JIFFIE_SC + TICK_NSEC - 1) / TICK_NSEC).setWidth m.bits

def LONG_MAX (m : LongModel) : ULong m := BitVec.ofNat _ (half m - 1)

def MAX_JIFFY_OFFSET (m : LongModel) : ULong m := LONG_MAX m >>> 1 - 1

/-- The definition for `BITS_PER_LONG < 64`, of type `long`. -/
def MAX_SEC_IN_JIFFIES (m : LongModel) : ULong m :=
  (((MAX_JIFFY_OFFSET m).signedToU64 * TICK_NSEC) / NSEC_PER_SEC).setWidth m.bits

/-! ## Conversion -/

/-- `struct timespec`. The seconds have the width of `time64_t`; where `time_t` is
narrower, a reading is one whose seconds fit it. -/
structure Timespec (m : LongModel) where
  tvSec : BitVec 64
  tvNsec : ULong m
deriving DecidableEq

structure Timespec64 (m : LongModel) where
  tvSec : BitVec 64
  tvNsec : ULong m
deriving DecidableEq

def __timespec64ToJiffies (sec : BitVec 64) (nsec : ULong m) : ULong m :=
  let nsec := nsec + TICK_NSEC - 1
  let max := (MAX_SEC_IN_JIFFIES m).signedToU64
  let (sec, nsec) := if max ≤ sec then (max, 0) else (sec, nsec)
  ((sec * (SEC_CONVERSION m).toU64 +
    (nsec.signedToU64 * (NSEC_CONVERSION m).toU64) >>> (NSEC_JIFFIE_SC - SEC_JIFFIE_SC)) >>>
      SEC_JIFFIE_SC).setWidth m.bits

def timespec64ToJiffies (value : Timespec64 m) : ULong m :=
  __timespec64ToJiffies value.tvSec value.tvNsec

def timespecToTimespec64 (ts : Timespec m) : Timespec64 m := ⟨ts.tvSec, ts.tvNsec⟩

def timespecToJiffies (value : Timespec m) : ULong m :=
  timespec64ToJiffies (timespecToTimespec64 value)

/-! ## Scaled math -/

/-- Multiplying by a scaled reciprocal that is a little too large and shifting right
divides, as long as the excess stays below one unit. -/
theorem mul_shiftRight_eq_div {x d c s e : Nat} (hc : d * c = 2 ^ s + e) (he : x * e < 2 ^ s) :
    (x * c) >>> s = x / d := by
  have hd : 0 < d := by
    rcases Nat.eq_zero_or_pos d with rfl | hd
    · have := Nat.two_pow_pos s
      omega
    · exact hd
  have hx : d * (x * c) = x * 2 ^ s + x * e := by
    rw [Nat.mul_left_comm, hc, Nat.mul_add]
  rw [Nat.shiftRight_eq_div_pow]
  apply Nat.div_eq_of_lt_le
  · refine Nat.le_of_mul_le_mul_left ?_ hd
    calc d * (x / d * 2 ^ s) = d * (x / d) * 2 ^ s := (Nat.mul_assoc _ _ _).symm
      _ ≤ x * 2 ^ s := Nat.mul_le_mul_right _ (Nat.mul_div_le x d)
      _ ≤ d * (x * c) := by omega
  · refine Nat.lt_of_mul_lt_mul_left (a := d) ?_
    calc d * (x * c) < (x + 1) * 2 ^ s := by rw [hx, Nat.add_mul]; omega
      _ ≤ d * (x / d + 1) * 2 ^ s := Nat.mul_le_mul_right _ (Nat.lt_mul_div_succ x hd)
      _ = d * ((x / d + 1) * 2 ^ s) := Nat.mul_assoc _ _ _

/-- The bits that `SEC_JIFFIE_SC` leaves of a 64-bit word. -/
def jiffyPeriod : Nat := 2 ^ (64 - SEC_JIFFIE_SC)

/-- `MAX_SEC_IN_JIFFIES` in ticks. -/
def lastJiffy (m : LongModel) : Nat := (MAX_SEC_IN_JIFFIES m).toNat * HZ

/-- The two summands share the scale of the seconds. -/
theorem scaled_ticks (sec : Nat) {n : Nat} (hn : n < NSEC_PER_SEC + TICK_NSEC) :
    (sec * 3355443200 + (n * 1801439851) >>> 29) >>> 25 = sec * HZ + n / TICK_NSEC := by
  have hx : n * 518016 < 2 ^ 54 := by
    simp only [NSEC_PER_SEC, TICK_NSEC, HZ] at hn
    omega
  have hdiv : (n * 1801439851) >>> 54 = n / TICK_NSEC := mul_shiftRight_eq_div (by decide) hx
  rw [← hdiv, show 54 = 29 + 25 from rfl, Nat.shiftRight_add]
  simp only [HZ, Nat.shiftRight_eq_div_pow]
  omega

/-- The sum is taken modulo `2 ^ 64` before the shift. -/
theorem mod_shiftRight (x : Nat) : (x % 2 ^ 64) >>> 25 = x >>> 25 % jiffyPeriod := by
  have hp : jiffyPeriod = 2 ^ 39 := rfl
  rw [hp, Nat.shiftRight_eq_div_pow, Nat.shiftRight_eq_div_pow]
  omega

theorem toNat_toU64 (a : ULong m) : a.toU64.toNat = a.toNat := by
  cases m <;> exact BitVec.toNat_setWidth_of_le (by decide)

theorem toNat_signedToU64 {a : ULong m} (h : a.toNat < half m) : a.signedToU64.toNat = a.toNat := by
  have hmsb : a.msb = false := by
    rw [BitVec.msb_eq_decide, decide_eq_false_iff_not, not_le]
    exact h
  unfold ULong.signedToU64
  rw [BitVec.signExtend_eq_setWidth_of_msb_false hmsb]
  exact toNat_toU64 a

/-- The addition that rounds up stays a `long`. -/
theorem toNat_add_tick {a : ULong m} (h : a.toNat < NSEC_PER_SEC) :
    (a + TICK_NSEC - 1).toNat = a.toNat + TICK_NSEC - 1 := by
  have ht : (TICK_NSEC : ULong m).toNat = TICK_NSEC := by cases m <;> rfl
  rw [BitVec.toNat_sub, BitVec.toNat_add, ht, toNat_one]
  simp only [NSEC_PER_SEC, TICK_NSEC, HZ] at *
  cases m <;> simp only [LongModel.bits] at * <;> omega

/-- The last line of `__timespec64_to_jiffies`, for nanoseconds below those of a second
and a tick. -/
theorem toNat_scaled {sec : BitVec 64} {nsec : ULong m} (h : nsec.toNat < NSEC_PER_SEC + TICK_NSEC) :
    ((sec * (SEC_CONVERSION m).toU64 +
      (nsec.signedToU64 * (NSEC_CONVERSION m).toU64) >>> (NSEC_JIFFIE_SC - SEC_JIFFIE_SC)) >>>
        SEC_JIFFIE_SC).toNat = (sec.toNat * HZ + nsec.toNat / TICK_NSEC) % jiffyPeriod := by
  have hs : (SEC_CONVERSION m).toU64 = 3355443200 := by cases m <;> rfl
  have hn : (NSEC_CONVERSION m).toU64 = 1801439851 := by cases m <;> rfl
  have hsc : NSEC_JIFFIE_SC - SEC_JIFFIE_SC = 29 := rfl
  have hsc' : SEC_JIFFIE_SC = 25 := rfl
  have hlt : nsec.toNat < 1010000000 := h
  have hpos : nsec.toNat < half m := lt_of_lt_of_le (hlt.trans (by decide)) (le_half m)
  have hprod : (nsec.signedToU64 * (1801439851 : BitVec 64)).toNat = nsec.toNat * 1801439851 := by
    have hc : (1801439851 : BitVec 64).toNat = 1801439851 := rfl
    rw [BitVec.toNat_mul, toNat_signedToU64 hpos, hc]
    exact Nat.mod_eq_of_lt (by omega)
  rw [hs, hn, hsc, hsc', BitVec.toNat_ushiftRight, BitVec.toNat_add, BitVec.toNat_ushiftRight, hprod,
    BitVec.toNat_mul, Nat.mod_add_mod, mod_shiftRight]
  exact congrArg (· % jiffyPeriod) (scaled_ticks sec.toNat h)

theorem toNat___timespec64ToJiffies {sec : BitVec 64} {nsec : ULong m}
    (h : nsec.toNat < NSEC_PER_SEC) :
    (__timespec64ToJiffies sec nsec).toNat =
      min (sec.toNat * HZ + (nsec.toNat + TICK_NSEC - 1) / TICK_NSEC) (lastJiffy m) %
        jiffyPeriod := by
  have hn := toNat_add_tick h
  have hmax : (MAX_SEC_IN_JIFFIES m).signedToU64.toNat = (MAX_SEC_IN_JIFFIES m).toNat := by
    cases m <;> rfl
  have hdiv : (nsec.toNat + TICK_NSEC - 1) / TICK_NSEC ≤ HZ := by
    simp only [NSEC_PER_SEC, TICK_NSEC, HZ] at *
    omega
  -- neither word size cuts off the result
  have hfit (n : Nat) : min n (lastJiffy m) % jiffyPeriod < 2 ^ m.bits := by
    cases m with
    | long32 => exact (Nat.mod_le _ _).trans_lt ((min_le_right _ _).trans_lt (by decide))
    | long64 => exact (Nat.mod_lt _ (by decide)).trans (by decide)
  unfold __timespec64ToJiffies
  dsimp only
  split
  · next hle =>
    have hle : (MAX_SEC_IN_JIFFIES m).toNat ≤ sec.toNat := hmax ▸ BitVec.le_def.mp hle
    have h0 : (0 : ULong m).toNat = 0 := by cases m <;> rfl
    have hcap : lastJiffy m ≤ sec.toNat * HZ + (nsec.toNat + TICK_NSEC - 1) / TICK_NSEC :=
      (Nat.mul_le_mul_right HZ hle).trans (Nat.le_add_right _ _)
    have hlast := hfit (lastJiffy m)
    rw [min_self] at hlast
    dsimp only
    rw [min_eq_right hcap, BitVec.toNat_setWidth, toNat_scaled (by rw [h0]; decide), hmax, h0,
      Nat.zero_div]
    exact Nat.mod_eq_of_lt hlast
  · next hlt =>
    have hlt : sec.toNat < (MAX_SEC_IN_JIFFIES m).toNat := by
      rw [← hmax]
      exact not_le.mp fun hle => hlt (BitVec.le_def.mpr hle)
    have hcap : sec.toNat * HZ + (nsec.toNat + TICK_NSEC - 1) / TICK_NSEC ≤ lastJiffy m :=
      calc _ ≤ sec.toNat * HZ + HZ := Nat.add_le_add_left hdiv _
        _ = (sec.toNat + 1) * HZ := (Nat.succ_mul _ _).symm
        _ ≤ lastJiffy m := Nat.mul_le_mul_right HZ hlt
    have hlast := hfit (sec.toNat * HZ + (nsec.toNat + TICK_NSEC - 1) / TICK_NSEC)
    rw [min_eq_left hcap] at hlast ⊢
    dsimp only
    rw [BitVec.toNat_setWidth, toNat_scaled (by rw [hn]; omega), hn]
    exact Nat.mod_eq_of_lt hlast

/-! ## Ticks -/

/-- The time since boot in nanoseconds. -/
def Timespec64.nsecs (ts : Timespec64 m) : Nat := ts.tvSec.toNat * NSEC_PER_SEC + ts.tvNsec.toNat

/-- The time since boot in ticks, rounded up. -/
def Timespec64.ticks (ts : Timespec64 m) : Nat := (ts.nsecs + TICK_NSEC - 1) / TICK_NSEC

theorem toNat_timespec64ToJiffies {ts : Timespec64 m} (h : ts.tvNsec.toNat < NSEC_PER_SEC) :
    (timespec64ToJiffies ts).toNat = min ts.ticks (lastJiffy m) % jiffyPeriod := by
  have ht : ts.ticks = ts.tvSec.toNat * HZ + (ts.tvNsec.toNat + TICK_NSEC - 1) / TICK_NSEC := by
    simp only [Timespec64.ticks, Timespec64.nsecs, NSEC_PER_SEC, TICK_NSEC, HZ]
    omega
  rw [ht]
  exact toNat___timespec64ToJiffies h

end Uki
