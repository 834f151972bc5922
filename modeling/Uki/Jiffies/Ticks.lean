import Uki.Jiffies.Nsec

/-!
# Ticks and times

The scaled conversion below its limit, its inverse, which divides, and the same for
`struct timeval`. Above, the conversion saturates on 32 bits; on 64 bits its limit comes
after the end of the first `jiffyPeriod`, where it goes back to 0
(`timespec64_to_jiffies_monotone_iff`).
-/

set_option linter.style.nameCheck false

namespace Uki

open Words

variable {t m : LongModel}

def NSEC_PER_USEC : Nat := 1000

/-- `struct timeval`, with a `time_t` of size `t`. -/
structure Timeval (t m : LongModel) where
  tvSec : ULong t
  tvUsec : ULong m
deriving DecidableEq

def __timespecToJiffies (sec nsec : ULong m) : ULong m := __timespec64ToJiffies sec.toU64 nsec

def jiffiesToTimespec64 (jiffies : ULong m) : Option (Timespec64 m) := do
  let (tvSec, rem) ← divU64Rem (jiffies.toU64 * TICK_NSEC) NSEC_PER_SEC
  some ⟨tvSec, rem.setWidth m.bits⟩

def timevalToJiffies (value : Timeval t m) : ULong m :=
  __timespecToJiffies (value.tvSec.signExtend m.bits) (value.tvUsec * NSEC_PER_USEC)

def jiffiesToTimeval (jiffies : ULong m) : Option (Timeval t m) := do
  let (tvSec, rem) ← divU64Rem (jiffies.toU64 * TICK_NSEC) NSEC_PER_SEC
  some ⟨tvSec.setWidth t.bits, rem.setWidth m.bits / NSEC_PER_USEC⟩

/-! ## Below the limit -/

/-- Below the limit of the 32-bit conversion neither is the period over. -/
theorem toNat_ticks {ts : Timespec64 m} (hn : ts.tvNsec.toNat < NSEC_PER_SEC)
    (hs : ts.tvSec.toNat < 10737418) : (timespec64ToJiffies ts).toNat = ts.ticks := by
  have hticks : ts.ticks ≤ lastJiffy .long32 := by
    have hlast : lastJiffy .long32 = 1073741800 := rfl
    rw [hlast]
    simp only [Timespec64.ticks, Timespec64.nsecs, TICK_NSEC, NSEC_PER_SEC, HZ] at hn ⊢
    omega
  have hlast : lastJiffy .long32 ≤ lastJiffy m := by cases m <;> decide
  have hperiod : lastJiffy .long32 < jiffyPeriod := by decide
  rw [toNat_timespec64ToJiffies hn, min_eq_left (hticks.trans hlast)]
  exact Nat.mod_eq_of_lt (hticks.trans_lt hperiod)

/-- `jiffies * TICK_NSEC` nanoseconds, divided by those of a second. -/
theorem div_ticks {j : ULong m} (hj : j.toNat < 1073741800) :
    ∃ sec rem, divU64Rem (j.toU64 * TICK_NSEC) NSEC_PER_SEC = some (sec, rem) ∧
      sec.toNat = j.toNat / HZ ∧ rem.toNat = j.toNat % HZ * TICK_NSEC := by
  have hne : (NSEC_PER_SEC : BitVec 32) ≠ 0 := by decide
  have htick : (TICK_NSEC : BitVec 64).toNat = TICK_NSEC := rfl
  have hsecond : (NSEC_PER_SEC : BitVec 32).toNat = HZ * TICK_NSEC := rfl
  have hprod : (j.toU64 * TICK_NSEC).toNat = j.toNat * TICK_NSEC := by
    rw [BitVec.toNat_mul, toNat_toU64, htick]
    refine Nat.mod_eq_of_lt ?_
    simp only [TICK_NSEC, NSEC_PER_SEC, HZ]
    omega
  obtain ⟨sec, rem, hdiv, hsec, hrem⟩ := divU64Rem_spec (j.toU64 * TICK_NSEC) hne
  rw [hprod, hsecond] at hsec hrem
  rw [Nat.mul_div_mul_right _ _ (by decide)] at hsec
  rw [Nat.mul_mod_mul_right] at hrem
  exact ⟨sec, rem, hdiv, hsec, hrem⟩

theorem timespec64ToJiffies_of_ticks {j : ULong m} {ts : Timespec64 m} (hj : j.toNat < 1073741800)
    (hsec : ts.tvSec.toNat = j.toNat / HZ) (hnsec : ts.tvNsec.toNat = j.toNat % HZ * TICK_NSEC) :
    timespec64ToJiffies ts = j := by
  apply BitVec.eq_of_toNat_eq
  rw [toNat_ticks]
  · simp only [Timespec64.ticks, Timespec64.nsecs, hsec, hnsec, NSEC_PER_SEC, TICK_NSEC, HZ]
    omega
  · rw [hnsec]
    simp only [NSEC_PER_SEC, TICK_NSEC, HZ]
    omega
  · rw [hsec]
    simp only [HZ]
    omega

theorem lt_two_pow_bits (m : LongModel) {x : Nat} (h : x < 2 ^ 31) : x < 2 ^ m.bits := by
  cases m <;> simp only [LongModel.bits] <;> omega

/-- Small numbers do not change between words of the two sizes. -/
theorem toNat_setWidth_bits (m : LongModel) {w : Nat} {x : BitVec w} (h : x.toNat < 2 ^ 31) :
    (x.setWidth m.bits).toNat = x.toNat := by
  rw [BitVec.toNat_setWidth]
  exact Nat.mod_eq_of_lt (lt_two_pow_bits m h)

theorem toNat_signExtend_bits {x : ULong t} (h : x.toNat < 2 ^ 31) :
    (x.signExtend m.bits).toNat = x.toNat := by
  have hmsb : x.msb = false := by
    rw [BitVec.msb_eq_decide, decide_eq_false_iff_not, not_le]
    exact h.trans_le (le_half t)
  rw [BitVec.signExtend_eq_setWidth_of_msb_false hmsb]
  exact toNat_setWidth_bits m h

theorem jiffiesToTimespec64_round_trip {j : ULong m} (hj : j.toNat < 1073741800) :
    ∃ ts, jiffiesToTimespec64 j = some ts ∧ timespec64ToJiffies ts = j := by
  obtain ⟨sec, rem, hdiv, hsec, hrem⟩ := div_ticks hj
  have hlt : rem.toNat < 2 ^ 31 := by
    rw [hrem]
    simp only [TICK_NSEC, NSEC_PER_SEC, HZ]
    omega
  refine ⟨⟨sec, rem.setWidth m.bits⟩, ?_, ?_⟩
  · simp only [jiffiesToTimespec64, hdiv, Option.bind_eq_bind, Option.bind_some]
  · exact timespec64ToJiffies_of_ticks hj hsec ((toNat_setWidth_bits m hlt).trans hrem)

/-- A whole number of ticks is one of microseconds, too. -/
theorem jiffiesToTimeval_round_trip (t : LongModel) {j : ULong m} (hj : j.toNat < 1073741800) :
    ∃ tv : Timeval t m, jiffiesToTimeval j = some tv ∧ timevalToJiffies tv = j := by
  obtain ⟨sec, rem, hdiv, hsec, hrem⟩ := div_ticks hj
  have hthousand : (NSEC_PER_USEC : ULong m).toNat = 1000 := by cases m <;> rfl
  have hlt : rem.toNat < 2 ^ 31 := by
    rw [hrem]
    simp only [TICK_NSEC, NSEC_PER_SEC, HZ]
    omega
  have husec : (rem.setWidth m.bits / NSEC_PER_USEC * NSEC_PER_USEC).toNat = rem.toNat := by
    have hexact : rem.toNat / 1000 * 1000 = rem.toNat := by
      rw [hrem]
      simp only [TICK_NSEC, NSEC_PER_SEC, HZ]
      omega
    rw [BitVec.toNat_mul, BitVec.toNat_udiv, hthousand, toNat_setWidth_bits m hlt, hexact]
    exact Nat.mod_eq_of_lt (lt_two_pow_bits m hlt)
  have htsec :
      (ULong.toU64 (m := m) ((sec.setWidth t.bits).signExtend m.bits)).toNat = sec.toNat := by
    have hlt : sec.toNat < 2 ^ 31 := by
      rw [hsec]
      simp only [HZ]
      omega
    have hword := toNat_setWidth_bits t hlt
    rw [toNat_toU64, toNat_signExtend_bits (by rwa [hword]), hword]
  refine ⟨⟨sec.setWidth t.bits, rem.setWidth m.bits / NSEC_PER_USEC⟩, ?_, ?_⟩
  · simp only [jiffiesToTimeval, hdiv, Option.bind_eq_bind, Option.bind_some]
  · show timespec64ToJiffies ⟨_, _⟩ = j
    exact timespec64ToJiffies_of_ticks hj (htsec.trans hsec) (husec.trans hrem)

/-- The conversion counts a started tick, and is inverse to the two conversions that divide. -/
theorem timespec64_to_jiffies_exact (m : LongModel) :
    (∀ ts : Timespec64 m, 0 ≤ ts.tvNsec.toInt → ts.tvNsec.toInt < 1000000000 →
      0 ≤ ts.tvSec.toInt → ts.tvSec.toInt < 10737418 →
      ((timespec64ToJiffies ts).toNat : Int) =
        100 * ts.tvSec.toInt + (ts.tvNsec.toInt + (10000000 - 1)) / 10000000) ∧
    ∀ j : ULong m, j.toNat < 1073741800 →
      (∃ ts, jiffiesToTimespec64 j = some ts ∧ timespec64ToJiffies ts = j) ∧
      ∀ t : LongModel, ∃ tv : Timeval t m, jiffiesToTimeval j = some tv ∧
        timevalToJiffies tv = j := by
  refine ⟨fun ts hn0 hn hs0 hs => ?_, fun j hj =>
    ⟨jiffiesToTimespec64_round_trip hj, fun t => jiffiesToTimeval_round_trip t hj⟩⟩
  have hnsec := coe_toNat_of_nonneg hn0
  have hsec := coe_toNat_of_nonneg hs0
  rw [toNat_ticks (Timespec64.Normalized.toNat_lt ⟨hn0, hn⟩) (by omega)]
  simp only [Timespec64.ticks, Timespec64.nsecs, NSEC_PER_SEC, TICK_NSEC, HZ]
  omega

/-- The last nanosecond below the limit, and the last tick. -/
theorem timespec64_to_jiffies_exact_test1 :
    ((timespec64ToJiffies (⟨10737417, 999999999⟩ : Timespec64 .long32)).toNat : Int) =
      100 * 10737417 + (999999999 + (10000000 - 1)) / 10000000 ∧
    (∃ ts, jiffiesToTimespec64 (1073741799 : ULong .long32) = some ts ∧
      timespec64ToJiffies ts = (1073741799 : ULong .long32)) ∧
    ∃ tv : Timeval .long64 .long32, jiffiesToTimeval (1073741799 : ULong .long32) = some tv ∧
      timevalToJiffies tv = 1073741799 := by
  have h := timespec64_to_jiffies_exact .long32
  exact ⟨h.1 ⟨10737417, 999999999⟩ (by decide) (by decide) (by decide) (by decide),
    (h.2 1073741799 (by decide)).1, (h.2 1073741799 (by decide)).2 .long64⟩

/-! ## Order and saturation -/

variable {a b : Timespec64 m}

theorem nsecs_eq_total (h : timespec64Valid a = true) : (a.nsecs : Int) = a.total := by
  obtain ⟨hs, hn, -⟩ := timespec64Valid_iff.mp h
  have hsec := coe_toNat_of_nonneg hs
  have hnsec := coe_toNat_of_nonneg hn
  unfold Timespec64.nsecs Timespec64.total
  rw [← hsec, ← hnsec]
  push_cast
  rfl

theorem toNat_of_valid (h : timespec64Valid a = true) :
    (timespec64ToJiffies a).toNat = min a.ticks (lastJiffy m) % jiffyPeriod :=
  toNat_timespec64ToJiffies (timespec64Valid_iff.mp h).2.toNat_lt

theorem ticks_le (ha : timespec64Valid a = true) (hb : timespec64Valid b = true)
    (h : a.total ≤ b.total) : a.ticks ≤ b.ticks := by
  rw [← nsecs_eq_total ha, ← nsecs_eq_total hb] at h
  exact Nat.div_le_div_right (Nat.sub_le_sub_right (Nat.add_le_add_right (Int.ofNat_le.mp h) _) 1)

/-- What the conversion is to guarantee at `b`. -/
structure MonotoneAt (b : Timespec64 m) : Prop where
  mono : ∀ a : Timespec64 m, timespec64Valid a = true → a.total ≤ b.total →
    (timespec64ToJiffies a).toNat ≤ (timespec64ToJiffies b).toNat
  saturates : (MAX_SEC_IN_JIFFIES m).signedToU64 ≤ b.tvSec → ∀ a : Timespec64 m,
    timespec64Valid a = true → (timespec64ToJiffies a).toNat ≤ (timespec64ToJiffies b).toNat
  no_wrap : min b.tvSec.toNat (MAX_SEC_IN_JIFFIES m).toNat * (SEC_CONVERSION m).toNat < 2 ^ 64

theorem toNat_le_ticks (h : timespec64Valid a = true) :
    (timespec64ToJiffies a).toNat ≤ a.ticks := by
  rw [toNat_of_valid h]
  exact (Nat.mod_le _ _).trans (min_le_left _ _)

/-- On 32 bits the limit comes in the first period. -/
theorem monotoneAt_long32 {b : Timespec64 .long32} (hb : timespec64Valid b = true) :
    MonotoneAt b := by
  have hlast : lastJiffy .long32 < jiffyPeriod := by decide
  have hcap (ts : Timespec64 .long32) (h : timespec64Valid ts = true) :
      (timespec64ToJiffies ts).toNat = min ts.ticks (lastJiffy .long32) :=
    (toNat_of_valid h).trans (Nat.mod_eq_of_lt ((min_le_right _ _).trans_lt hlast))
  refine ⟨fun a ha hle => ?_, fun hmax a ha => ?_, ?_⟩
  · rw [hcap a ha, hcap b hb]
    exact min_le_min_right _ (ticks_le ha hb hle)
  · have hle : lastJiffy .long32 ≤ b.ticks := by
      have hmax : 10737418 ≤ b.tvSec.toNat := BitVec.le_def.mp hmax
      have hl : lastJiffy .long32 = 1073741800 := rfl
      rw [hl]
      simp only [Timespec64.ticks, Timespec64.nsecs, NSEC_PER_SEC, TICK_NSEC, HZ]
      omega
    rw [hcap a ha, hcap b hb, min_eq_right hle]
    exact min_le_right _ _
  · exact (Nat.mul_le_mul_right _ (min_le_right _ _)).trans_lt (by decide)

/-- Before the first period of 64-bit jiffies ends. -/
theorem monotoneAt_of_le {b : Timespec64 .long64} (hb : timespec64Valid b = true)
    (h : b.total ≤ 5497558138870000000) : MonotoneAt b := by
  rw [← nsecs_eq_total hb] at h
  have hmax : (MAX_SEC_IN_JIFFIES .long64).signedToU64.toNat = 18446744073 := by decide
  have hsec : b.tvSec.toNat ≤ 5497558138 := by
    simp only [Timespec64.nsecs, NSEC_PER_SEC] at h
    omega
  have hticks : b.ticks < jiffyPeriod := by
    have hp : jiffyPeriod = 549755813888 := rfl
    rw [hp]
    simp only [Timespec64.ticks, TICK_NSEC, NSEC_PER_SEC, HZ]
    omega
  have hexact : (timespec64ToJiffies b).toNat = b.ticks := by
    have hlast : jiffyPeriod ≤ lastJiffy .long64 := by decide
    rw [toNat_of_valid hb, min_eq_left (hticks.le.trans hlast), Nat.mod_eq_of_lt hticks]
  refine ⟨fun a ha hle => ?_, fun hle => ?_, ?_⟩
  · rw [hexact]
    exact (toNat_le_ticks ha).trans (ticks_le ha hb hle)
  · have hle := BitVec.le_def.mp hle
    omega
  · exact (Nat.mul_le_mul_right _ ((min_le_left _ _).trans hsec)).trans_lt (by decide)

/-- On 32 bits the conversion is monotone, saturates and does not wrap; on 64 bits that
holds up to the last tick of the first period. -/
theorem timespec64_to_jiffies_monotone_iff (b : Timespec64 m) (hb : timespec64Valid b = true) :
    MonotoneAt b ↔ m = .long32 ∨ b.total ≤ 5497558138870000000 := by
  cases m with
  | long32 => exact iff_of_true (monotoneAt_long32 hb) (.inl rfl)
  | long64 =>
    refine ⟨fun h => .inr (not_lt.mp fun hgt => ?_), fun h => ?_⟩
    · -- the scaled seconds fit, but not the sum; its lower bits are those of an early time
      have hfirst : (timespec64ToJiffies (⟨1, 0⟩ : Timespec64 .long64)).toNat = 100 := by decide
      have hmono := h.mono ⟨1, 0⟩ (by decide)
        (show (1000000000 : Int) ≤ b.total by omega)
      have hsec : b.tvSec.toNat ≤ 5497558138 := by
        have hwrap := h.no_wrap
        have hmax : (MAX_SEC_IN_JIFFIES .long64).toNat = 18446744073 := by decide
        have hconv : (SEC_CONVERSION .long64).toNat = 3355443200 := by decide
        rw [hmax, hconv] at hwrap
        omega
      have hnsec := (timespec64Valid_iff.mp hb).2.toNat_lt
      have hlast : lastJiffy .long64 = 1844674407300 := by decide
      have hp : jiffyPeriod = 549755813888 := rfl
      rw [hfirst, toNat_of_valid hb, hlast, hp] at hmono
      rw [← nsecs_eq_total hb] at hgt
      simp only [Timespec64.ticks, Timespec64.nsecs, TICK_NSEC, NSEC_PER_SEC, HZ] at hgt hmono hnsec
      omega
    · exact monotoneAt_of_le hb (h.resolve_left (by decide))

theorem timespec64_to_jiffies_monotone_iff_test1 :
    MonotoneAt (⟨5497558138, 870000000⟩ : Timespec64 .long64) :=
  (timespec64_to_jiffies_monotone_iff ⟨5497558138, 870000000⟩ (by decide)).mpr (.inr (by decide))

/-- The first nanosecond of the second period is converted to 0. The greatest seconds are
converted to less than that before it, and their product wraps. -/
theorem timespec64_to_jiffies_monotone_counterexample :
    (¬ ∀ a b : Timespec64 .long64, timespec64Valid a = true → timespec64Valid b = true →
      a.total ≤ b.total → (timespec64ToJiffies a).toNat ≤ (timespec64ToJiffies b).toNat) ∧
    (¬ ∀ a b : Timespec64 .long64, timespec64Valid a = true → timespec64Valid b = true →
      (MAX_SEC_IN_JIFFIES .long64).signedToU64 ≤ b.tvSec →
        (timespec64ToJiffies a).toNat ≤ (timespec64ToJiffies b).toNat) ∧
    ¬ ∀ b : Timespec64 .long64, timespec64Valid b = true →
      min b.tvSec.toNat (MAX_SEC_IN_JIFFIES .long64).toNat * (SEC_CONVERSION .long64).toNat <
        2 ^ 64 := by
  refine ⟨fun hall => ?_, fun hall => ?_, fun hall => ?_⟩
  · exact absurd (hall ⟨5497558138, 870000000⟩ ⟨5497558138, 870000001⟩ (by decide) (by decide)
      (by decide)) (by decide)
  · exact absurd (hall ⟨5497558138, 870000000⟩ ⟨18446744073, 0⟩ (by decide) (by decide)
      (by decide)) (by decide)
  · exact absurd (hall ⟨5497558139, 0⟩ (by decide)) (by decide)

end Uki
