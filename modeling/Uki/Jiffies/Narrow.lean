import Uki.Jiffies.Nsec

/-!
# Times of the C library

`struct timespec` and `struct itimerspec` of the C library have seconds of type `time_t`.
Where that is narrower than `time64_t`, the conversions to them drop the upper half of
the seconds, and `ns_to_timespec` does so in the middle of its computation.
`timespec_narrowing_exact_iff` says which times survive.
-/

set_option linter.style.nameCheck false

namespace Uki

open Words

variable {t m : LongModel} {o : Overflow}

/-- `struct timespec`, with a `time_t` of size `t`. -/
structure LibcTimespec (t m : LongModel) where
  tvSec : ULong t
  tvNsec : ULong m
deriving DecidableEq

structure Itimerspec (t m : LongModel) where
  itInterval : LibcTimespec t m
  itValue : LibcTimespec t m
deriving DecidableEq

structure Itimerspec64 (m : LongModel) where
  itInterval : Timespec64 m
  itValue : Timespec64 m
deriving DecidableEq

def timespec64ToTimespec (t : LongModel) (ts64 : Timespec64 m) : LibcTimespec t m :=
  ⟨ts64.tvSec.setWidth t.bits, ts64.tvNsec⟩

/-- `timespec_to_timespec64` -/
def LibcTimespec.toTimespec64 (ts : LibcTimespec t m) : Timespec64 m :=
  ⟨ts.tvSec.signExtend 64, ts.tvNsec⟩

def itimerspec64ToItimerspec (t : LongModel) (its64 : Itimerspec64 m) : Itimerspec t m :=
  ⟨timespec64ToTimespec t its64.itInterval, timespec64ToTimespec t its64.itValue⟩

def itimerspecToItimerspec64 (its : Itimerspec t m) : Itimerspec64 m :=
  ⟨its.itInterval.toTimespec64, its.itValue.toTimespec64⟩

/-- The text of `ns_to_timespec64`, with other seconds. -/
def nsToTimespec (o : Overflow) (nsec : BitVec 64) : Option (LibcTimespec t m) :=
  if nsec = 0 then
    some ⟨0, 0⟩
  else do
    let (tvSec, rem) ← divS64Rem o nsec NSEC_PER_SEC
    let tvSec := tvSec.setWidth t.bits
    let (tvSec, rem) ←
      if rem.toInt < 0 then do
        let tvSec ← o.ssub tvSec 1
        let rem ← o.sadd (rem.signExtend m.bits) (NSEC_PER_SEC : ULong m)
        some (tvSec, rem.setWidth 32)
      else
        some (tvSec, rem)
    some ⟨tvSec, rem.signExtend m.bits⟩

/-- Seconds that a `time_t` holds. -/
def FitsTime (t : LongModel) (sec : Int) : Prop := -half t ≤ sec ∧ sec < half t

instance (t : LongModel) (sec : Int) : Decidable (FitsTime t sec) :=
  inferInstanceAs (Decidable (_ ∧ _))

theorem fitsTime_toInt (sec : ULong t) : FitsTime t sec.toInt := by
  have hlt := sec.toInt_lt
  have hle := sec.le_toInt
  unfold FitsTime half
  push_cast
  exact ⟨hle, hlt⟩

/-- Dropping the upper half keeps the values that fit, and no others. -/
theorem signExtend_setWidth_iff (sec : BitVec 64) :
    (sec.setWidth t.bits).signExtend 64 = sec ↔ FitsTime t sec.toInt := by
  have hle : t.bits ≤ 64 := by cases t <;> decide
  constructor
  · intro h
    rw [← h, BitVec.toInt_signExtend_of_le hle]
    exact fitsTime_toInt _
  · rintro ⟨hlow, hhigh⟩
    have hlt := sec.isLt
    apply BitVec.eq_of_toInt_eq
    rw [BitVec.toInt_signExtend_of_le hle, BitVec.toInt_setWidth]
    cases t <;> simp only [half, LongModel.bits, BitVec.toInt_eq_toNat_cond] at * <;>
      rw [Int.bmod_eq_iff (by decide)] <;> split at * <;> omega

theorem toTimespec64_narrow_iff (ts64 : Timespec64 m) :
    (timespec64ToTimespec t ts64).toTimespec64 = ts64 ↔ FitsTime t ts64.tvSec.toInt := by
  obtain ⟨sec, nsec⟩ := ts64
  rw [← signExtend_setWidth_iff]
  simp only [timespec64ToTimespec, LibcTimespec.toTimespec64, Timespec64.mk.injEq, and_true]

theorem narrow_toTimespec64 (ts : LibcTimespec t m) :
    timespec64ToTimespec t ts.toTimespec64 = ts := by
  obtain ⟨sec, nsec⟩ := ts
  have hle : t.bits ≤ 64 := by cases t <;> decide
  have hback : (sec.signExtend 64).setWidth t.bits = sec := by
    apply BitVec.eq_of_getLsbD_eq
    intro i hi
    rw [BitVec.getLsbD_setWidth, BitVec.getLsbD_signExtend, if_pos hi]
    simp [hi, hi.trans_le hle]
  simp only [timespec64ToTimespec, LibcTimespec.toTimespec64, hback]

/-- Where the seconds are narrowed does not matter. -/
theorem nsToTimespec_eq (nsec : BitVec 64) :
    (nsToTimespec .wrap nsec : Option (LibcTimespec t m)) =
      (nsToTimespec64 .wrap nsec).map (timespec64ToTimespec t) := by
  have hle : t.bits ≤ 64 := by cases t <;> decide
  have hsub (sec : BitVec 64) : (sec - 1).setWidth t.bits = sec.setWidth t.bits - 1 := by
    have hone : (1 : BitVec 64).setWidth t.bits = 1 := by cases t <;> rfl
    rw [BitVec.sub_eq_add_neg, BitVec.setWidth_add _ _ hle, BitVec.setWidth_neg_of_le hle, hone,
      ← BitVec.sub_eq_add_neg]
  have hwrap {w : Nat} (a b : BitVec w) : Overflow.wrap.ssub a b = some (a - b) := rfl
  have hwrap' {w : Nat} (a b : BitVec w) : Overflow.wrap.sadd a b = some (a + b) := rfl
  unfold nsToTimespec nsToTimespec64
  split
  · cases t <;> rfl
  · cases divS64Rem .wrap nsec NSEC_PER_SEC with
    | none => rfl
    | some r =>
      obtain ⟨sec, rem⟩ := r
      simp only [Option.bind_eq_bind, Option.bind_some, hwrap, hwrap']
      split
      · simp only [Option.map_some, timespec64ToTimespec, hsub]
      · rfl

/-- The total of a time with a `time_t` of 32 bits fits an `s64`. -/
theorem total_toTimespec64_fits {ts : LibcTimespec .long32 m} (h : ts.toTimespec64.Normalized) :
    (BitVec.ofInt 64 ts.toTimespec64.total).toInt = ts.toTimespec64.total := by
  have hsec : FitsTime .long32 ts.toTimespec64.tvSec.toInt := by
    have hext : ts.toTimespec64.tvSec.toInt = ts.tvSec.toInt :=
      BitVec.toInt_signExtend_of_le (by decide)
    rw [hext]
    exact fitsTime_toInt ts.tvSec
  have hhalf : (half .long32 : Int) = 2147483648 := rfl
  unfold FitsTime at hsec
  unfold Timespec64.Normalized at h
  rw [hhalf] at hsec
  unfold Timespec64.total
  simp only [NSEC_PER_SEC] at h ⊢
  exact BitVec.toInt_ofInt_eq_self (by decide) (by omega) (by omega)

/-- Nanoseconds come back through a `timespec` if and only if their seconds fit. -/
theorem ns_through_timespec_iff (nsec : BitVec 64) :
    (∃ ts : LibcTimespec t m, nsToTimespec .wrap nsec = some ts ∧
      timespec64ToNs .wrap ts.toTimespec64 = some nsec) ↔
      FitsTime t (nsec.toInt / NSEC_PER_SEC) := by
  obtain ⟨ts64, hdec, hnorm, htotal⟩ := nsToTimespec64_spec (m := m) (o := .wrap) nsec
    fun he => nomatch he
  have hns (ts64 : Timespec64 m) :
      timespec64ToNs .wrap ts64 = some (BitVec.ofInt 64 ts64.total) :=
    timespec64ToNs_eq fun he => nomatch he
  rw [nsToTimespec_eq, hdec, ← htotal, hnorm.total_div, Option.map_some]
  simp only [Option.some_inj, exists_eq_left', hns]
  constructor
  · intro hback
    cases t with
    | long32 =>
      have hnorm' : (timespec64ToTimespec .long32 ts64).toTimespec64.Normalized := hnorm
      have htotal' := total_toTimespec64_fits hnorm'
      rw [hback, ← htotal] at htotal'
      exact (toTimespec64_narrow_iff ts64).mp (hnorm'.eq_of_total hnorm htotal'.symm)
    | long64 => exact fitsTime_toInt (t := .long64) ts64.tvSec
  · intro hfits
    rw [(toTimespec64_narrow_iff ts64).mpr hfits, htotal, BitVec.ofInt_toInt]

/-- The conversions to the C library's types keep a time if and only if its seconds fit a
`time_t`, in whichever order the nanoseconds are divided and narrowed; the conversions
back lose nothing. -/
theorem timespec_narrowing_exact_iff (t m : LongModel) :
    (∀ nsec, (nsToTimespec .wrap nsec : Option (LibcTimespec t m)) =
      (nsToTimespec64 .wrap nsec).map (timespec64ToTimespec t)) ∧
    (∀ nsec, (∃ ts : LibcTimespec t m, nsToTimespec .wrap nsec = some ts ∧
      timespec64ToNs .wrap ts.toTimespec64 = some nsec) ↔
        FitsTime t (nsec.toInt / NSEC_PER_SEC)) ∧
    (∀ its64 : Itimerspec64 m, itimerspecToItimerspec64 (itimerspec64ToItimerspec t its64) = its64 ↔
      FitsTime t its64.itInterval.tvSec.toInt ∧ FitsTime t its64.itValue.tvSec.toInt) ∧
    ∀ its : Itimerspec t m, itimerspec64ToItimerspec t (itimerspecToItimerspec64 its) = its := by
  refine ⟨nsToTimespec_eq, ns_through_timespec_iff, fun its64 => ?_, fun its => ?_⟩
  · obtain ⟨itInterval, itValue⟩ := its64
    rw [← toTimespec64_narrow_iff, ← toTimespec64_narrow_iff]
    simp only [itimerspecToItimerspec64, itimerspec64ToItimerspec, Itimerspec64.mk.injEq]
  · obtain ⟨itInterval, itValue⟩ := its
    simp only [itimerspecToItimerspec64, itimerspec64ToItimerspec, narrow_toTimespec64]

end Uki
