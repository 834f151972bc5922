import Uki.Lib.Calendar
import Uki.Lib.Word

/-!
# `mktime64`

The closed formula of `jiffies.c`, in the 32 bits of `unsigned int` and the 64 bits of
`time64_t`. It is Gauss's number of the day, `Calendar.Date.dayNumber`, and so counts days
(`mktime64_is_gregorian`).
-/

namespace Uki

open Calendar Words

def mktime64 (year0 mon0 day hour min sec : BitVec 32) : BitVec 64 :=
  let mon := mon0
  let year := year0
  let mon := mon - 2
  let (mon, year) := if 0 ≥ mon.toInt then (mon + 12, year - 1) else (mon, year)
  ((((year / 4 - year / 100 + year / 400 + 367 * mon / 12 + day).setWidth 64 +
    (year * 365).setWidth 64 - 719499) * 24 + hour.setWidth 64) * 60 + min.setWidth 64) * 60 +
    sec.setWidth 64

/-- The arguments for a date. -/
def mktime64On (d : Date) (hour min sec : BitVec 32) : BitVec 64 :=
  mktime64 (BitVec.ofInt 32 d.year) (BitVec.ofNat 32 d.month) (BitVec.ofNat 32 d.day) hour min sec

def epoch : Date := ⟨1970, 1, 1, january_mem, le_rfl, daysInMonth_pos _ _⟩

/-- The month test: `mon - 2` is negative, as an `int`, in January only. -/
theorem march_branch (d : Date) :
    (let mon := BitVec.ofNat 32 d.month - 2
      if 0 ≥ mon.toInt then (mon + 12, BitVec.ofInt 32 d.year - 1)
      else (mon, BitVec.ofInt 32 d.year)) =
      (BitVec.ofInt 32 d.marchMonth, BitVec.ofInt 32 d.marchYear) := by
  obtain ⟨h1, h12⟩ := d.month_mem
  have hmon : BitVec.ofNat 32 d.month - 2 = BitVec.ofInt 32 (d.month - 2) := by
    rw [ofInt_sub, BitVec.ofInt_natCast]
    rfl
  have hint : (BitVec.ofInt 32 ((d.month : Int) - 2)).toInt = d.month - 2 :=
    BitVec.toInt_ofInt_eq_self (by decide) (by omega) (by omega)
  dsimp only
  rw [hmon, hint]
  unfold Date.marchMonth Date.marchYear
  split
  · next hle =>
    rw [if_pos (by omega), if_pos (by omega), ofInt_sub _ d.year,
      show (d.month : Int) + 10 = d.month - 2 + 12 by omega, BitVec.ofInt_add _ 12]
    rfl
  · next hgt => rw [if_neg (by omega), if_neg (by omega)]

theorem toNat_ofInt32 {n : Int} (h : 0 ≤ n ∧ n < 2 ^ 32) :
    ((BitVec.ofInt 32 n).toNat : Int) = n := by
  rw [BitVec.toNat_ofInt]
  omega

/-- The two 32-bit parts of the number of the day do not wrap. -/
theorem day_parts (d : Date) (h : 0 ≤ d.marchYear ∧ d.marchYear ≤ 11767033) :
    let year := BitVec.ofInt 32 d.marchYear
    let mon := BitVec.ofInt 32 d.marchMonth
    let day := BitVec.ofNat 32 d.day
    ((year / 4 - year / 100 + year / 400 + 367 * mon / 12 + day).toNat + (year * 365).toNat : Int) =
      d.dayNumber := by
  obtain ⟨h0, hmax⟩ := h
  have hm := d.marchMonth_mem
  have hday : d.day ≤ 31 := d.day_mem.2.trans (by unfold daysInMonth; split_ifs <;> decide)
  intro year mon day
  have hy : (year.toNat : Int) = d.marchYear := toNat_ofInt32 (by omega)
  have hmon : (mon.toNat : Int) = d.marchMonth := toNat_ofInt32 (by omega)
  have hd : day.toNat = d.day := by
    rw [BitVec.toNat_ofNat]
    omega
  have h365 : (year * 365).toNat = year.toNat * 365 := BitVec.toNat_mul_of_lt (by simp; omega)
  have h367 : (367 * mon / 12).toNat = 367 * mon.toNat / 12 := by
    rw [BitVec.toNat_udiv, BitVec.toNat_mul_of_lt (by simp; omega)]
    rfl
  have h4 : (year / 4).toNat = year.toNat / 4 := BitVec.toNat_udiv
  have h100 : (year / 100).toNat = year.toNat / 100 := BitVec.toNat_udiv
  have h400 : (year / 400).toNat = year.toNat / 400 := BitVec.toNat_udiv
  -- there are never more centuries than fourth years
  have hsub : (year / 4 - year / 100).toNat = (year / 4).toNat - (year / 100).toNat :=
    BitVec.toNat_sub_of_le (BitVec.le_def.mpr (by omega))
  have hsum : (year / 4 - year / 100 + year / 400 + 367 * mon / 12 + day).toNat =
      year.toNat / 4 - year.toNat / 100 + year.toNat / 400 + 367 * mon.toNat / 12 + day.toNat := by
    simp only [BitVec.toNat_add, hsub, h4, h100, h400, h367]
    omega
  unfold Date.dayNumber yearStart monthStart
  rw [← hy, ← hmon, ← hd, hsum, h365]
  omega

/-- A day is 86400 seconds long, and hours, minutes and seconds of any size are added. -/
theorem toInt_mktime64On (d : Date) (h : 0 ≤ d.marchYear ∧ d.marchYear ≤ 11767033)
    (hour min sec : BitVec 32) :
    (mktime64On d hour min sec).toInt =
      86400 * (d.dayNumber - 719499) + 3600 * hour.toNat + 60 * min.toNat + sec.toNat := by
  have hbranch := march_branch d
  have hparts := day_parts d h
  dsimp only at hbranch hparts
  have hhour := hour.isLt
  have hmin := min.isLt
  have hsec := sec.isLt
  have hword : mktime64On d hour min sec = BitVec.ofInt 64
      ((((d.dayNumber - 719499) * 24 + hour.toNat) * 60 + min.toNat) * 60 + sec.toNat) := by
    unfold mktime64On mktime64
    dsimp only
    rw [hbranch, ← hparts]
    simp only [setWidth_eq_ofInt, BitVec.ofInt_add, BitVec.ofInt_mul, ofInt_sub]
    rfl
  have hlow := d.lt_dayNumber
  have hhigh := d.dayNumber_le
  unfold yearStart at hlow hhigh
  rw [hword, BitVec.toInt_ofInt_eq_self (by decide) (by omega) (by omega)]
  omega

theorem marchYear_mem (d : Date) (h : 1 ≤ d.year ∧ d.year ≤ 11767033) :
    0 ≤ d.marchYear ∧ d.marchYear ≤ 11767033 := by
  unfold Date.marchYear
  split <;> omega

/-- A January belongs to the March of the year before. -/
theorem marchYear_next_mem (d : Date) (h : 1 ≤ d.year ∧ d.year ≤ 11767033) :
    0 ≤ d.next.marchYear ∧ d.next.marchYear ≤ 11767033 := by
  unfold Date.next
  split
  · exact marchYear_mem _ h
  · split
    · exact marchYear_mem _ h
    · show 0 ≤ d.year + 1 - 1 ∧ d.year + 1 - 1 ≤ 11767033
      omega

/-- `mktime64` is the Gregorian calendar: the days from 1970-01-01 are counted one by one.
The last year is the last one whose `year * 365` fits 32 bits. -/
theorem mktime64_is_gregorian (d : Date) (h : 1 ≤ d.year ∧ d.year ≤ 11767033) :
    (∃ D : Int, StepsFrom Date.next epoch d D) ∧
    (∀ D : Int, StepsFrom Date.next epoch d D → ∀ hour min sec : BitVec 32,
      (mktime64On d hour min sec).toInt =
        86400 * D + 3600 * hour.toNat + 60 * min.toNat + sec.toNat) ∧
    (mktime64On d 24 0 0 = mktime64On d.next 0 0 0) ∧
    (∀ hour min : BitVec 32, min.toNat < 59 →
      mktime64On d hour min 60 = mktime64On d hour (min + 1) 0) ∧
    (∀ hour : BitVec 32, hour.toNat < 24 →
      mktime64On d hour 59 60 = mktime64On d (hour + 1) 0 0) ∧
    ∀ hour min sec : BitVec 32,
      (mktime64On d.next hour min sec).toInt = (mktime64On d hour min sec).toInt + 86400 := by
  have hval := toInt_mktime64On d (marchYear_mem d h)
  have hnext := toInt_mktime64On d.next (marchYear_next_mem d h)
  have hepoch : epoch.dayNumber = 719499 := rfl
  rw [d.dayNumber_next] at hnext
  refine ⟨⟨d.dayNumber - 719499, ?_⟩, fun D hD hour min sec => ?_, ?_, fun hour min hmin => ?_,
    fun hour hhour => ?_, fun hour min sec => ?_⟩
  · rw [Date.stepsFrom_iff, hepoch]
    omega
  · rw [Date.stepsFrom_iff, hepoch] at hD
    rw [hval, hD]
    omega
  · apply BitVec.eq_of_toInt_eq
    rw [hval, hnext]
    simp
    omega
  · have hmin1 : (min + 1).toNat = min.toNat + 1 := BitVec.toNat_add_of_lt (by simp; omega)
    apply BitVec.eq_of_toInt_eq
    rw [hval, hval, hmin1]
    simp
    omega
  · have hhour1 : (hour + 1).toNat = hour.toNat + 1 := BitVec.toNat_add_of_lt (by simp; omega)
    apply BitVec.eq_of_toInt_eq
    rw [hval, hval, hhour1]
    simp
    omega
  · rw [hnext, hval]
    omega

/-- The leap day of 2000, 11016 days after the epoch. -/
theorem mktime64_is_gregorian_test1 :
    (mktime64On ⟨2000, 2, 29, by decide, by decide⟩ 23 59 60).toInt =
      86400 * 11016 + 3600 * (23 : BitVec 32).toNat + 60 * (59 : BitVec 32).toNat +
        (60 : BitVec 32).toNat :=
  (mktime64_is_gregorian ⟨2000, 2, 29, by decide, by decide⟩ (by decide)).2.1 11016
    (Date.stepsFrom_iff.mpr rfl) 23 59 60

end Uki
