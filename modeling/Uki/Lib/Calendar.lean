import Mathlib.Logic.Function.Iterate
import Mathlib.Tactic.IntervalCases
import Mathlib.Tactic.Common

/-!
# Counting the days of the Gregorian calendar

`StepsFrom next e a n` counts one by one how far `a` is from `e`, backwards too. The
dates are the valid ones of the proleptic calendar. Their number `dayNumber` starts the
year in March, so that the leap day is the last one; it is the count of days because the
next date has the next number and no two dates have the same.
-/

universe u

/-- `a` is `n` steps after `e`, or `-n` steps before it. -/
inductive StepsFrom {α : Type u} (next : α → α) (e : α) : α → Int → Prop where
  | start : StepsFrom next e e 0
  | forward {a : α} {n : Int} : StepsFrom next e a n → StepsFrom next e (next a) (n + 1)
  | backward {a : α} {n : Int} : StepsFrom next e (next a) (n + 1) → StepsFrom next e a n

namespace StepsFrom

variable {α : Type u} {next : α → α} {e a : α} {n : Int}

theorem iterate_forward (h : StepsFrom next e a n) (k : Nat) :
    StepsFrom next e (next^[k] a) (n + k) := by
  induction k with
  | zero => simpa using h
  | succ k ih =>
    rw [Function.iterate_succ_apply', Nat.cast_succ, ← add_assoc]
    exact ih.forward

theorem iterate_backward {k : Nat} (h : StepsFrom next e (next^[k] a) (n + k)) :
    StepsFrom next e a n := by
  induction k with
  | zero => simpa using h
  | succ k ih =>
    rw [Function.iterate_succ_apply', Nat.cast_succ, ← add_assoc] at h
    exact ih h.backward

/-- A numbering that goes up by one with each step, and takes no value twice, counts the
steps. -/
theorem iff_of_numbering {f : α → Int} (hnext : ∀ a, f (next a) = f a + 1)
    (hf : Function.Injective f) : StepsFrom next e a n ↔ f a = f e + n := by
  have hiter (k : Nat) (a : α) : f (next^[k] a) = f a + k := by
    induction k with
    | zero => simp
    | succ k ih => rw [Function.iterate_succ_apply', hnext, ih, Nat.cast_succ, add_assoc]
  constructor
  · intro h
    induction h with
    | start => simp
    | forward _ ih => rw [hnext, ih, add_assoc]
    | backward _ ih =>
      rw [hnext] at ih
      omega
  · intro h
    rcases Int.le_total 0 n with hn | hn
    · have ha : next^[n.toNat] e = a := hf (by rw [hiter, h, Int.toNat_of_nonneg hn])
      rw [← ha]
      simpa [hn] using (start : StepsFrom next e e 0).iterate_forward n.toNat
    · have he : next^[(-n).toNat] a = e := hf (by rw [hiter, h]; omega)
      refine iterate_backward (k := (-n).toNat) ?_
      rw [he, show n + ((-n).toNat : Int) = 0 by omega]
      exact start

end StepsFrom

namespace Calendar

/-- Every 4th year, not every 100th, but every 400th. -/
def IsLeap (year : Int) : Prop := 4 ∣ year ∧ (¬ 100 ∣ year ∨ 400 ∣ year)

instance (year : Int) : Decidable (IsLeap year) := inferInstanceAs (Decidable (_ ∧ _))

def daysInMonth (year : Int) (month : Nat) : Nat :=
  if month = 2 then if IsLeap year then 29 else 28
  else if month = 4 ∨ month = 6 ∨ month = 9 ∨ month = 11 then 30
  else 31

theorem daysInMonth_pos (year : Int) (month : Nat) : 1 ≤ daysInMonth year month := by
  unfold daysInMonth
  split_ifs <;> decide

/-- A date of the calendar, extended to all years. -/
@[ext]
structure Date where
  year : Int
  month : Nat
  day : Nat
  month_mem : 1 ≤ month ∧ month ≤ 12
  day_mem : 1 ≤ day ∧ day ≤ daysInMonth year month
deriving DecidableEq

theorem january_mem : 1 ≤ 1 ∧ 1 ≤ 12 := by decide

def Date.next (d : Date) : Date :=
  if h : d.day < daysInMonth d.year d.month then
    ⟨d.year, d.month, d.day + 1, d.month_mem, Nat.le_add_left _ _, h⟩
  else if h : d.month < 12 then
    ⟨d.year, d.month + 1, 1, ⟨Nat.le_add_left _ _, h⟩, le_rfl, daysInMonth_pos _ _⟩
  else
    ⟨d.year + 1, 1, 1, january_mem, le_rfl, daysInMonth_pos _ _⟩

/-! ## Years from March on -/

def yearStart (y : Int) : Int := 365 * y + y / 4 - y / 100 + y / 400

def monthStart (m : Int) : Int := 367 * m / 12

namespace Date

variable (d e : Date)

/-- The year in which the last March began. -/
def marchYear : Int := if d.month ≤ 2 then d.year - 1 else d.year

/-- March is month 1, February month 12. -/
def marchMonth : Int := if d.month ≤ 2 then d.month + 10 else d.month - 2

def dayNumber : Int := yearStart d.marchYear + monthStart d.marchMonth + d.day

end Date

theorem yearStart_succ (y : Int) :
    yearStart (y + 1) = yearStart y + if IsLeap (y + 1) then 366 else 365 := by
  rcases em (IsLeap (y + 1)) with h | h
  · rw [if_pos h]
    unfold IsLeap at h
    unfold yearStart
    omega
  · rw [if_neg h]
    unfold IsLeap at h
    unfold yearStart
    omega

theorem yearStart_le {x y : Int} (h : x ≤ y) : yearStart x ≤ yearStart y := by
  unfold yearStart
  omega

/-- From March to January, `367 * m / 12` goes up by the days of the month. -/
theorem monthStart_add_days {y : Int} {m : Nat} (h : 1 ≤ m ∧ m ≤ 12) (hm : m ≠ 2) :
    monthStart (if m ≤ 2 then (m : Int) + 10 else m - 2) + daysInMonth y m =
      monthStart ((if m ≤ 2 then (m : Int) + 10 else m - 2) + 1) := by
  obtain ⟨h1, h12⟩ := h
  interval_cases m <;> first | exact absurd rfl hm | rfl

/-- February ends the year, 30 days before its number says: March starts at 30. -/
theorem february_add_days (y : Int) :
    yearStart (y - 1) + monthStart 12 + daysInMonth y 2 = yearStart y + 30 := by
  have hyear := yearStart_succ (y - 1)
  have h12 : monthStart 12 = 367 := rfl
  rw [sub_add_cancel] at hyear
  rw [hyear, h12, daysInMonth, if_pos rfl]
  rcases em (IsLeap y) with h | h
  · rw [if_pos h, if_pos h]
    omega
  · rw [if_neg h, if_neg h]
    omega

namespace Date

variable {d e : Date}

theorem marchMonth_mem : 1 ≤ d.marchMonth ∧ d.marchMonth ≤ 12 := by
  obtain ⟨h1, h12⟩ := d.month_mem
  unfold marchMonth
  split <;> omega

theorem marchMonth_lt (h : d.month ≠ 2) : d.marchMonth < 12 := by
  obtain ⟨h1, h12⟩ := d.month_mem
  unfold marchMonth
  split <;> omega

theorem ext_march (hy : d.marchYear = e.marchYear) (hm : d.marchMonth = e.marchMonth)
    (hd : d.day = e.day) : d = e := by
  obtain ⟨h1, h12⟩ := d.month_mem
  obtain ⟨h1', h12'⟩ := e.month_mem
  unfold marchMonth at hm
  have hmonth : d.month = e.month := by
    split at hm <;> split at hm <;> omega
  unfold marchYear at hy
  rw [hmonth] at hy
  refine Date.ext ?_ hmonth hd
  split at hy <;> omega

/-- The last day of a month comes right before the start of the next one. -/
theorem monthStart_add_day_le (h : d.month ≠ 2) :
    monthStart d.marchMonth + d.day ≤ monthStart (d.marchMonth + 1) := by
  have hday := d.day_mem.2
  have hend := monthStart_add_days (y := d.year) d.month_mem h
  unfold marchMonth
  omega

theorem dayNumber_le : d.dayNumber ≤ yearStart (d.marchYear + 1) + 30 := by
  have hday := d.day_mem.2
  rcases eq_or_ne d.month 2 with h2 | h2
  · have hend := february_add_days d.year
    rw [h2] at hday
    simp only [dayNumber, marchYear, marchMonth, h2, le_refl, if_true, sub_add_cancel]
    change _ + monthStart 12 + _ ≤ _
    omega
  · have hend := monthStart_add_day_le h2
    have hyear := yearStart_succ d.marchYear
    have hle : monthStart (d.marchMonth + 1) ≤ monthStart 12 := by
      have hm := marchMonth_lt h2
      unfold monthStart
      omega
    have h12 : monthStart 12 = 367 := rfl
    unfold dayNumber
    split at hyear <;> omega

theorem lt_dayNumber : yearStart d.marchYear + 30 < d.dayNumber := by
  have hday := d.day_mem.1
  have hm := d.marchMonth_mem.1
  unfold dayNumber monthStart
  omega

/-! ## The numbers count the days -/

theorem dayNumber_lt_of_year (h : d.marchYear < e.marchYear) : d.dayNumber < e.dayNumber :=
  calc d.dayNumber ≤ yearStart (d.marchYear + 1) + 30 := dayNumber_le
    _ ≤ yearStart e.marchYear + 30 := by have := yearStart_le (Int.add_one_le_of_lt h); omega
    _ < e.dayNumber := lt_dayNumber

theorem dayNumber_lt_of_month (hy : d.marchYear = e.marchYear) (h : d.marchMonth < e.marchMonth) :
    d.dayNumber < e.dayNumber := by
  have hday := e.day_mem.1
  have h12 := e.marchMonth_mem.2
  have hne : d.month ≠ 2 := fun h2 => by
    have hm : d.marchMonth = 12 := by rw [marchMonth, h2]; rfl
    omega
  have hend := monthStart_add_day_le hne
  have hle : monthStart (d.marchMonth + 1) ≤ monthStart e.marchMonth := by
    unfold monthStart
    omega
  unfold dayNumber
  rw [hy]
  omega

theorem dayNumber_injective : Function.Injective dayNumber := by
  intro d e h
  have hy : d.marchYear = e.marchYear := by
    rcases lt_trichotomy d.marchYear e.marchYear with hlt | heq | hgt
    · exact absurd h (dayNumber_lt_of_year hlt).ne
    · exact heq
    · exact absurd h (dayNumber_lt_of_year hgt).ne'
  have hm : d.marchMonth = e.marchMonth := by
    rcases lt_trichotomy d.marchMonth e.marchMonth with hlt | heq | hgt
    · exact absurd h (dayNumber_lt_of_month hy hlt).ne
    · exact heq
    · exact absurd h (dayNumber_lt_of_month hy.symm hgt).ne'
  refine ext_march hy hm ?_
  unfold dayNumber at h
  rw [hy, hm] at h
  omega

/-- The number of the first day of the next month, unless that is a March. -/
theorem dayNumber_of_month_end (h2 : d.month ≠ 2) (hlast : d.day = daysInMonth d.year d.month)
    (hy : e.marchYear = d.marchYear) (hm : e.marchMonth = d.marchMonth + 1) (h1 : e.day = 1) :
    e.dayNumber = d.dayNumber + 1 := by
  have hend := monthStart_add_days (y := d.year) d.month_mem h2
  unfold dayNumber
  rw [hy, hm, h1, hlast]
  unfold marchMonth
  omega

/-- One number per step. The end of the calendar's year is the end of a month like any
other; the year that the numbers see ends with February. -/
theorem dayNumber_next (d : Date) : d.next.dayNumber = d.dayNumber + 1 := by
  have hday := d.day_mem.2
  obtain ⟨h1, h12⟩ := d.month_mem
  unfold next
  split
  · show yearStart d.marchYear + monthStart d.marchMonth + ((d.day + 1 : Nat) : Int) =
      d.dayNumber + 1
    unfold dayNumber
    omega
  · next hlast =>
    have hlast : d.day = daysInMonth d.year d.month := by omega
    split
    · next hm =>
      rcases eq_or_ne d.month 2 with h2 | h2
      · have hend := february_add_days d.year
        simp only [dayNumber, marchYear, marchMonth, hlast, h2]
        change yearStart d.year + 30 + 1 = yearStart (d.year - 1) + monthStart 12 + _ + 1
        omega
      · refine dayNumber_of_month_end h2 hlast ?_ ?_ rfl
        · dsimp only [marchYear]
          split <;> split <;> omega
        · dsimp only [marchMonth]
          split <;> split <;> omega
    · next hm =>
      have hdec : d.month = 12 := by omega
      refine dayNumber_of_month_end (by omega) hlast ?_ ?_ rfl
      · simp [marchYear, hdec]
      · simp [marchMonth, hdec]

/-- The numbers count the days from any date on. -/
theorem stepsFrom_iff {n : Int} :
    StepsFrom next e d n ↔ d.dayNumber = e.dayNumber + n :=
  StepsFrom.iff_of_numbering dayNumber_next dayNumber_injective

end Date

end Calendar
