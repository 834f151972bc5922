import Mathlib.Tactic.Ring
import Uki.Jiffies.Timespec
import Uki.Lib.Word

/-!
# Rounding deadlines to whole seconds

`round_jiffies_common` of `timer.c` and the functions on it. The deadline is skewed by the
cpu, rounded and skewed back, modulo the word size, and kept as it was when the result is
not above `jiffies`. That last test compares numbers, not times, so a deadline that is
rounded over the wrap is taken for one in the past, and the other way round
(`round_jiffies_safe_iff`).
-/

set_option linter.style.nameCheck false

namespace Uki

variable {m : LongModel}

/-- `cpu * 3` is an `int`. -/
def skew (m : LongModel) (cpu : BitVec 32) : ULong m := (cpu * 3).signExtend m.bits

/-- `rem` is an `int`. -/
def roundSecond (j : ULong m) (forceUp : Bool) : ULong m :=
  let rem : BitVec 32 := (j % (HZ : ULong m)).setWidth 32
  if rem.toInt < (HZ / 4 : Nat) ∧ !forceUp then
    j - rem.signExtend m.bits
  else
    j - rem.signExtend m.bits + (HZ : ULong m)

/-- The value of `j` before the last test. -/
def rounded (j : ULong m) (cpu : BitVec 32) (forceUp : Bool) : ULong m :=
  let j := j + skew m cpu
  let j := roundSecond j forceUp
  j - skew m cpu

def roundJiffiesCommon (jiffies j : ULong m) (cpu : BitVec 32) (forceUp : Bool) : ULong m :=
  let original := j
  let j := rounded j cpu forceUp
  if j ≤ jiffies then
    original
  else
    j

def __roundJiffies (jiffies j : ULong m) (cpu : BitVec 32) : ULong m :=
  roundJiffiesCommon jiffies j cpu false

def __roundJiffiesRelative (jiffies j : ULong m) (cpu : BitVec 32) : ULong m :=
  let j0 := jiffies
  roundJiffiesCommon jiffies (j + j0) cpu false - j0

def __roundJiffiesUp (jiffies j : ULong m) (cpu : BitVec 32) : ULong m :=
  roundJiffiesCommon jiffies j cpu true

def __roundJiffiesUpRelative (jiffies j : ULong m) (cpu : BitVec 32) : ULong m :=
  let j0 := jiffies
  roundJiffiesCommon jiffies (j + j0) cpu true - j0

/-! ## One rounding -/

/-- The rest of a time in its second. -/
def inSecond (x : ULong m) : Nat := x.toNat % HZ

/-- The rounding goes down. -/
def RoundsDown (x : ULong m) (forceUp : Bool) : Prop := inSecond x < HZ / 4 ∧ forceUp = false

instance (x : ULong m) (forceUp : Bool) : Decidable (RoundsDown x forceUp) :=
  inferInstanceAs (Decidable (_ ∧ _))

theorem inSecond_lt (x : ULong m) : inSecond x < HZ := Nat.mod_lt _ (by decide)

theorem toNat_HZ : (HZ : ULong m).toNat = HZ := by cases m <;> rfl

/-- `rem` keeps its value on the way through `int`. -/
theorem signExtend_rem (x : ULong m) :
    ((x % (HZ : ULong m)).setWidth 32).toInt = inSecond x ∧
      ((x % (HZ : ULong m)).setWidth 32).signExtend m.bits = BitVec.ofNat m.bits (inSecond x) := by
  have hlt := inSecond_lt x
  have hword : ((x % (HZ : ULong m)).setWidth 32).toNat = inSecond x := by
    rw [BitVec.toNat_setWidth, BitVec.toNat_umod, toNat_HZ]
    exact Nat.mod_eq_of_lt (hlt.trans (by decide))
  have hint : ((x % (HZ : ULong m)).setWidth 32).toInt = inSecond x := by
    rw [BitVec.toInt_eq_toNat_of_lt, hword]
    rw [hword]
    exact Nat.lt_trans (Nat.mul_lt_mul_of_pos_left hlt Nat.two_pos) (by decide)
  refine ⟨hint, ?_⟩
  rw [BitVec.signExtend, hint, BitVec.ofInt_natCast]

theorem roundSecond_eq (x : ULong m) (forceUp : Bool) :
    roundSecond x forceUp =
      if RoundsDown x forceUp then x - BitVec.ofNat _ (inSecond x)
      else x - BitVec.ofNat _ (inSecond x) + (HZ : ULong m) := by
  obtain ⟨hint, hext⟩ := signExtend_rem x
  unfold roundSecond
  dsimp only
  rw [hint, hext]
  refine if_congr ?_ rfl rfl
  rw [RoundsDown, Int.ofNat_lt, Bool.not_eq_true']

theorem toNat_sub_rem (x : ULong m) {k : Nat} (hk : k < HZ) :
    (k ≤ x.toNat ∧ (x - BitVec.ofNat m.bits k).toNat + k = x.toNat) ∨
      (x.toNat < k ∧ (x - BitVec.ofNat m.bits k).toNat + k = x.toNat + 2 ^ m.bits) := by
  have hword : (BitVec.ofNat m.bits k).toNat = k := by
    rw [BitVec.toNat_ofNat]
    refine Nat.mod_eq_of_lt (hk.trans ?_)
    cases m <;> decide
  have hsub := Words.toNat_sub_cases x (BitVec.ofNat m.bits k)
  rwa [hword] at hsub

theorem toNat_sub_rem_add (x : ULong m) {k : Nat} (hk : k < HZ) :
    (x.toNat + HZ < 2 ^ m.bits + k ∧
      (x - BitVec.ofNat m.bits k + (HZ : ULong m)).toNat + k = x.toNat + HZ) ∨
    (2 ^ m.bits + k ≤ x.toNat + HZ ∧
      (x - BitVec.ofNat m.bits k + (HZ : ULong m)).toNat + k + 2 ^ m.bits = x.toNat + HZ) := by
  have hsub := toNat_sub_rem x hk
  have hadd := Words.toNat_add_cases (x - BitVec.ofNat m.bits k) (HZ : ULong m)
  have hx := x.isLt
  rw [toNat_HZ] at hadd
  omega

theorem rounded_eq (j : ULong m) (cpu : BitVec 32) (forceUp : Bool) :
    rounded j cpu forceUp =
      if RoundsDown (j + skew m cpu) forceUp then j - BitVec.ofNat _ (inSecond (j + skew m cpu))
      else j - BitVec.ofNat _ (inSecond (j + skew m cpu)) + (HZ : ULong m) := by
  unfold rounded
  dsimp only
  rw [roundSecond_eq]
  split <;> ring

/-! ## The wrap -/

/-- The deadline is rounded without wrapping, unless it is over the wrap itself. Then it is
either on its second already or rounded back over the wrap. -/
def RoundsWithin (jiffies j : ULong m) (cpu : BitVec 32) (forceUp : Bool) : Prop :=
  if jiffies < j then
    if RoundsDown (j + skew m cpu) forceUp then
      inSecond (j + skew m cpu) ≤ j.toNat
    else
      j.toNat + HZ < 2 ^ m.bits + inSecond (j + skew m cpu)
  else
    RoundsDown (j + skew m cpu) forceUp ∧
      (inSecond (j + skew m cpu) = 0 ∨ j.toNat < inSecond (j + skew m cpu))

instance (jiffies j : ULong m) (cpu : BitVec 32) (forceUp : Bool) :
    Decidable (RoundsWithin jiffies j cpu forceUp) :=
  inferInstanceAs (Decidable (ite _ _ _))

theorem roundJiffiesCommon_eq (jiffies j : ULong m) (cpu : BitVec 32) (forceUp : Bool) :
    roundJiffiesCommon jiffies j cpu forceUp =
      if rounded j cpu forceUp ≤ jiffies then j else rounded j cpu forceUp := rfl

/-- The last test compares as `time_after` does, or the deadline is rounded already. -/
def TestAgrees (jiffies j r : ULong m) : Prop :=
  r = j ∨ (r ≤ jiffies ∧ ¬ timeAfter r jiffies = true) ∨
    (¬ r ≤ jiffies ∧ timeAfter r jiffies = true)

/-- Rounding down wraps below 0. -/
theorem toNat_rounded_down {j : ULong m} {cpu : BitVec 32} {forceUp : Bool}
    (h : RoundsDown (j + skew m cpu) forceUp) :
    (inSecond (j + skew m cpu) ≤ j.toNat ∧
      (rounded j cpu forceUp).toNat + inSecond (j + skew m cpu) = j.toNat) ∨
    (j.toNat < inSecond (j + skew m cpu) ∧
      (rounded j cpu forceUp).toNat + inSecond (j + skew m cpu) = j.toNat + 2 ^ m.bits) := by
  rw [rounded_eq, if_pos h]
  exact toNat_sub_rem j (inSecond_lt _)

/-- Rounding up wraps at the word size. -/
theorem toNat_rounded_up {j : ULong m} {cpu : BitVec 32} {forceUp : Bool}
    (h : ¬ RoundsDown (j + skew m cpu) forceUp) :
    (j.toNat + HZ < 2 ^ m.bits + inSecond (j + skew m cpu) ∧
      (rounded j cpu forceUp).toNat + inSecond (j + skew m cpu) = j.toNat + HZ) ∨
    (2 ^ m.bits + inSecond (j + skew m cpu) ≤ j.toNat + HZ ∧
      (rounded j cpu forceUp).toNat + inSecond (j + skew m cpu) + 2 ^ m.bits = j.toNat + HZ) := by
  rw [rounded_eq, if_neg h]
  exact toNat_sub_rem_add j (inSecond_lt _)

/-- The two comparisons agree, on numbers. -/
theorem testAgrees_iff {jiffies j : ULong m} {cpu : BitVec 32} {forceUp : Bool}
    (h0 : 1 ≤ (j - jiffies).toNat) (h1 : (j - jiffies).toNat + HZ < half m) :
    TestAgrees jiffies j (rounded j cpu forceUp) ↔ RoundsWithin jiffies j cpu forceUp := by
  have hlt := inSecond_lt (j + skew m cpu)
  have hdist := Words.toNat_sub_cases j jiffies
  have hback := Words.toNat_sub_cases jiffies (rounded j cpu forceUp)
  have hj := j.isLt
  have hjiffies := jiffies.isLt
  have hR := (rounded j cpu forceUp).isLt
  have hhalf := le_half m
  have htwo := two_half m
  have hHZ : HZ = 100 := rfl
  unfold TestAgrees RoundsWithin
  rw [timeAfter_iff, ahead, ← BitVec.toNat_inj, BitVec.le_def]
  rcases em (RoundsDown (j + skew m cpu) forceUp) with hdown | hup
  · have hr := toNat_rounded_down hdown
    have hquarter := hdown.1
    simp only [hdown, if_true, true_and]
    split <;> rename_i hwrap <;> rw [BitVec.lt_def] at hwrap
    · omega
    · omega
  · have hr := toNat_rounded_up hup
    simp only [hup, if_false, false_and]
    split <;> rename_i hwrap <;> rw [BitVec.lt_def] at hwrap
    · omega
    · refine iff_of_false ?_ id
      omega

theorem roundJiffiesCommon_iff (jiffies j : ULong m) (cpu : BitVec 32) (forceUp : Bool) :
    roundJiffiesCommon jiffies j cpu forceUp =
        (if timeAfter (rounded j cpu forceUp) jiffies then rounded j cpu forceUp else j) ↔
      TestAgrees jiffies j (rounded j cpu forceUp) := by
  unfold TestAgrees
  rw [roundJiffiesCommon_eq]
  rcases em (rounded j cpu forceUp ≤ jiffies) with hle | hgt
  · rcases em (timeAfter (rounded j cpu forceUp) jiffies = true) with hafter | hafter
    · simp only [hle, hafter, if_true, eq_comm, not_true_eq_false, and_false, false_and, or_false]
    · simp [hle, hafter]
  · rcases em (timeAfter (rounded j cpu forceUp) jiffies = true) with hafter | hafter
    · simp [hgt, hafter]
    · simp [hgt, hafter]

theorem toInt_LONG_MAX (m : LongModel) : (LONG_MAX m).toInt = half m - 1 := by
  cases m <;> decide

/-- A deadline in the future is rounded as far as it stays in the future, exactly when the
rounding is within the wrap. -/
theorem round_jiffies_safe_iff (jiffies j : ULong m) (cpu : BitVec 32) (forceUp : Bool)
    (h0 : 1 ≤ (j - jiffies).toInt) (h1 : (j - jiffies).toInt ≤ (LONG_MAX m).toInt - HZ) :
    (roundJiffiesCommon jiffies j cpu forceUp =
        (if timeAfter (rounded j cpu forceUp) jiffies then rounded j cpu forceUp else j) ∧
      timeAfter (roundJiffiesCommon jiffies j cpu forceUp) jiffies = true) ↔
      RoundsWithin jiffies j cpu forceUp := by
  have hnat : ((j - jiffies).toNat : Int) = (j - jiffies).toInt :=
    Words.coe_toNat_of_nonneg (by omega)
  rw [toInt_LONG_MAX, ← hnat] at h1
  rw [← hnat] at h0
  have hfuture : timeAfter j jiffies = true := by
    have hback := Words.toNat_sub_cases jiffies j
    have hdist := Words.toNat_sub_cases j jiffies
    have htwo := two_half m
    rw [timeAfter_iff, ahead]
    omega
  rw [← testAgrees_iff (by omega) (by omega), ← roundJiffiesCommon_iff]
  refine and_iff_left_of_imp fun h => ?_
  rw [h]
  split
  · assumption
  · exact hfuture

/-- A deadline beyond the wrap, rounded back over it. -/
theorem round_jiffies_safe_iff_test1 :
    roundJiffiesCommon (4294967246 : ULong .long32) 10 1 false =
        (if timeAfter (rounded (10 : ULong .long32) 1 false) 4294967246 then rounded 10 1 false
          else 10) ∧
      timeAfter (roundJiffiesCommon (4294967246 : ULong .long32) 10 1 false) 4294967246 = true :=
  (round_jiffies_safe_iff (4294967246 : ULong .long32) 10 1 false (by decide) (by decide)).mpr
    (by decide)

/-- A deadline beyond the wrap is not rounded. A deadline at 10, with 3 ticks of skew, is
rounded to the end of the range, which has passed at 5. -/
theorem round_jiffies_safe_counterexample :
    (¬ ∀ (jiffies j : ULong .long64) (cpu : BitVec 32), 0 ≤ cpu.toInt → 3 * cpu.toInt < 2 ^ 31 →
      1 ≤ (j - jiffies).toInt → (j - jiffies).toInt ≤ (LONG_MAX .long64).toInt - HZ →
      timeAfter (rounded j cpu false) jiffies = true →
      roundJiffiesCommon jiffies j cpu false = rounded j cpu false) ∧
    ¬ ∀ (jiffies j : ULong .long32) (cpu : BitVec 32), 0 ≤ cpu.toInt → 3 * cpu.toInt < 2 ^ 31 →
      1 ≤ (j - jiffies).toInt → (j - jiffies).toInt ≤ (LONG_MAX .long32).toInt - HZ →
      timeAfter (roundJiffiesCommon jiffies j cpu false) jiffies = true := by
  constructor
  · intro hall
    exact absurd (hall (-10) 50 0 (by decide) (by decide) (by decide) (by decide) (by decide))
      (by decide)
  · intro hall
    exact absurd (hall 5 10 1 (by decide) (by decide) (by decide) (by decide)) (by decide)

/-- A relative deadline is an absolute one, seen from `jiffies`. -/
theorem __roundJiffiesRelative_add (jiffies j : ULong m) (cpu : BitVec 32) :
    __roundJiffiesRelative jiffies j cpu + jiffies = __roundJiffies jiffies (j + jiffies) cpu ∧
      __roundJiffiesUpRelative jiffies j cpu + jiffies =
        __roundJiffiesUp jiffies (j + jiffies) cpu :=
  ⟨BitVec.sub_add_cancel _ _, BitVec.sub_add_cancel _ _⟩

/-! ## Rounding twice -/

theorem rounded_add_skew (j : ULong m) (cpu : BitVec 32) (forceUp : Bool) :
    rounded j cpu forceUp + skew m cpu = roundSecond (j + skew m cpu) forceUp :=
  BitVec.sub_add_cancel _ _

theorem roundSecond_of_whole {x : ULong m} (h : inSecond x = 0) : roundSecond x false = x := by
  have hdown : RoundsDown x false := ⟨by rw [h]; decide, rfl⟩
  rw [roundSecond_eq, if_pos hdown, h]
  exact BitVec.sub_zero x

/-- On 32 bits the last second has 96 ticks, and from the 25th on rounding goes up. -/
def RoundsOver (x : ULong m) : Prop := m = .long32 ∧ 2 ^ 32 - 71 ≤ x.toNat

/-- The result is a whole second, or the last second was rounded up over the wrap. -/
theorem inSecond_roundSecond (x : ULong m) (h : ¬ RoundsOver x) :
    inSecond (roundSecond x false) = 0 := by
  have hx := x.isLt
  have hr : inSecond x = x.toNat % 100 := rfl
  rw [roundSecond_eq]
  split
  · have hsub := toNat_sub_rem x (inSecond_lt x)
    unfold inSecond HZ at *
    omega
  · next hup =>
    have hquarter : 25 ≤ inSecond x := not_lt.mp fun hlt => hup ⟨hlt, rfl⟩
    have hadd := toNat_sub_rem_add x (inSecond_lt x)
    have hHZ : HZ = 100 := rfl
    show BitVec.toNat _ % 100 = 0
    cases m with
    | long32 =>
      have hlt : x.toNat < 2 ^ 32 - 71 := not_le.mp fun hle => h ⟨rfl, hle⟩
      simp only [LongModel.bits] at *
      omega
    | long64 =>
      simp only [LongModel.bits] at *
      omega

/-- Rounding over the wrap leaves the 4 ticks that the words are more than whole seconds. -/
theorem roundSecond_over {x : ULong .long32} (h : 2 ^ 32 - 71 ≤ x.toNat) :
    roundSecond x false = 4 := by
  have hx : x.toNat < 2 ^ 32 := x.isLt
  have hr : inSecond x = x.toNat % 100 := rfl
  have hup : ¬ RoundsDown x false := fun hdown => by
    have hquarter : inSecond x < 25 := hdown.1
    omega
  have hadd := toNat_sub_rem_add x (inSecond_lt x)
  have hHZ : HZ = 100 := rfl
  have hfour : (4 : ULong .long32).toNat = 4 := rfl
  apply BitVec.eq_of_toNat_eq
  rw [roundSecond_eq, if_neg hup, hfour]
  simp only [LongModel.bits] at *
  omega

theorem roundSecond_four : roundSecond (4 : ULong .long32) false = 0 := by decide

/-- The whole second after `x`. -/
def secondAfter (x : ULong m) : ULong m := BitVec.ofNat m.bits (HZ * (x.toNat / HZ + 1))

theorem roundSecond_up (x : ULong m) : roundSecond x true = secondAfter x := by
  have hup : ¬ RoundsDown x true := fun hdown => nomatch hdown.2
  have hx : HZ * (x.toNat / HZ + 1) + inSecond x = x.toNat + HZ := by
    rw [inSecond, Nat.mul_add, Nat.mul_one, Nat.add_right_comm, Nat.div_add_mod]
  have hword : secondAfter x + BitVec.ofNat m.bits (inSecond x) = x + (HZ : ULong m) := by
    rw [secondAfter, ← BitVec.ofNat_add, hx, BitVec.ofNat_add, BitVec.ofNat_toNat,
      BitVec.setWidth_eq]
    rfl
  rw [roundSecond_eq, if_neg hup, ← BitVec.add_sub_cancel (secondAfter x), hword]
  ring

theorem secondAfter_ne (x : ULong m) : secondAfter x ≠ x := by
  have hlt := inSecond_lt x
  have hadd := toNat_sub_rem_add x hlt
  have hhalf := le_half m
  have htwo := two_half m
  have hHZ : HZ = 100 := rfl
  have hup : ¬ RoundsDown x true := fun hdown => nomatch hdown.2
  rw [← roundSecond_up, roundSecond_eq, if_neg hup]
  intro he
  rw [he] at hadd
  omega

theorem rounded_rounded (j : ULong m) (cpu : BitVec 32) (forceUp : Bool) :
    rounded (rounded j cpu forceUp) cpu forceUp =
      roundSecond (roundSecond (j + skew m cpu) forceUp) forceUp - skew m cpu := by
  rw [← rounded_add_skew]
  rfl

/-- Rounding twice is rounding once unless the last test lets both roundings pass and the
second one changes the deadline. -/
theorem roundJiffiesCommon_twice (jiffies j : ULong m) (cpu : BitVec 32) (forceUp : Bool) :
    roundJiffiesCommon jiffies (roundJiffiesCommon jiffies j cpu forceUp) cpu forceUp =
        roundJiffiesCommon jiffies j cpu forceUp ↔
      rounded j cpu forceUp ≤ jiffies ∨
        rounded (rounded j cpu forceUp) cpu forceUp ≤ jiffies ∨
        rounded (rounded j cpu forceUp) cpu forceUp = rounded j cpu forceUp := by
  rcases em (rounded j cpu forceUp ≤ jiffies) with hle | hgt
  · have hkept : roundJiffiesCommon jiffies j cpu forceUp = j := if_pos hle
    rw [hkept, hkept]
    exact iff_of_true rfl (.inl hle)
  · have hrounded : roundJiffiesCommon jiffies j cpu forceUp = rounded j cpu forceUp := if_neg hgt
    rw [hrounded, roundJiffiesCommon_eq, or_iff_right hgt]
    split
    · next hle => exact iff_of_true rfl (.inl hle)
    · next hgt => exact (or_iff_right hgt).symm

/-- `__round_jiffies` is idempotent unless it rounds up over the wrap and the last test lets
4 ticks and 0 ticks pass. `__round_jiffies_up` moves a whole second on, so it is idempotent
only where the last test stops the first or the second move. -/
theorem round_jiffies_idempotent_iff (jiffies j : ULong m) (cpu : BitVec 32) :
    (__roundJiffies jiffies (__roundJiffies jiffies j cpu) cpu = __roundJiffies jiffies j cpu ↔
      ¬ (RoundsOver (j + skew m cpu) ∧ jiffies < 4 - skew m cpu ∧ jiffies < 0 - skew m cpu)) ∧
    (__roundJiffiesUp jiffies (__roundJiffiesUp jiffies j cpu) cpu =
        __roundJiffiesUp jiffies j cpu ↔
      secondAfter (j + skew m cpu) - skew m cpu ≤ jiffies ∨
        secondAfter (secondAfter (j + skew m cpu)) - skew m cpu ≤ jiffies) := by
  refine ⟨(roundJiffiesCommon_twice jiffies j cpu false).trans ?_,
    (roundJiffiesCommon_twice jiffies j cpu true).trans ?_⟩
  · rw [rounded_rounded, rounded]
    rcases em (RoundsOver (j + skew m cpu)) with hover | hwithin
    · obtain ⟨rfl, hlast⟩ := hover
      have hne : 0 - skew .long32 cpu ≠ 4 - skew .long32 cpu := fun he =>
        absurd (sub_left_injective he) (by decide)
      rw [roundSecond_over hlast, roundSecond_four, or_iff_left hne, ← BitVec.not_lt,
        ← BitVec.not_lt, ← not_and_or, and_iff_right (show RoundsOver _ from ⟨rfl, hlast⟩)]
    · have hwhole := roundSecond_of_whole (inSecond_roundSecond _ hwithin)
      exact iff_of_true (.inr (.inr (congrArg (· - skew m cpu) hwhole))) fun h => hwithin h.1
  · have hne : secondAfter (secondAfter (j + skew m cpu)) - skew m cpu ≠
        secondAfter (j + skew m cpu) - skew m cpu := fun he =>
      secondAfter_ne _ (sub_left_injective he)
    rw [rounded_rounded, rounded, roundSecond_up, roundSecond_up, or_iff_left hne]

/-- With 6 ticks of skew the last deadlines are moved on and then back, by 4 ticks. A
deadline that is rounded up is moved on by a second whenever it is rounded again. -/
theorem round_jiffies_idempotent_counterexample :
    (¬ ∀ (jiffies j : ULong .long32) (cpu : BitVec 32), 0 ≤ cpu.toInt →
      __roundJiffies jiffies (__roundJiffies jiffies j cpu) cpu = __roundJiffies jiffies j cpu) ∧
    ¬ ∀ (jiffies j : ULong .long64) (cpu : BitVec 32), 0 ≤ cpu.toInt →
      __roundJiffiesUp jiffies (__roundJiffiesUp jiffies j cpu) cpu =
        __roundJiffiesUp jiffies j cpu := by
  constructor
  · intro hall
    exact absurd (hall 0 4294967289 2 (by decide)) (by decide)
  · intro hall
    exact absurd (hall 0 1 0 (by decide)) (by decide)

end Uki
