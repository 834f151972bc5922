import Uki.Jiffies.Timespec

/-!
# The jiffies clock

`jiffies_worker` converts a reading of the clock with `time_to_jiffies`, a
conversion made for timeouts. On 32 bits the result stops at `MAX_SEC_IN_JIFFIES`,
after 124 days. On 64 bits it starts again at 0 after `jiffyPeriod` ticks, which is
174 years, and stops after 584 (`jiffies_advances_counterexample`). Two readings that
are a tick apart give advancing jiffies exactly when neither comes between them
(`jiffies_advances_iff`).
-/

namespace Uki

variable {m : LongModel}

/-- A normalised reading of the clock. -/
structure Reading (m : LongModel) extends Timespec m where
  sec_nonneg : 0 ≤ tvSec.toInt
  nsec_nonneg : 0 ≤ tvNsec.toInt
  nsec_lt : tvNsec.toInt < NSEC_PER_SEC

/-- What `jiffies_worker` stores in `jiffies`. -/
def timeToJiffies (ti : Timespec m) : ULong m := timespecToJiffies ti

namespace Reading

def nsecs (t : Reading m) : Nat := (timespecToTimespec64 t.toTimespec).nsecs

def ticks (t : Reading m) : Nat := (timespecToTimespec64 t.toTimespec).ticks

/-- `t₁` is before the last jiffy, and `t₂`, or the last jiffy if that comes first, is
later in its period than `t₁` is in its own. -/
def Before (t₁ t₂ : Reading m) : Prop :=
  t₁.ticks < lastJiffy m ∧
    t₁.ticks % jiffyPeriod < min t₂.ticks (lastJiffy m) % jiffyPeriod

instance (t₁ t₂ : Reading m) : Decidable (t₁.Before t₂) := inferInstanceAs (Decidable (_ ∧ _))

theorem toNat_timeToJiffies (t : Reading m) :
    (timeToJiffies t.toTimespec).toNat = min t.ticks (lastJiffy m) % jiffyPeriod := by
  refine toNat_timespec64ToJiffies ?_
  have h0 := t.nsec_nonneg
  have hlt := t.nsec_lt
  rw [BitVec.toInt_eq_toNat_cond] at h0 hlt
  have := t.tvNsec.isLt
  change t.tvNsec.toNat < NSEC_PER_SEC
  split at h0 <;> omega

theorem timeToJiffies_lt_half (t : Reading m) : (timeToJiffies t.toTimespec).toNat < half m := by
  rw [toNat_timeToJiffies]
  cases m with
  | long32 => exact (Nat.mod_le _ _).trans_lt ((min_le_right _ _).trans_lt (by decide))
  | long64 => exact (Nat.mod_lt _ (by decide)).trans (by decide)

theorem ticks_lt {t₁ t₂ : Reading m} (h : t₁.nsecs + TICK_NSEC ≤ t₂.nsecs) :
    t₁.ticks < t₂.ticks := by
  simp only [ticks, Timespec64.ticks, nsecs, TICK_NSEC, NSEC_PER_SEC, HZ] at *
  omega

/-- On 32 bits the last jiffy comes in the first period. -/
theorem before_long32_iff {t₁ t₂ : Reading .long32} (h : t₁.nsecs + TICK_NSEC ≤ t₂.nsecs) :
    t₁.Before t₂ ↔ t₁.nsecs ≤ (lastJiffy .long32 - 1) * TICK_NSEC := by
  have hlt := ticks_lt h
  have hlast : lastJiffy .long32 < jiffyPeriod := by decide
  have hticks : t₁.ticks < lastJiffy .long32 ↔ t₁.nsecs ≤ (lastJiffy .long32 - 1) * TICK_NSEC := by
    have hl : lastJiffy .long32 = 1073741800 := rfl
    have ht : TICK_NSEC = 10000000 := rfl
    simp only [ticks, Timespec64.ticks, nsecs, hl, ht]
    omega
  rw [← hticks]
  refine ⟨And.left, fun h₁ => ⟨h₁, ?_⟩⟩
  rw [Nat.mod_eq_of_lt (h₁.trans hlast), Nat.mod_eq_of_lt ((min_le_right _ _).trans_lt hlast)]
  exact lt_min hlt h₁

end Reading

/-- Jiffies advance between two readings that are a tick apart exactly when the earlier
one is before the last jiffy and the later one is further in its period. -/
theorem jiffies_advances_iff {t₁ t₂ : Reading m} (h : t₁.nsecs + TICK_NSEC ≤ t₂.nsecs) :
    timeAfter (timeToJiffies t₂.toTimespec) (timeToJiffies t₁.toTimespec) = true ↔
      t₁.Before t₂ := by
  have hlt := Reading.ticks_lt h
  rw [timeAfter_iff_lt t₂.timeToJiffies_lt_half t₁.timeToJiffies_lt_half,
    Reading.toNat_timeToJiffies, Reading.toNat_timeToJiffies]
  unfold Reading.Before
  rcases Nat.lt_or_ge t₁.ticks (lastJiffy m) with h₁ | h₁
  · rw [min_eq_left h₁.le]
    exact (and_iff_right h₁).symm
  · -- both readings are converted to the last jiffy
    rw [min_eq_right h₁, min_eq_right (h₁.trans hlt.le)]
    exact iff_of_false (lt_irrefl _) fun hb => h₁.not_gt hb.1

/-- The first two readings that are a tick apart. -/
theorem jiffies_advances_iff_test1 :
    timeAfter (timeToJiffies (m := .long32) ⟨0, 10000000⟩) (timeToJiffies ⟨0, 0⟩) = true := by
  let t₁ : Reading .long32 := ⟨⟨0, 0⟩, by decide, by decide, by decide⟩
  let t₂ : Reading .long32 := ⟨⟨0, 10000000⟩, by decide, by decide, by decide⟩
  have h : t₁.nsecs + TICK_NSEC ≤ t₂.nsecs := by decide
  exact (jiffies_advances_iff h).mpr (by decide)

/-- On 32 bits jiffies stall from 10737418 s on. On 64 bits they go back at
5497558138.88 s. -/
theorem jiffies_advances_counterexample :
    (¬ ∀ t₁ t₂ : Reading .long32, t₁.nsecs + TICK_NSEC ≤ t₂.nsecs →
      t₂.nsecs - t₁.nsecs < half .long32 * TICK_NSEC →
      timeAfter (timeToJiffies t₂.toTimespec) (timeToJiffies t₁.toTimespec) = true) ∧
    ¬ ∀ t₁ t₂ : Reading .long64, t₁.nsecs + TICK_NSEC ≤ t₂.nsecs →
      t₂.nsecs - t₁.nsecs < half .long64 * TICK_NSEC →
      timeAfter (timeToJiffies t₂.toTimespec) (timeToJiffies t₁.toTimespec) = true := by
  constructor
  · intro hall
    exact absurd (hall ⟨⟨10737418, 0⟩, by decide, by decide, by decide⟩
      ⟨⟨10737419, 0⟩, by decide, by decide, by decide⟩ (by decide) (by decide)) (by decide)
  · intro hall
    exact absurd (hall ⟨⟨5497558138, 0⟩, by decide, by decide, by decide⟩
      ⟨⟨5497558139, 0⟩, by decide, by decide, by decide⟩ (by decide) (by decide)) (by decide)

end Uki
