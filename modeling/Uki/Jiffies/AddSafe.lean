import Uki.Jiffies.Normalize

/-!
# `timespec64_add_safe`

The sum of two valid readings, which stops at `TIME64_MAX`. The seconds are added as
unsigned words and converted, the nanoseconds may carry one more second, and a sum that has
wrapped on the way is recognised afterwards, since it is negative. One pair of readings in
the range gets past the conversion and overflows in the carry (`CarriesAtMax`).
-/

namespace Uki

open Words

variable {m : LongModel} {o : Overflow}

def TIME64_MAX : BitVec 64 := ~~~(1#64 <<< 63)

def timespec64AddSafe (o : Overflow) (n : Nat) (lhs rhs : Timespec64 m) :
    Option (Timespec64 m) := do
  let nsec ← o.sadd lhs.tvNsec rhs.tvNsec
  let res ← setNormalizedTimespec64 o n (lhs.tvSec + rhs.tvSec) (nsec.signExtend 64)
  if res.tvSec.toInt < lhs.tvSec.toInt ∨ res.tvSec.toInt < rhs.tvSec.toInt then
    some ⟨TIME64_MAX, 0⟩
  else
    some res

/-- The seconds add up to the last one and the nanoseconds carry another. -/
def CarriesAtMax (lhs rhs : Timespec64 m) : Prop :=
  lhs.tvSec.toInt + rhs.tvSec.toInt = TIME64_MAX.toInt ∧
    NSEC_PER_SEC ≤ lhs.tvNsec.toInt + rhs.tvNsec.toInt

instance (lhs rhs : Timespec64 m) : Decidable (CarriesAtMax lhs rhs) :=
  inferInstanceAs (Decidable (_ ∧ _))

/-! ## Saturation -/

theorem toInt_TIME64_MAX : TIME64_MAX.toInt = 9223372036854775807 := by decide

/-- The word of a sum of two nonnegative seconds and a carry is negative when the sum is
too large. -/
theorem toInt_ofInt_sum {x : Int} (h0 : 0 ≤ x) (h1 : x < 2 ^ 64) :
    (BitVec.ofInt 64 x).toInt = if x ≤ TIME64_MAX.toInt then x else x - 2 ^ 64 := by
  rw [toInt_TIME64_MAX, BitVec.toInt_eq_toNat_cond, BitVec.toNat_ofInt]
  split_ifs <;> omega

variable {lhs rhs : Timespec64 m}

theorem add_safe_sum (hl : timespec64Valid lhs = true) (hr : timespec64Valid rhs = true)
    (h : o = .trap → ¬ CarriesAtMax lhs rhs) :
    ∃ ts : Timespec64 m,
      Ends (setNormalizedTimespec64 o · (lhs.tvSec + rhs.tvSec)
        ((lhs.tvNsec + rhs.tvNsec).signExtend 64)) ts ∧
      ts.Normalized ∧
      ts.tvSec = BitVec.ofInt 64 ((lhs.total + rhs.total) / NSEC_PER_SEC) ∧
      ts.tvNsec.toInt = (lhs.total + rhs.total) % NSEC_PER_SEC := by
  obtain ⟨hl0, hl⟩ := timespec64Valid_iff.mp hl
  obtain ⟨hr0, hr⟩ := timespec64Valid_iff.mp hr
  have hnsec := (hl.nsec_sum (o := o) hr).2
  have hsec : lhs.tvSec + rhs.tvSec = BitVec.ofInt 64 (lhs.tvSec.toInt + rhs.tvSec.toInt) := by
    rw [BitVec.ofInt_add, BitVec.ofInt_toInt, BitVec.ofInt_toInt]
  have hl1 := lhs.tvSec.toInt_lt
  have hr1 := rhs.tvSec.toInt_lt
  have hword := toInt_ofInt_sum (x := lhs.tvSec.toInt + rhs.tvSec.toInt) (by omega) (by omega)
  obtain ⟨ts, hends, htsec, htnsec⟩ := setNormalizedTimespec64_spec m (o := o)
    (lhs.tvSec + rhs.tvSec) ((lhs.tvNsec + rhs.tvNsec).signExtend 64) fun ho => by
      have hne := h ho
      unfold CarriesAtMax at hne
      unfold Timespec64.Normalized at hl hr
      unfold Fits64
      rw [hnsec, hsec, hword]
      simp only [toInt_TIME64_MAX, NSEC_PER_SEC] at hl hr hne ⊢
      split_ifs <;> omega
  rw [hnsec] at htsec htnsec
  refine ⟨ts, hends, Timespec64.normalized_of_emod htnsec, ?_, ?_⟩
  · rw [htsec, hsec, ← BitVec.ofInt_add]
    unfold Timespec64.total
    simp only [NSEC_PER_SEC]
    congr 1
    omega
  · rw [htnsec]
    unfold Timespec64.total
    simp only [NSEC_PER_SEC]
    omega

/-- The exact sum, or the last second when that is passed. -/
def Saturated (lhs rhs ts : Timespec64 m) : Prop :=
  if (lhs.total + rhs.total) / NSEC_PER_SEC ≤ TIME64_MAX.toInt then
    ts.Normalized ∧ ts.total = lhs.total + rhs.total
  else
    ts = ⟨TIME64_MAX, 0⟩

theorem timespec64AddSafe_spec (hl : timespec64Valid lhs = true) (hr : timespec64Valid rhs = true)
    (h : o = .trap → ¬ CarriesAtMax lhs rhs) :
    ∃ ts : Timespec64 m, Ends (timespec64AddSafe o · lhs rhs) ts ∧ Saturated lhs rhs ts ∧
      timespec64Valid ts = true := by
  obtain ⟨ts, ⟨n, hends⟩, hnorm, htsec, htnsec⟩ := add_safe_sum hl hr h
  obtain ⟨hl0, hl⟩ := timespec64Valid_iff.mp hl
  obtain ⟨hr0, hr⟩ := timespec64Valid_iff.mp hr
  have hadd := (hl.nsec_sum (o := o) hr).1
  have hl1 := lhs.tvSec.toInt_lt
  have hr1 := rhs.tvSec.toInt_lt
  have hsum : lhs.tvSec.toInt + rhs.tvSec.toInt ≤ (lhs.total + rhs.total) / NSEC_PER_SEC ∧
      (lhs.total + rhs.total) / NSEC_PER_SEC ≤ lhs.tvSec.toInt + rhs.tvSec.toInt + 1 := by
    unfold Timespec64.Normalized at hl hr
    unfold Timespec64.total
    simp only [NSEC_PER_SEC] at hl hr ⊢
    omega
  have hsec := toInt_ofInt_sum (x := (lhs.total + rhs.total) / NSEC_PER_SEC) (by omega) (by omega)
  rw [← htsec] at hsec
  have hrun (k : Nat) (hk : n ≤ k) : timespec64AddSafe o k lhs rhs =
      if ts.tvSec.toInt < lhs.tvSec.toInt ∨ ts.tvSec.toInt < rhs.tvSec.toInt then
        some ⟨TIME64_MAX, 0⟩
      else
        some ts := by
    simp only [timespec64AddSafe, hadd, hends k hk, Option.bind_eq_bind, Option.bind_some]
  unfold Saturated
  rcases em ((lhs.total + rhs.total) / NSEC_PER_SEC ≤ TIME64_MAX.toInt) with hle | hgt
  · rw [if_pos hle] at hsec
    refine ⟨ts, ⟨n, fun k hk => (hrun k hk).trans (if_neg (by omega))⟩, ?_,
      timespec64Valid_iff.mpr ⟨by omega, hnorm⟩⟩
    have hdiv := Int.mul_ediv_add_emod (lhs.total + rhs.total) NSEC_PER_SEC
    rw [if_pos hle, Timespec64.total, hsec, htnsec, Int.mul_comm]
    exact ⟨hnorm, hdiv⟩
  · -- the wrapped sum is negative
    rw [if_neg hgt] at hsec
    refine ⟨⟨TIME64_MAX, 0⟩, ⟨n, fun k hk => (hrun k hk).trans (if_pos (by omega))⟩, ?_,
      by cases m <;> decide⟩
    rw [if_neg hgt]

/-- `timespec64_add_safe` is saturating addition. -/
theorem timespec64_add_safe_saturates (lhs rhs : Timespec64 m)
    (hl : timespec64Valid lhs = true) (hr : timespec64Valid rhs = true) :
    ∃ ts : Timespec64 m, Ends (timespec64AddSafe .wrap · lhs rhs) ts ∧
      (if (lhs.total + rhs.total) / 1000000000 ≤ TIME64_MAX.toInt then
        ts.Normalized ∧ ts.total = lhs.total + rhs.total
      else
        ts = ⟨TIME64_MAX, 0⟩) ∧
      timespec64Valid ts = true :=
  timespec64AddSafe_spec hl hr fun he => nomatch he

/-- The greatest readings, and a sum that carries. -/
theorem timespec64_add_safe_saturates_test1 :
    Ends (timespec64AddSafe .wrap · (⟨9223372036854775807, 999999999⟩ : Timespec64 .long32)
      ⟨9223372036854775807, 999999999⟩) ⟨TIME64_MAX, 0⟩ ∧
    ∃ ts : Timespec64 .long32,
      Ends (timespec64AddSafe .wrap · ⟨1, 999999999⟩ ⟨2, 1⟩) ts ∧ ts.total = 4000000000 := by
  constructor
  · obtain ⟨ts, hends, hts, -⟩ := timespec64_add_safe_saturates (m := .long32)
      ⟨9223372036854775807, 999999999⟩ ⟨9223372036854775807, 999999999⟩ (by decide) (by decide)
    rw [if_neg (by decide)] at hts
    exact hts ▸ hends
  · obtain ⟨ts, hends, hts, -⟩ := timespec64_add_safe_saturates (m := .long32)
      ⟨1, 999999999⟩ ⟨2, 1⟩ (by decide) (by decide)
    rw [if_pos (by decide)] at hts
    exact ⟨ts, hends, hts.2.trans (by decide)⟩

/-! ## Signed overflow -/

theorem carrySec_trap {s : BitVec 64 × BitVec 64} (h : s.1 = TIME64_MAX) :
    carrySec .trap s = none := by
  have hsadd : Overflow.trap.sadd TIME64_MAX 1 = none := by decide
  unfold carrySec
  rw [h, hsadd]
  exact Option.bind_fun_none _

theorem timespec64AddSafe_trap (hl : timespec64Valid lhs = true) (hr : timespec64Valid rhs = true)
    (h : CarriesAtMax lhs rhs) (n : Nat) : timespec64AddSafe .trap n lhs rhs = none := by
  obtain ⟨hadd, hnsec⟩ := (timespec64Valid_iff.mp hl).2.nsec_sum (o := .trap)
    (timespec64Valid_iff.mp hr).2
  have hsec : lhs.tvSec + rhs.tvSec = TIME64_MAX := by
    rw [← BitVec.ofInt_toInt (x := TIME64_MAX), ← h.1, BitVec.ofInt_add, BitVec.ofInt_toInt,
      BitVec.ofInt_toInt]
  have hloop : whileLoop (fun s => (NSEC_PER_SEC : Int) ≤ s.2.toInt) (carrySec .trap) n
      (TIME64_MAX, (lhs.tvNsec + rhs.tvNsec).signExtend 64) = none := by
    cases n with
    | zero => rfl
    | succ n =>
      unfold whileLoop
      rw [if_pos (decide_eq_true (hnsec.symm ▸ h.2)), carrySec_trap rfl]
      rfl
  simp only [timespec64AddSafe, setNormalizedTimespec64, hadd, hsec, hloop, Option.bind_eq_bind,
    Option.bind_some, Option.bind_none]

/-- Decoding fails for `INT64_MIN`, encoding for the rest of its second. -/
theorem ns_round_trip_trap_iff (m : LongModel) (ns : BitVec 64) :
    (∃ ns', (nsToTimespec64 .trap ns).bind (timespec64ToNs (m := m) .trap) = some ns') ↔
      -9223372036000000000 ≤ ns.toInt := by
  have hlt := ns.toInt_lt
  constructor
  · rintro ⟨ns', hrun⟩
    by_contra hneg
    rcases eq_or_ne ns (BitVec.intMin 64) with rfl | hne
    · have hnone : nsToTimespec64 (m := m) .trap (BitVec.intMin 64) = none := by
        cases m <;> decide +kernel
      rw [hnone] at hrun
      cases hrun
    · obtain ⟨ts, hdec, hnorm, htotal⟩ := nsToTimespec64_spec (m := m) (o := .trap) ns
        fun _ he => hne (BitVec.eq_of_toInt_eq (he.trans (by decide)))
      have hsec := hnorm.total_div
      rw [htotal] at hsec
      have hmul : Overflow.trap.smul ts.tvSec NSEC_PER_SEC = none := Overflow.smul_eq_none <| by
        rw [toInt_second]
        simp only [NSEC_PER_SEC] at hsec ⊢
        omega
      rw [hdec, Option.bind_some, timespec64ToNs, hmul] at hrun
      cases hrun
  · intro hns
    obtain ⟨ts, hdec, hnorm, htotal⟩ := nsToTimespec64_spec (m := m) (o := .trap) ns
      fun _ => by omega
    have hsec := hnorm.total_div
    rw [htotal] at hsec
    rw [hdec, Option.bind_some]
    refine ⟨_, timespec64ToNs_eq fun _ => ?_⟩
    unfold Fits64
    rw [htotal]
    simp only [NSEC_PER_SEC] at hsec ⊢
    omega

/-- No signed operation overflows exactly when the addition does not carry at the last
second and the nanoseconds are not below the first second that fits them. -/
theorem time_arithmetic_no_overflow_iff (lhs rhs : Timespec64 m)
    (hl : timespec64Valid lhs = true) (hr : timespec64Valid rhs = true) (ns : BitVec 64) :
    ((∃ ts, Ends (timespec64AddSafe .trap · lhs rhs) ts) ↔
      ¬ (lhs.tvSec.toInt + rhs.tvSec.toInt = 2 ^ 63 - 1 ∧
        1000000000 ≤ lhs.tvNsec.toInt + rhs.tvNsec.toInt)) ∧
    ((∃ ns', (nsToTimespec64 .trap ns).bind (timespec64ToNs (m := m) .trap) = some ns') ↔
      -9223372036000000000 ≤ ns.toInt) := by
  have hmax : (lhs.tvSec.toInt + rhs.tvSec.toInt = 2 ^ 63 - 1 ∧
      1000000000 ≤ lhs.tvNsec.toInt + rhs.tvNsec.toInt) ↔ CarriesAtMax lhs rhs := by
    rw [CarriesAtMax, toInt_TIME64_MAX]
    rfl
  rw [hmax]
  refine ⟨⟨?_, fun h => ?_⟩, ns_round_trip_trap_iff m ns⟩
  · rintro ⟨ts, hends⟩ h
    exact not_ends_of_none (timespec64AddSafe_trap hl hr h) ts hends
  · obtain ⟨ts, hends, -⟩ := timespec64AddSafe_spec hl hr fun _ => h
    exact ⟨ts, hends⟩

theorem time_arithmetic_no_overflow_iff_test1 :
    ((∃ ts, Ends (timespec64AddSafe .trap · (⟨1, 999999999⟩ : Timespec64 .long32) ⟨2, 1⟩) ts) ↔
      ¬ ((1 : BitVec 64).toInt + (2 : BitVec 64).toInt = 2 ^ 63 - 1 ∧
        1000000000 ≤ (999999999 : BitVec 32).toInt + (1 : BitVec 32).toInt)) ∧
    ((∃ ns', (nsToTimespec64 .trap (-1)).bind (timespec64ToNs (m := .long32) .trap) = some ns') ↔
      -9223372036000000000 ≤ (-1 : BitVec 64).toInt) :=
  time_arithmetic_no_overflow_iff (m := .long32) ⟨1, 999999999⟩ ⟨2, 1⟩ (by decide) (by decide) (-1)

/-- `INT64_MAX` seconds overflow in the carry, and `INT64_MIN` nanoseconds in the negation.
The first second that fits `s64` only in part overflows in the multiplication. -/
theorem time_arithmetic_no_overflow_counterexample :
    (¬ ∀ lhs rhs : Timespec64 .long32, timespec64Valid lhs = true → timespec64Valid rhs = true →
      ∃ ts, Ends (timespec64AddSafe .trap · lhs rhs) ts) ∧
    (¬ ∀ ns, ∃ ts : Timespec64 .long32, nsToTimespec64 .trap ns = some ts) ∧
    ¬ ∀ (ns : BitVec 64) (ts : Timespec64 .long32), nsToTimespec64 .trap ns = some ts →
      ∃ ns', timespec64ToNs .trap ts = some ns' := by
  refine ⟨fun hall => ?_, fun hall => ?_, fun hall => ?_⟩
  · obtain ⟨ts, hends⟩ := hall ⟨9223372036854775807, 999999999⟩ ⟨0, 1⟩ (by decide) (by decide)
    exact not_ends_of_none (timespec64AddSafe_trap (by decide) (by decide) (by decide)) ts hends
  · obtain ⟨ts, hts⟩ := hall (BitVec.intMin 64)
    have hnone : nsToTimespec64 (m := .long32) .trap (BitVec.intMin 64) = none := by
      decide +kernel
    rw [hnone] at hts
    cases hts
  · obtain ⟨ns', hns⟩ := hall (-9223372036000000001) ⟨-9223372037, 999999999⟩ (by decide +kernel)
    have hnone : timespec64ToNs .trap (⟨-9223372037, 999999999⟩ : Timespec64 .long32) = none := by
      decide +kernel
    rw [hnone] at hns
    cases hns

end Uki
