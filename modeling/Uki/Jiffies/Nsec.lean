import Uki.Jiffies.Timespec
import Uki.Math.Div64

/-!
# Nanoseconds and `timespec64`

The conversions of `jiffies.c` and `time64.h` for `BITS_PER_LONG` 32 and either size of
`long`. A reading stands for `total` nanoseconds. The decoder corrects a truncated division
to the floor; the encoder gives the total back, modulo the word size.
-/

namespace Uki

open Words

variable {m : LongModel} {o : Overflow}

def KTIME_MAX : BitVec 64 := ~~~(1#64 <<< 63)

def KTIME_SEC_MAX : BitVec 64 := KTIME_MAX.sdiv NSEC_PER_SEC

def nsToTimespec64 (o : Overflow) (nsec : BitVec 64) : Option (Timespec64 m) :=
  if nsec = 0 then
    some ⟨0, 0⟩
  else do
    let (tvSec, rem) ← divS64Rem o nsec NSEC_PER_SEC
    let (tvSec, rem) ←
      if rem.toInt < 0 then do
        let tvSec ← o.ssub tvSec 1
        let rem ← o.sadd (rem.signExtend m.bits) (NSEC_PER_SEC : ULong m)
        some (tvSec, rem.setWidth 32)
      else
        some (tvSec, rem)
    some ⟨tvSec, rem.signExtend m.bits⟩

def timespec64Valid (ts : Timespec64 m) : Bool :=
  if ts.tvSec.toInt < 0 then
    false
  else if (NSEC_PER_SEC : ULong m) ≤ ts.tvNsec then
    false
  else
    true

def timespec64ValidStrict (ts : Timespec64 m) : Bool :=
  if !timespec64Valid ts then
    false
  else if KTIME_SEC_MAX ≤ ts.tvSec then
    false
  else
    true

def timespec64ToNs (o : Overflow) (ts : Timespec64 m) : Option (BitVec 64) := do
  o.sadd (← o.smul ts.tvSec NSEC_PER_SEC) (ts.tvNsec.signExtend 64)

/-! ## What a reading stands for -/

namespace Timespec64

def total (ts : Timespec64 m) : Int := ts.tvSec.toInt * NSEC_PER_SEC + ts.tvNsec.toInt

/-- `0 <= tv_nsec < 10^9`. -/
def Normalized (ts : Timespec64 m) : Prop := 0 ≤ ts.tvNsec.toInt ∧ ts.tvNsec.toInt < NSEC_PER_SEC

variable {ts ts' : Timespec64 m}

theorem normalized_of_emod {x : Int} (h : ts.tvNsec.toInt = x % NSEC_PER_SEC) : ts.Normalized := by
  unfold Normalized
  rw [h]
  exact ⟨Int.emod_nonneg _ (by decide), Int.emod_lt_of_pos _ (by decide)⟩

theorem Normalized.total_div (h : ts.Normalized) : ts.total / NSEC_PER_SEC = ts.tvSec.toInt := by
  obtain ⟨h0, h1⟩ := h
  unfold total
  simp only [NSEC_PER_SEC] at h1 ⊢
  omega

/-- The total of a normalised reading determines it. -/
theorem Normalized.eq_of_total (h : ts.Normalized) (h' : ts'.Normalized)
    (ht : ts.total = ts'.total) : ts = ts' := by
  have hsec : ts.tvSec.toInt = ts'.tvSec.toInt := by rw [← h.total_div, ht, h'.total_div]
  have hnsec : ts.tvNsec.toInt = ts'.tvNsec.toInt := by
    unfold total at ht
    rw [hsec] at ht
    omega
  cases ts
  cases ts'
  exact congrArg₂ mk (BitVec.eq_of_toInt_eq hsec) (BitVec.eq_of_toInt_eq hnsec)

end Timespec64

/-! ## Decoding -/

theorem toInt_NSEC_PER_SEC : (NSEC_PER_SEC : ULong m).toInt = NSEC_PER_SEC := by
  cases m <;> rfl

theorem toInt_rem (rem : BitVec 32) : (rem.signExtend m.bits).toInt = rem.toInt :=
  BitVec.toInt_signExtend_of_le (by cases m <;> decide)

/-- `rem += NSEC_PER_SEC` adds in `long` and stores an `s32`. -/
theorem toInt_corrected {rem : BitVec 32} (h0 : rem.toInt < 0) (h1 : -NSEC_PER_SEC < rem.toInt) :
    (((rem.signExtend m.bits + (NSEC_PER_SEC : ULong m)).setWidth 32).signExtend m.bits).toInt =
      rem.toInt + NSEC_PER_SEC := by
  have hword : rem.signExtend m.bits + (NSEC_PER_SEC : ULong m) =
      BitVec.ofInt m.bits (rem.toInt + NSEC_PER_SEC) := by
    rw [BitVec.ofInt_add, ← toInt_rem (m := m) rem, BitVec.ofInt_toInt]
    rfl
  have hbits : 32 ≤ m.bits := by cases m <;> decide
  simp only [NSEC_PER_SEC] at h1 hword ⊢
  have hnat : rem.toInt + (1000000000 : Nat) =
      ((rem.toInt + (1000000000 : Nat)).toNat : Int) := by omega
  rw [hword, hnat, BitVec.ofInt_natCast, BitVec.setWidth_ofNat_of_le hbits, toInt_rem,
    ← BitVec.ofInt_natCast, BitVec.toInt_ofInt_eq_self (by decide) (by omega) (by omega)]

theorem nsToTimespec64_spec (nsec : BitVec 64) (h : o = .trap → nsec.toInt ≠ -2 ^ 63) :
    ∃ ts : Timespec64 m, nsToTimespec64 o nsec = some ts ∧ ts.Normalized ∧
      ts.total = nsec.toInt := by
  have hd : (NSEC_PER_SEC : BitVec 32).toInt = 1000000000 := rfl
  unfold nsToTimespec64
  split
  · next h0 =>
    subst h0
    exact ⟨⟨0, 0⟩, rfl, by cases m <;> exact ⟨by decide, by decide⟩, by cases m <;> rfl⟩
  · have hne : (NSEC_PER_SEC : BitVec 32) ≠ 0 := by decide
    obtain ⟨q, r, hdiv, hq, hr⟩ := divS64Rem_spec (o := o) nsec hne (by rw [hd]; omega)
      fun ho => ⟨h ho, by rw [hd]; decide⟩
    rw [hd] at hq hr
    have hn := Int.mul_tdiv_add_tmod nsec.toInt 1000000000
    have hr1 : |r.toInt| < 1000000000 := by
      rw [hr, Int.abs_eq_natAbs, Int.natAbs_tmod]
      exact Int.ofNat_lt.mpr (Nat.mod_lt _ (by decide))
    have hlt := nsec.toInt_lt
    have hle := nsec.le_toInt
    rw [← hq, ← hr] at hn
    obtain ⟨hr0, hr1⟩ := abs_lt.mp hr1
    simp only [hdiv, Option.bind_eq_bind, Option.bind_some]
    split
    · next hneg =>
      have hfits : -2 ^ 63 ≤ q.toInt - 1 ∧ q.toInt - 1 < 2 ^ 63 := by omega
      have hsub : o.ssub q 1 = some (q - 1) := Overflow.ssub_eq fun _ => hfits
      have hq1 : (q - 1).toInt = q.toInt - 1 := toInt_sub_of_fits hfits
      have hadd : o.sadd (r.signExtend m.bits) (NSEC_PER_SEC : ULong m) =
          some (r.signExtend m.bits + (NSEC_PER_SEC : ULong m)) := Overflow.sadd_eq fun _ => by
        rw [toInt_rem, toInt_NSEC_PER_SEC]
        cases m <;> simp only [LongModel.bits, NSEC_PER_SEC] <;> omega
      have hcor := toInt_corrected (m := m) hneg hr0
      simp only [hsub, hadd, Option.bind_some]
      refine ⟨_, rfl, ?_, ?_⟩
      · unfold Timespec64.Normalized
        dsimp only
        rw [hcor]
        simp only [NSEC_PER_SEC]
        omega
      · unfold Timespec64.total
        dsimp only
        rw [hcor, hq1]
        simp only [NSEC_PER_SEC]
        omega
    · next hpos =>
      refine ⟨_, rfl, ?_, ?_⟩
      · unfold Timespec64.Normalized
        dsimp only
        rw [toInt_rem]
        exact ⟨not_lt.mp hpos, hr1⟩
      · unfold Timespec64.total
        dsimp only
        rw [toInt_rem]
        simp only [NSEC_PER_SEC]
        omega

/-! ## Encoding -/

def Fits64 (x : Int) : Prop := -2 ^ 63 ≤ x ∧ x < 2 ^ 63

/-- The encoder computes the total modulo the word size. -/
theorem timespec64ToNs_eq {ts : Timespec64 m}
    (h : o = .trap → Fits64 (ts.tvSec.toInt * NSEC_PER_SEC) ∧ Fits64 ts.total) :
    timespec64ToNs o ts = some (BitVec.ofInt 64 ts.total) := by
  have hd : (NSEC_PER_SEC : BitVec 64).toInt = NSEC_PER_SEC := rfl
  have hlong : (ts.tvNsec.signExtend 64).toInt = ts.tvNsec.toInt :=
    BitVec.toInt_signExtend_of_le (by cases m <;> decide)
  have hmul : o.smul ts.tvSec NSEC_PER_SEC = some (ts.tvSec * (NSEC_PER_SEC : BitVec 64)) :=
    Overflow.smul_eq fun ho => hd ▸ (h ho).1
  have hadd : o.sadd (ts.tvSec * (NSEC_PER_SEC : BitVec 64)) (ts.tvNsec.signExtend 64) =
      some (ts.tvSec * (NSEC_PER_SEC : BitVec 64) + ts.tvNsec.signExtend 64) :=
    Overflow.sadd_eq fun ho => by
      rw [toInt_mul_of_fits (hd ▸ (h ho).1), hd, hlong]
      exact (h ho).2
  have hword : ts.tvSec * (NSEC_PER_SEC : BitVec 64) + ts.tvNsec.signExtend 64 =
      BitVec.ofInt 64 ts.total := by
    unfold Timespec64.total
    rw [BitVec.ofInt_add, BitVec.ofInt_mul, BitVec.ofInt_toInt]
    rfl
  unfold timespec64ToNs
  simp only [hmul, hadd, hword, Option.bind_eq_bind, Option.bind_some]

/-! ## Valid readings -/

theorem normalized_iff {ts : Timespec64 m} :
    ts.Normalized ↔ ts.tvNsec < (NSEC_PER_SEC : ULong m) := by
  have hlt := ts.tvNsec.isLt
  have hn : (NSEC_PER_SEC : ULong m).toNat = 1000000000 := by cases m <;> rfl
  unfold Timespec64.Normalized
  rw [BitVec.lt_def, hn, BitVec.toInt_eq_toNat_cond]
  simp only [NSEC_PER_SEC]
  cases m <;> simp only [LongModel.bits] at hlt ⊢ <;> split_ifs <;> omega

theorem Timespec64.Normalized.toNat_lt {ts : Timespec64 m} (h : ts.Normalized) :
    ts.tvNsec.toNat < NSEC_PER_SEC := by
  have hn : (NSEC_PER_SEC : ULong m).toNat = NSEC_PER_SEC := by cases m <;> rfl
  exact hn ▸ BitVec.lt_def.mp (normalized_iff.mp h)

theorem timespec64Valid_iff {ts : Timespec64 m} :
    timespec64Valid ts = true ↔ 0 ≤ ts.tvSec.toInt ∧ ts.Normalized := by
  rw [normalized_iff, ← BitVec.not_le]
  unfold timespec64Valid
  split
  · next hneg => exact iff_of_false Bool.false_ne_true fun h => absurd h.1 (not_le.mpr hneg)
  · next hpos =>
    split
    · next hle => exact iff_of_false Bool.false_ne_true fun h => h.2 hle
    · next hlt => exact iff_of_true rfl ⟨not_lt.mp hpos, hlt⟩

theorem timespec64ValidStrict_iff {ts : Timespec64 m} :
    timespec64ValidStrict ts = true ↔
      timespec64Valid ts = true ∧ ts.tvSec.toInt < 9223372036 := by
  have hmax : KTIME_SEC_MAX.toNat = 9223372036 := by decide
  unfold timespec64ValidStrict
  split
  · next hv =>
    rw [Bool.not_eq_true'] at hv
    exact iff_of_false Bool.false_ne_true fun h => by simp [hv] at h
  · next hv =>
    have hvalid : timespec64Valid ts = true := by simpa using hv
    have hsec := toNat_of_nonneg (timespec64Valid_iff.mp hvalid).1
    have h0 := (timespec64Valid_iff.mp hvalid).1
    split
    · next hle =>
      have hle := BitVec.le_def.mp hle
      exact iff_of_false Bool.false_ne_true fun h => by omega
    · next hlt =>
      have hlt := BitVec.lt_def.mp (BitVec.not_le.mp hlt)
      exact iff_of_true rfl ⟨hvalid, by omega⟩

/-- Decoding takes the floor and encoding is its inverse, for all of `s64` as two's
complement; on strictly valid readings encoding is exact, without overflow, and decoding
is its inverse. -/
theorem ns_timespec64_round_trip (m : LongModel) :
    (∀ ns : BitVec 64, ∃ ts : Timespec64 m, nsToTimespec64 .wrap ns = some ts ∧
      0 ≤ ts.tvNsec.toInt ∧ ts.tvNsec.toInt < 1000000000 ∧
      ts.tvSec.toInt = ns.toInt / 1000000000 ∧ timespec64ToNs .wrap ts = some ns) ∧
    ∀ (o : Overflow) (ts : Timespec64 m), timespec64ValidStrict ts = true →
      ∃ ns, timespec64ToNs o ts = some ns ∧
        ns.toInt = ts.tvSec.toInt * 1000000000 + ts.tvNsec.toInt ∧
        nsToTimespec64 o ns = some ts := by
  refine ⟨fun ns => ?_, fun o ts hts => ?_⟩
  · obtain ⟨ts, hdec, hnorm, htotal⟩ := nsToTimespec64_spec (m := m) (o := .wrap) ns
      fun he => nomatch he
    refine ⟨ts, hdec, hnorm.1, hnorm.2, ?_, ?_⟩
    · rw [← htotal]
      exact hnorm.total_div.symm
    · rw [timespec64ToNs_eq (o := .wrap) (fun he => nomatch he), htotal, BitVec.ofInt_toInt]
  · obtain ⟨hvalid, hmax⟩ := timespec64ValidStrict_iff.mp hts
    obtain ⟨h0, hnorm⟩ := timespec64Valid_iff.mp hvalid
    have hbounds : Fits64 (ts.tvSec.toInt * NSEC_PER_SEC) ∧ Fits64 ts.total ∧ 0 ≤ ts.total := by
      unfold Timespec64.Normalized at hnorm
      unfold Fits64 Timespec64.total
      simp only [NSEC_PER_SEC] at hnorm ⊢
      omega
    have htotal : (BitVec.ofInt 64 ts.total).toInt = ts.total :=
      BitVec.toInt_ofInt_eq_self (by decide) hbounds.2.1.1 hbounds.2.1.2
    obtain ⟨ts', hdec, hnorm', htotal'⟩ := nsToTimespec64_spec (m := m) (o := o)
      (BitVec.ofInt 64 ts.total) fun _ => by rw [htotal]; omega
    have hts' : ts' = ts := hnorm'.eq_of_total hnorm (htotal'.trans htotal)
    refine ⟨BitVec.ofInt 64 ts.total, ?_, htotal, hts' ▸ hdec⟩
    exact timespec64ToNs_eq fun _ => ⟨hbounds.1, hbounds.2.1⟩

/-- `INT64_MIN` nanoseconds, and the last strictly valid second. -/
theorem ns_timespec64_round_trip_test1 :
    (∃ ts : Timespec64 .long32, nsToTimespec64 .wrap (BitVec.intMin 64) = some ts ∧
      0 ≤ ts.tvNsec.toInt ∧ ts.tvNsec.toInt < 1000000000 ∧
      ts.tvSec.toInt = (BitVec.intMin 64).toInt / 1000000000 ∧
      timespec64ToNs .wrap ts = some (BitVec.intMin 64)) ∧
    ∃ ns, timespec64ToNs .trap (⟨9223372035, 999999999⟩ : Timespec64 .long32) = some ns ∧
      ns.toInt = (9223372035 : BitVec 64).toInt * 1000000000 + (999999999 : BitVec 32).toInt ∧
      nsToTimespec64 .trap ns = some (⟨9223372035, 999999999⟩ : Timespec64 .long32) :=
  ⟨(ns_timespec64_round_trip .long32).1 (BitVec.intMin 64),
    (ns_timespec64_round_trip .long32).2 .trap ⟨9223372035, 999999999⟩ (by decide)⟩

end Uki
