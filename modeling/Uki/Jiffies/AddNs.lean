import Uki.Jiffies.Normalize

/-!
# `timespec64_add_ns`

Nanoseconds are added in 64 bits and divided by repeated subtraction; the seconds are
counted in 32 bits. Nothing says when that is too few (`timespec64_add_ns_exact_iff`).
-/

set_option linter.style.nameCheck false

namespace Uki

open Words

variable {m : LongModel} {o : Overflow}

/-- A pass of `__iter_div_u64_rem`, on `dividend` and `ret`. -/
def iterDivPass (divisor : BitVec 32) (s : BitVec 64 × BitVec 32) :
    Option (BitVec 64 × BitVec 32) :=
  some (s.1 - wide divisor, s.2 + 1)

/-- The quotient, and what is stored to `*remainder`. The loop is given `n` tests. -/
def __iterDivU64Rem (n : Nat) (dividend : BitVec 64) (divisor : BitVec 32) :
    Option (BitVec 32 × BitVec 64) := do
  let s ← whileLoop (fun s => wide divisor ≤ s.1) (iterDivPass divisor) n (dividend, 0)
  some (s.2, s.1)

def timespec64AddNs (o : Overflow) (n : Nat) (a : Timespec64 m) (ns : BitVec 64) :
    Option (Timespec64 m) := do
  let (ret, ns) ← __iterDivU64Rem n (a.tvNsec.signedToU64 + ns) NSEC_PER_SEC
  let tvSec ← o.sadd a.tvSec (wide ret)
  some ⟨tvSec, ns.setWidth m.bits⟩

/-! ## Division -/

/-- The loop started with `dividend`; its variables are `s`. -/
structure Dividing (dividend : BitVec 64) (divisor : BitVec 32)
    (s : BitVec 64 × BitVec 32) : Prop where
  quotient : s.2 + BitVec.ofNat 32 (s.1.toNat / divisor.toNat) =
    BitVec.ofNat 32 (dividend.toNat / divisor.toNat)
  remainder : s.1.toNat % divisor.toNat = dividend.toNat % divisor.toNat

variable {dividend : BitVec 64} {divisor : BitVec 32} {s : BitVec 64 × BitVec 32}

theorem Dividing.pass (hs : Dividing dividend divisor s) (hpos : 0 < divisor.toNat)
    (h : divisor.toNat ≤ s.1.toNat) :
    ∃ t, iterDivPass divisor s = some t ∧ Dividing dividend divisor t ∧
      t.1.toNat < s.1.toNat := by
  have hsub : (s.1 - wide divisor).toNat = s.1.toNat - divisor.toNat := by
    have hwide : (wide divisor).toNat = divisor.toNat := toNat_wide divisor
    rw [BitVec.toNat_sub_of_le (BitVec.le_def.mpr (hwide ▸ h)), hwide]
  refine ⟨_, rfl, ⟨?_, ?_⟩, ?_⟩
  · rw [← hs.quotient, hsub, Nat.div_eq_sub_div hpos h, Nat.add_comm, BitVec.ofNat_add,
      ← BitVec.add_assoc]
    rfl
  · rw [← hs.remainder, hsub]
    exact (Nat.mod_eq_sub_mod h).symm
  · rw [hsub]
    omega

/-- The quotient modulo `2 ^ 32`. -/
theorem __iterDivU64Rem_spec (dividend : BitVec 64) {divisor : BitVec 32} (h : divisor ≠ 0) :
    Ends (__iterDivU64Rem · dividend divisor)
      (BitVec.ofNat 32 (dividend.toNat / divisor.toNat),
        BitVec.ofNat 64 (dividend.toNat % divisor.toNat)) := by
  have hpos := toNat_pos h
  refine ⟨2 ^ 64, fun n hn => ?_⟩
  obtain ⟨t, ht, htt, hstop⟩ := whileLoop_total (fun s => decide (wide divisor ≤ s.1))
    (iterDivPass divisor) (Dividing dividend divisor) (fun s => s.1.toNat) (n := n)
    (s := (dividend, 0)) ⟨BitVec.zero_add _, rfl⟩ (dividend.isLt.trans_le hn) fun s hs ht =>
      hs.pass hpos (toNat_wide divisor ▸ BitVec.le_def.mp (of_decide_eq_true ht))
  have hlt : t.1.toNat < divisor.toNat := by
    rw [← toNat_wide divisor]
    exact BitVec.lt_def.mp (BitVec.not_le.mp (of_decide_eq_false hstop))
  have hq := htt.quotient
  have hr := htt.remainder
  rw [Nat.div_eq_of_lt hlt, BitVec.add_zero] at hq
  rw [Nat.mod_eq_of_lt hlt] at hr
  simp only [__iterDivU64Rem, ht, hq, Option.bind_eq_bind, Option.bind_some]
  rw [← hr, BitVec.ofNat_toNat, BitVec.setWidth_eq]

/-! ## Addition -/

theorem toNat_second : (NSEC_PER_SEC : BitVec 32).toNat = NSEC_PER_SEC := rfl

/-- The dividend, before it is reduced to 64 bits. -/
def nsecSum (a : Timespec64 m) (ns : BitVec 64) : Nat := a.tvNsec.toNat + ns.toNat

variable {a : Timespec64 m} {ns : BitVec 64}

theorem nsecSum_total (ns : BitVec 64) (ha : timespec64Valid a = true) :
    a.total + ns.toNat = a.tvSec.toInt * NSEC_PER_SEC + nsecSum a ns := by
  have hnsec := coe_toNat_of_nonneg (timespec64Valid_iff.mp ha).2.1
  unfold nsecSum Timespec64.total
  omega

theorem toNat_dividend (ha : timespec64Valid a = true) :
    (a.tvNsec.signedToU64 + ns).toNat = nsecSum a ns % 2 ^ 64 := by
  have hlt := (timespec64Valid_iff.mp ha).2.toNat_lt
  have hhalf : NSEC_PER_SEC < half m := lt_of_lt_of_le (by decide) (le_half m)
  rw [BitVec.toNat_add, toNat_signedToU64 (hlt.trans hhalf), nsecSum]

theorem toInt_wide_ofNat (x : Nat) : (wide (BitVec.ofNat 32 x)).toInt = (x % 2 ^ 32 : Nat) := by
  have hlt := Nat.mod_lt x (Nat.two_pow_pos 32)
  rw [BitVec.toInt_eq_toNat_of_lt, toNat_wide, BitVec.toNat_ofNat]
  rw [toNat_wide, BitVec.toNat_ofNat]
  omega

/-- The remainder is stored to a `long`. -/
theorem toInt_nsec (m : LongModel) {x : Nat} (h : x < NSEC_PER_SEC) :
    ((BitVec.ofNat 64 x).setWidth m.bits).toInt = x := by
  have hlt : x < 2 ^ 31 := h.trans (by decide)
  have hbits : m.bits ≤ 64 := by cases m <;> decide
  have hhalf := le_half m
  have htwo := two_half m
  have hword : ((BitVec.ofNat 64 x).setWidth m.bits).toNat = x := by
    rw [BitVec.setWidth_ofNat_of_le hbits, BitVec.toNat_ofNat]
    exact Nat.mod_eq_of_lt (by omega)
  rw [BitVec.toInt_eq_toNat_of_lt (by omega), hword]

/-- The dividend loses its carry and the quotient what is above 32 bits. -/
theorem timespec64AddNs_spec (ns : BitVec 64) (ha : timespec64Valid a = true)
    (hfits : Fits64 ((a.total + ns.toNat) / NSEC_PER_SEC)) :
    ∃ ts, Ends (timespec64AddNs o · a ns) ts ∧ ts.Normalized ∧
      ts.total = (a.tvSec.toInt + (nsecSum a ns % 2 ^ 64 / NSEC_PER_SEC % 2 ^ 32 : Nat)) *
        NSEC_PER_SEC + (nsecSum a ns % 2 ^ 64 % NSEC_PER_SEC : Nat) := by
  have hne : (NSEC_PER_SEC : BitVec 32) ≠ 0 := by decide
  obtain ⟨n, hdiv⟩ := __iterDivU64Rem_spec (a.tvNsec.signedToU64 + ns) hne
  rw [toNat_dividend ha, toNat_second] at hdiv
  rw [nsecSum_total ns ha] at hfits
  have hnsec := toInt_nsec m (Nat.mod_lt (nsecSum a ns % 2 ^ 64) (show 0 < NSEC_PER_SEC by decide))
  have hret := toInt_wide_ofNat (nsecSum a ns % 2 ^ 64 / NSEC_PER_SEC)
  have hsum : -2 ^ 63 ≤ a.tvSec.toInt +
        (wide (BitVec.ofNat 32 (nsecSum a ns % 2 ^ 64 / NSEC_PER_SEC))).toInt ∧
      a.tvSec.toInt +
        (wide (BitVec.ofNat 32 (nsecSum a ns % 2 ^ 64 / NSEC_PER_SEC))).toInt < 2 ^ 63 := by
    have hle := a.tvSec.le_toInt
    -- the counted seconds are at most the exact ones
    have hcount : nsecSum a ns % 2 ^ 64 / NSEC_PER_SEC % 2 ^ 32 ≤ nsecSum a ns / NSEC_PER_SEC :=
      (Nat.mod_le _ _).trans (Nat.div_le_div_right (Nat.mod_le _ _))
    have hmax := hfits.2
    rw [Int.add_comm, Int.add_mul_ediv_right _ _ (by decide)] at hmax
    rw [hret]
    exact ⟨by omega, by omega⟩
  have hadd := Overflow.sadd_eq (o := o) fun _ => hsum
  refine ⟨⟨a.tvSec + wide (BitVec.ofNat 32 (nsecSum a ns % 2 ^ 64 / NSEC_PER_SEC)),
    (BitVec.ofNat 64 (nsecSum a ns % 2 ^ 64 % NSEC_PER_SEC)).setWidth m.bits⟩,
    ⟨n, fun k hk => ?_⟩, ?_, ?_⟩
  · simp only [timespec64AddNs, hdiv k hk, hadd, Option.bind_eq_bind, Option.bind_some]
  · exact Timespec64.normalized_of_emod (hnsec.trans (Int.natCast_emod _ _))
  · unfold Timespec64.total
    rw [hnsec, toInt_add_of_fits hsum, hret]

/-- The counted seconds and the rest give the dividend back. -/
theorem counted_iff (x : Nat) :
    x % 2 ^ 64 / NSEC_PER_SEC % 2 ^ 32 * NSEC_PER_SEC + x % 2 ^ 64 % NSEC_PER_SEC = x ↔
      x < 2 ^ 32 * NSEC_PER_SEC := by
  have hpos : 0 < NSEC_PER_SEC := by decide
  constructor
  · intro hx
    have hcount := Nat.mod_lt (x % 2 ^ 64 / NSEC_PER_SEC) (Nat.two_pow_pos 32)
    have hrem := Nat.mod_lt (x % 2 ^ 64) hpos
    rw [← hx]
    calc _ < x % 2 ^ 64 / NSEC_PER_SEC % 2 ^ 32 * NSEC_PER_SEC + NSEC_PER_SEC :=
          Nat.add_lt_add_left hrem _
      _ = (x % 2 ^ 64 / NSEC_PER_SEC % 2 ^ 32 + 1) * NSEC_PER_SEC := (Nat.succ_mul _ _).symm
      _ ≤ 2 ^ 32 * NSEC_PER_SEC := Nat.mul_le_mul_right _ hcount
  · intro hx
    have hword : x % 2 ^ 64 = x := Nat.mod_eq_of_lt (hx.trans (by decide))
    have hcount : x / NSEC_PER_SEC % 2 ^ 32 = x / NSEC_PER_SEC :=
      Nat.mod_eq_of_lt (Nat.div_lt_of_lt_mul (by rwa [Nat.mul_comm]))
    rw [hword, hcount]
    exact Nat.div_add_mod' x NSEC_PER_SEC

/-- The sum is exact as long as the nanoseconds to divide are fewer than `2 ^ 32` seconds. -/
theorem timespec64_add_ns_exact_iff (o : Overflow) (a : Timespec64 m) (ns : BitVec 64)
    (ha : timespec64Valid a = true) (hfits : Fits64 ((a.total + ns.toNat) / 1000000000)) :
    (∃ ts, Ends (timespec64AddNs o · a ns) ts ∧ ts.Normalized ∧
      ts.total = a.total + ns.toNat) ↔ a.tvNsec.toInt + ns.toNat < 2 ^ 32 * 1000000000 := by
  obtain ⟨ts, hends, hnorm, htotal⟩ := timespec64AddNs_spec (o := o) ns ha hfits
  have hsum := nsecSum_total ns ha
  have hcounted := counted_iff (nsecSum a ns)
  have hnsec : a.tvNsec.toInt + ns.toNat = nsecSum a ns := by
    unfold Timespec64.total at hsum
    omega
  have hexact : ts.total = a.total + ns.toNat ↔ nsecSum a ns < 2 ^ 32 * NSEC_PER_SEC := by
    rw [← hcounted, htotal, hsum, Int.add_mul, Int.add_assoc, Int.add_right_inj]
    exact Int.ofNat_inj
  rw [hnsec]
  refine Iff.trans ⟨fun h => ?_, fun h => ⟨ts, hends, hnorm, hexact.mpr h⟩⟩ Int.ofNat_lt.symm
  obtain ⟨ts', hends', -, htotal'⟩ := h
  exact hexact.mp (hends.unique hends' ▸ htotal')

/-- A little less than a second and `2 ^ 32 - 1` seconds. -/
theorem timespec64_add_ns_exact_iff_test1 :
    (∃ ts, Ends (timespec64AddNs .trap · (⟨1, 999999999⟩ : Timespec64 .long32)
      4294967295000000000) ts ∧ ts.Normalized ∧ ts.total = 4294967296999999999) :=
  (timespec64_add_ns_exact_iff .trap (⟨1, 999999999⟩ : Timespec64 .long32) 4294967295000000000
    (by decide) ⟨by decide, by decide⟩).mpr (by decide)

/-- Adding `2 ^ 32` seconds changes nothing. -/
theorem timespec64_add_ns_exact_counterexample :
    ¬ ∀ (a : Timespec64 .long32) (ns : BitVec 64), timespec64Valid a = true →
      Fits64 ((a.total + ns.toNat) / 1000000000) →
      ∃ ts, Ends (timespec64AddNs .wrap · a ns) ts ∧ ts.Normalized ∧
        ts.total = a.total + ns.toNat := by
  intro hall
  obtain ⟨ts, hends, -, htotal⟩ := hall ⟨0, 0⟩ 4294967296000000000 (by decide)
    ⟨by decide, by decide⟩
  obtain ⟨ts', hends', -, htotal'⟩ := timespec64AddNs_spec (m := .long32) (o := .wrap)
    (a := ⟨0, 0⟩) 4294967296000000000 (by decide) ⟨by decide, by decide⟩
  rw [hends.unique hends', htotal'] at htotal
  exact absurd htotal (by decide)

end Uki
