import Uki.Math.Bits

/-!
# 64-bit division: `div64.h` and `div64.c`

The versions for `BITS_PER_LONG` 32. Everything rests on the `divl` instruction, which
divides 64 bits by 32 and traps when the quotient does not fit; a trap, like an
undefined operation of C, is `none`.
-/

set_option linter.style.nameCheck false

namespace Uki

open Words

/-! ## `div64.h` -/

/-- `divl`: the quotient and the remainder of `edx:eax`. -/
def divl (edx eax operand : BitVec 32) : Option (BitVec 32 × BitVec 32) :=
  if edx < operand then
    let n := ofHalves edx eax
    some (lo (n / wide operand), lo (n % wide operand))
  else
    none

/-- `do_div(n, base)`: what is left in `n`, and the value of the macro. `constant` is the
compiler's answer to `__builtin_constant_p(__base)`. -/
def doDiv (constant : Bool) (n : BitVec 64) (base : BitVec 32) :
    Option (BitVec 64 × BitVec 32) :=
  if constant && isPowerOf2 base then do
    let mod := lo (n &&& wide (base - 1))
    let n ← shr n (← ilog2 constant base)
    some (n, mod)
  else do
    let low := lo n
    let high := hi n
    let upper := high
    let (upper, high) ←
      if high ≠ 0 then do
        let upper ← umod high base
        some (upper, ← udiv high base)
      else
        some (upper, high)
    let (low, mod) ← divl upper low base
    some (ofHalves high low, mod)

/-- The quotient, and what is stored to `*remainder`. -/
def divU64Rem (dividend : BitVec 64) (divisor : BitVec 32) :
    Option (BitVec 64 × BitVec 32) := do
  let d := dividend
  let upper := hi d
  let d := setHi d 0
  let (d, upper) ←
    if divisor ≤ upper then do
      let d := setHi d (← udiv upper divisor)
      some (d, ← umod upper divisor)
    else
      some (d, upper)
  let (eax, edx) ← divl upper (lo d) divisor
  some (setLo d eax, edx)

def divU64 (dividend : BitVec 64) (divisor : BitVec 32) : Option (BitVec 64) := do
  let (quotient, _) ← divU64Rem dividend divisor
  some quotient

theorem divl_spec (edx eax operand : BitVec 32) (h : edx.toNat < operand.toNat) :
    ∃ q r, divl edx eax operand = some (q, r) ∧
      q.toNat = (edx.toNat * 2 ^ 32 + eax.toNat) / operand.toNat ∧
      r.toNat = (edx.toNat * 2 ^ 32 + eax.toNat) % operand.toNat := by
  have heax := eax.isLt
  have hop := operand.isLt
  have hpos : 0 < operand.toNat := by omega
  refine ⟨_, _, if_pos (BitVec.lt_def.mpr h), ?_, ?_⟩
  · rw [toNat_lo, BitVec.toNat_udiv, toNat_ofHalves, toNat_wide]
    exact Nat.mod_eq_of_lt (div_limb_lt h heax)
  · rw [toNat_lo, BitVec.toNat_umod, toNat_ofHalves, toNat_wide]
    exact Nat.mod_eq_of_lt ((Nat.mod_lt _ hpos).trans hop)

/-- Two-limb division: the upper limb is reduced first, so that `divl` cannot trap. -/
theorem divl_reduced (n : BitVec 64) {base : BitVec 32} (h : base ≠ 0) :
    ∃ eax edx, divl (hi n % base) (lo n) base = some (eax, edx) ∧
      (ofHalves (hi n / base) eax).toNat = n.toNat / base.toNat ∧
      edx.toNat = n.toNat % base.toNat := by
  have hpos := toNat_pos h
  have hlt := Nat.mod_lt (hi n).toNat hpos
  obtain ⟨eax, edx, hdivl, hq, hr⟩ :=
    divl_spec (hi n % base) (lo n) base (by rwa [BitVec.toNat_umod])
  rw [BitVec.toNat_umod] at hq hr
  refine ⟨eax, edx, hdivl, ?_, ?_⟩
  · rw [toNat_ofHalves, hq, BitVec.toNat_udiv, toNat_eq_halves n, div_limbs (hi n).toNat _ _ hpos]
  · rw [hr, toNat_eq_halves n, mod_limbs (hi n).toNat]

/-- Masking and shifting by a power of two is division, and so is the other branch. -/
theorem doDiv_spec (constant : Bool) (n : BitVec 64) {base : BitVec 32} (h : base ≠ 0) :
    ∃ q r, doDiv constant n base = some (q, r) ∧
      q.toNat = n.toNat / base.toNat ∧ r.toNat = n.toNat % base.toNat := by
  unfold doDiv
  split
  · next hc =>
    obtain ⟨k, hk⟩ := isPowerOf2_iff.mp (Bool.and_eq_true_iff.mp hc).2
    have hbase := base.isLt
    have hpos := Nat.two_pow_pos k
    have hk32 : k < 32 := (Nat.pow_lt_pow_iff_right (by decide)).mp (hk ▸ hbase)
    have hlog : ilog2 constant base = some (k : Int) := by
      rw [ilog2_eq (by decide) h, hk, Nat.size_pow]
      simp
    have hone : (1 : BitVec 32) ≤ base := BitVec.le_def.mpr (toNat_pos h)
    have hmask : (n &&& wide (base - 1)).toNat = n.toNat % 2 ^ k := by
      rw [BitVec.toNat_and, toNat_wide, BitVec.toNat_sub_of_le hone, hk]
      exact Nat.and_two_pow_sub_one_eq_mod _ _
    simp only [hlog, shr_eq (show k < 64 by omega), Option.bind_eq_bind, Option.bind_some]
    refine ⟨_, _, rfl, ?_, ?_⟩
    · rw [toNat_shiftRight, hk]
    · rw [toNat_lo, hmask, hk]
      exact Nat.mod_eq_of_lt ((Nat.mod_lt _ hpos).trans (hk ▸ hbase))
  · obtain ⟨eax, edx, hdivl, hq, hr⟩ := divl_reduced n h
    refine ⟨ofHalves (hi n / base) eax, edx, ?_, hq, hr⟩
    rcases eq_or_ne (hi n) 0#32 with h0 | h0
    · rw [h0] at hdivl ⊢
      simp at hdivl
      simp [hdivl]
    · simp [h0, udiv_eq h, umod_eq h, hdivl]

theorem divU64Rem_spec (dividend : BitVec 64) {divisor : BitVec 32} (h : divisor ≠ 0) :
    ∃ q r, divU64Rem dividend divisor = some (q, r) ∧
      q.toNat = dividend.toNat / divisor.toNat ∧ r.toNat = dividend.toNat % divisor.toNat := by
  obtain ⟨eax, edx, hdivl, hq, hr⟩ := divl_reduced dividend h
  refine ⟨ofHalves (hi dividend / divisor) eax, edx, ?_, hq, hr⟩
  unfold divU64Rem
  rcases em (divisor ≤ hi dividend) with hle | hle
  · simp [hle, udiv_eq h, umod_eq h, hdivl, setLo]
  · have hup := BitVec.lt_def.mp (BitVec.not_le.mp hle)
    -- an upper limb below the divisor is its own remainder
    have hmod : hi dividend % divisor = hi dividend :=
      BitVec.eq_of_toNat_eq (by rw [BitVec.toNat_umod, Nat.mod_eq_of_lt hup])
    have hdiv : hi dividend / divisor = 0 :=
      BitVec.eq_of_toNat_eq (by rw [BitVec.toNat_udiv, Nat.div_eq_of_lt hup]; rfl)
    rw [hmod] at hdivl
    simp [hle, hdivl, hdiv, setLo]

theorem divU64_spec (dividend : BitVec 64) {divisor : BitVec 32} (h : divisor ≠ 0) :
    ∃ q, divU64 dividend divisor = some q ∧ q.toNat = dividend.toNat / divisor.toNat := by
  obtain ⟨q, r, hdiv, hq, -⟩ := divU64Rem_spec dividend h
  exact ⟨q, by rw [divU64, hdiv]; rfl, hq⟩

/-! ## `div_s64_rem` -/

/-- `abs` of `int`. -/
def abs (o : Overflow) (x : BitVec 32) : Option (BitVec 32) :=
  if x.toInt < 0 then o.sneg x else some x

/-- The quotient, and what is stored to `*remainder`. -/
def divS64Rem (o : Overflow) (dividend : BitVec 64) (divisor : BitVec 32) :
    Option (BitVec 64 × BitVec 32) :=
  if dividend.toInt < 0 then do
    let (quotient, remainder) ← divU64Rem (← o.sneg dividend) (← abs o divisor)
    let remainder ← o.sneg remainder
    let quotient := if 0 < divisor.toInt then -quotient else quotient
    some (quotient, remainder)
  else do
    let (quotient, remainder) ← divU64Rem dividend (← abs o divisor)
    let quotient := if divisor.toInt < 0 then -quotient else quotient
    some (quotient, remainder)

theorem abs_spec {o : Overflow} {x : BitVec 32} (h : o = .trap → x.toInt ≠ -2 ^ 31) :
    ∃ y, abs o x = some y ∧ y.toNat = x.toInt.natAbs := by
  unfold abs
  split
  · next hneg => exact ⟨-x, Overflow.sneg_eq h, toNat_neg_of_neg hneg⟩
  · next hpos => exact ⟨x, rfl, toNat_of_nonneg (not_lt.mp hpos)⟩

/-- Signed division truncates. The only pair with a quotient outside `s64` is
`(INT64_MIN, -1)`; without wrapping, the negations also need operands that have one. -/
theorem divS64Rem_spec {o : Overflow} (dividend : BitVec 64) {divisor : BitVec 32}
    (hdivisor : divisor ≠ 0) (hpair : ¬ (dividend.toInt = -2 ^ 63 ∧ divisor.toInt = -1))
    (ho : o = .trap → dividend.toInt ≠ -2 ^ 63 ∧ divisor.toInt ≠ -2 ^ 31) :
    ∃ q r, divS64Rem o dividend divisor = some (q, r) ∧
      q.toInt = dividend.toInt.tdiv divisor.toInt ∧
      r.toInt = dividend.toInt.tmod divisor.toInt := by
  obtain ⟨d, habs, hd⟩ := abs_spec fun h => (ho h).2
  have hb := divisor.toInt_lt
  have hb' := divisor.le_toInt
  have ha := dividend.toInt_lt
  have ha' := dividend.le_toInt
  have hne : divisor.toInt ≠ 0 := fun h0 => hdivisor (BitVec.eq_of_toInt_eq (by simpa using h0))
  have hD : 0 < divisor.toInt.natAbs := Int.natAbs_pos.mpr hne
  have hd0 : d ≠ 0 := by
    rintro rfl
    exact hD.ne hd
  -- the quotient and the remainder of the absolute values, and where they fit
  have hQ : 2 * (dividend.toInt.natAbs / divisor.toInt.natAbs) ≤ 2 ^ 64 := by
    have := Nat.div_le_self dividend.toInt.natAbs divisor.toInt.natAbs
    omega
  have hQ' (hs : dividend.toInt < 0 ↔ divisor.toInt < 0) :
      2 * (dividend.toInt.natAbs / divisor.toInt.natAbs) < 2 ^ 64 := by
    rcases Nat.lt_or_ge 1 divisor.toInt.natAbs with h1 | h1
    · have : dividend.toInt.natAbs / divisor.toInt.natAbs ≤ dividend.toInt.natAbs / 2 :=
        Nat.div_le_div_left h1 Nat.two_pos
      omega
    · have := Nat.div_le_self dividend.toInt.natAbs divisor.toInt.natAbs
      omega
  have hR : dividend.toInt.natAbs % divisor.toInt.natAbs < 2 ^ 31 :=
    (Nat.mod_lt _ hD).trans_le (by omega)
  unfold divS64Rem
  split
  · next hneg =>
    obtain ⟨Q, R, hdiv, hq, hr⟩ := divU64Rem_spec (-dividend) hd0
    rw [toNat_neg_of_neg hneg, hd] at hq hr
    have hRi : R.toInt ≠ -2 ^ 31 := by
      rw [BitVec.toInt_eq_toNat_of_lt (by omega)]
      omega
    simp only [Overflow.sneg_eq fun h => (ho h).1, habs, hdiv, Overflow.sneg_eq fun _ => hRi,
      Option.bind_eq_bind, Option.bind_some]
    refine ⟨_, _, rfl, toInt_signed_quotient hq (by omega) (hq ▸ hQ) fun hs => hq ▸ hQ' hs, ?_⟩
    rw [tmod_eq_natAbs, if_pos hneg, toInt_neg_of_le (by omega), hr]
  · next hpos =>
    obtain ⟨Q, R, hdiv, hq, hr⟩ := divU64Rem_spec dividend hd0
    rw [toNat_of_nonneg (not_lt.mp hpos), hd] at hq hr
    simp only [habs, hdiv, Option.bind_eq_bind, Option.bind_some]
    refine ⟨_, _, rfl, toInt_signed_quotient hq (by omega) (hq ▸ hQ) fun hs => hq ▸ hQ' hs, ?_⟩
    rw [tmod_eq_natAbs, if_neg hpos, BitVec.toInt_eq_toNat_of_lt (by omega), hr]

/-- 64-by-32 division is exact. Unsigned, `divl` never traps and the result is the floor
and the rest; signed, with negation and `abs` wrapping, the remainder has the sign of
the dividend. -/
theorem div_rem_exact :
    (∀ (dividend : BitVec 64) (divisor : BitVec 32), divisor ≠ 0 →
      ∃ q r, divU64Rem dividend divisor = some (q, r) ∧
        q.toNat = dividend.toNat / divisor.toNat ∧ r.toNat = dividend.toNat % divisor.toNat) ∧
    ∀ (dividend : BitVec 64) (divisor : BitVec 32), divisor ≠ 0 →
      ¬ (dividend = BitVec.intMin 64 ∧ divisor = -1) →
      ∃ q r, divS64Rem .wrap dividend divisor = some (q, r) ∧
        dividend.toInt = q.toInt * divisor.toInt + r.toInt ∧
        |r.toInt| < |divisor.toInt| ∧ (r.toInt = 0 ∨ r.toInt.sign = dividend.toInt.sign) := by
  refine ⟨fun dividend divisor h => divU64Rem_spec dividend h, fun dividend divisor h hpair => ?_⟩
  have hpair' : ¬ (dividend.toInt = -2 ^ 63 ∧ divisor.toInt = -1) := by
    rintro ⟨hmin, hm1⟩
    exact hpair ⟨BitVec.eq_of_toInt_eq hmin, BitVec.eq_of_toInt_eq hm1⟩
  have hne : divisor.toInt ≠ 0 := fun h0 => h (BitVec.eq_of_toInt_eq (by simpa using h0))
  obtain ⟨q, r, hdiv, hq, hr⟩ := divS64Rem_spec dividend h hpair' (o := .wrap) (fun he => nomatch he)
  refine ⟨q, r, hdiv, ?_, ?_, ?_⟩
  · rw [hq, hr, Int.tdiv_mul_add_tmod]
  · rw [hr, Int.abs_eq_natAbs, Int.abs_eq_natAbs, Int.natAbs_tmod]
    exact Int.ofNat_lt.mpr (Nat.mod_lt _ (Int.natAbs_pos.mpr hne))
  · rw [hr, Int.sign_tmod]
    rcases em (divisor.toInt ∣ dividend.toInt) with hdvd | hdvd
    · exact .inl (Int.tmod_eq_zero_of_dvd hdvd)
    · exact .inr (if_neg hdvd)

/-- `2^64 - 1` by `10`, and `INT64_MIN` by `INT32_MIN`. -/
theorem div_rem_exact_test1 :
    (∃ q r, divU64Rem 18446744073709551615 10 = some (q, r) ∧
      q.toNat = (18446744073709551615 : BitVec 64).toNat / (10 : BitVec 32).toNat ∧
      r.toNat = (18446744073709551615 : BitVec 64).toNat % (10 : BitVec 32).toNat) ∧
    ∃ q r, divS64Rem .wrap (BitVec.intMin 64) (BitVec.intMin 32) = some (q, r) ∧
      (BitVec.intMin 64).toInt = q.toInt * (BitVec.intMin 32).toInt + r.toInt ∧
      |r.toInt| < |(BitVec.intMin 32).toInt| ∧
      (r.toInt = 0 ∨ r.toInt.sign = (BitVec.intMin 64).toInt.sign) :=
  ⟨div_rem_exact.1 18446744073709551615 10 (by decide),
    div_rem_exact.2 (BitVec.intMin 64) (BitVec.intMin 32) (by decide) (by decide)⟩

/-! ## `div64_u64` -/

def div64U64 (dividend divisor : BitVec 64) : Option (BitVec 64) :=
  let high := hi divisor
  if high = 0 then
    divU64 dividend (lo divisor)
  else do
    let n := 1 + fls high
    let quot ← divU64 (← shr dividend n) (lo (← shr divisor n))
    let quot := if quot ≠ 0 then quot - 1 else quot
    some (if divisor ≤ dividend - quot * divisor then quot + 1 else quot)

/-- The divisor without the bits that `div64_u64` shifts out. -/
def keptBits (divisor : BitVec 64) : Nat :=
  divisor.toNat / 2 ^ (1 + fls (hi divisor)).toNat * 2 ^ (1 + fls (hi divisor)).toNat

/-- The bits shifted out are few, measured against the dividend. -/
def DropsLittle (dividend divisor : BitVec 64) : Prop :=
  dividend.toNat * (divisor.toNat - keptBits divisor) +
    dividend.toNat % divisor.toNat * keptBits divisor < 2 * divisor.toNat * keptBits divisor

instance (dividend divisor : BitVec 64) : Decidable (DropsLittle dividend divisor) :=
  Nat.decLt _ _

/-- The correction of `div64_u64` repairs an estimate that is one too large, and no
other. -/
theorem correct_estimate {a d e : BitVec 64} (hd : 0 < d.toNat)
    (hle : a.toNat / d.toNat ≤ e.toNat) :
    (let quot := if e ≠ 0 then e - 1 else e
      if d ≤ a - quot * d then quot + 1 else quot) = a / d ↔ e.toNat ≤ a.toNat / d.toNat + 1 := by
  have ha := a.isLt
  have hdm := Nat.div_add_mod a.toNat d.toNat
  have hr := Nat.mod_lt a.toNat hd
  rcases eq_or_ne e 0 with rfl | h0
  · have hQ : a.toNat / d.toNat = 0 := Nat.le_zero.mp hle
    have hlt : a < d := BitVec.lt_def.mpr ((Nat.div_eq_zero_iff.mp hQ).resolve_left hd.ne')
    have hval : (0 : BitVec 64) = a / d := BitVec.eq_of_toNat_eq (by rw [BitVec.toNat_udiv, hQ]; rfl)
    simp [hlt, ← hval]
  · have hpos := toNat_pos h0
    have hsub : (e - 1).toNat = e.toNat - 1 := BitVec.toNat_sub_of_le (BitVec.le_def.mpr hpos)
    have hadd : e - 1 + 1 = e := BitVec.sub_add_cancel e 1
    simp only [ne_eq, h0, not_false_eq_true, if_true, hadd]
    constructor
    · intro heq
      have hval := congrArg BitVec.toNat heq
      rw [BitVec.toNat_udiv] at hval
      split at hval <;> omega
    · intro hge
      have hmul : (e.toNat - 1) * d.toNat ≤ a.toNat :=
        (Nat.mul_le_mul_right _ (by omega)).trans (Nat.div_mul_le_self a.toNat d.toNat)
      have hprod : ((e - 1) * d).toNat = (e.toNat - 1) * d.toNat := by
        rw [BitVec.toNat_mul, hsub, Nat.mod_eq_of_lt (hmul.trans_lt ha)]
      have hrest : (a - (e - 1) * d).toNat = a.toNat - (e.toNat - 1) * d.toNat := by
        rw [BitVec.toNat_sub_of_le (BitVec.le_def.mpr (hprod ▸ hmul)), hprod]
      apply BitVec.eq_of_toNat_eq
      rw [BitVec.toNat_udiv]
      rw [Nat.mul_comm] at hdm
      rcases Nat.lt_or_ge e.toNat (a.toNat / d.toNat + 1) with hlt | hge'
      · -- the estimate is exact, so one divisor more fits
        have he : e.toNat = a.toNat / d.toNat := by omega
        have hsucc : (e.toNat - 1) * d.toNat + d.toNat = a.toNat / d.toNat * d.toNat := by
          rw [← he, ← Nat.succ_mul, Nat.succ_eq_add_one, Nat.sub_add_cancel hpos]
        rw [if_pos (BitVec.le_def.mpr (by omega)), he]
      · have he : e.toNat - 1 = a.toNat / d.toNat := by omega
        rw [he] at hrest
        rw [if_neg (BitVec.not_le.mpr (BitVec.lt_def.mpr (by omega))), hsub, he]

/-- The shift leaves the upper 31 bits of the divisor. -/
theorem shifted_divisor {divisor : BitVec 64} (hhigh : hi divisor ≠ 0) :
    ∃ n : Nat, 1 + fls (hi divisor) = n ∧ n < 64 ∧
      0 < divisor.toNat / 2 ^ n ∧ divisor.toNat / 2 ^ n < 2 ^ 32 := by
  have hs := Nat.size_pos.mpr (toNat_pos hhigh)
  have hs32 := Nat.size_le.mpr (hi divisor).isLt
  have hlt := Nat.size_le.mp (le_refl (hi divisor).toNat.size)
  have hge : 2 ^ ((hi divisor).toNat.size - 1) ≤ (hi divisor).toNat :=
    Nat.lt_size.mp (Nat.sub_lt hs one_pos)
  have hpow : 2 ^ ((hi divisor).toNat.size + 1) = 4 * 2 ^ ((hi divisor).toNat.size - 1) := by
    rw [show (hi divisor).toNat.size + 1 = 2 + ((hi divisor).toNat.size - 1) by omega, Nat.pow_add]
  have hpow' : 2 ^ (hi divisor).toNat.size = 2 * 2 ^ ((hi divisor).toNat.size - 1) := by
    rw [← Nat.pow_succ', Nat.succ_eq_add_one, Nat.sub_add_cancel hs]
  have hhi := toNat_eq_halves divisor
  have hlo := (lo divisor).isLt
  have hn := Nat.two_pow_pos ((hi divisor).toNat.size + 1)
  refine ⟨(hi divisor).toNat.size + 1, by rw [fls_eq]; omega, by omega, ?_, ?_⟩
  · exact Nat.div_pos (by omega) hn
  · exact (Nat.div_lt_iff_lt_mul hn).mpr (by omega)

/-- The estimate divides by the kept bits alone. -/
theorem div64U64_estimate (dividend : BitVec 64) {divisor : BitVec 64} (hhigh : hi divisor ≠ 0) :
    0 < keptBits divisor ∧ keptBits divisor ≤ divisor.toNat ∧
      ∃ e : BitVec 64, e.toNat = dividend.toNat / keptBits divisor ∧
        div64U64 dividend divisor =
          some (let quot := if e ≠ 0 then e - 1 else e
            if divisor ≤ dividend - quot * divisor then quot + 1 else quot) := by
  obtain ⟨n, hn, hn64, hpos, hlt⟩ := shifted_divisor hhigh
  have hkept : keptBits divisor = divisor.toNat / 2 ^ n * 2 ^ n := by
    unfold keptBits
    rw [hn]
    rfl
  have hd : (lo (divisor >>> n)).toNat = divisor.toNat / 2 ^ n := by
    rw [toNat_lo, toNat_shiftRight, Nat.mod_eq_of_lt hlt]
  have hd0 : lo (divisor >>> n) ≠ 0 := by
    intro h0
    rw [h0] at hd
    exact hpos.ne hd
  obtain ⟨e, hdiv, he⟩ := divU64_spec (dividend >>> n) hd0
  rw [hkept]
  refine ⟨Nat.mul_pos hpos (Nat.two_pow_pos n), Nat.div_mul_le_self _ _, e, ?_, ?_⟩
  · rw [he, hd, toNat_shiftRight, Nat.div_div_eq_div_mul,
      Nat.mul_comm]
  · unfold div64U64
    simp only [hhigh, if_false, hn, shr_eq hn64, hdiv, Option.bind_eq_bind, Option.bind_some]

/-- `div64_u64` is division when the divisor fits 32 bits, or when the bits it shifts out
of a longer divisor are few for the dividend; on all other inputs its result is too
large. -/
theorem div64_u64_exact_iff (dividend divisor : BitVec 64) (h : divisor ≠ 0) :
    div64U64 dividend divisor = some (dividend / divisor) ↔
      divisor.toNat < 2 ^ 32 ∨ DropsLittle dividend divisor := by
  have hpos := toNat_pos h
  have hhi := toNat_hi divisor
  rcases eq_or_ne (hi divisor) 0 with hhigh | hhigh
  · have hlt : divisor.toNat < 2 ^ 32 := by
      rw [hhigh] at hhi
      exact (Nat.div_eq_zero_iff.mp hhi.symm).resolve_left (by decide)
    have hlo : (lo divisor).toNat = divisor.toNat := by rw [toNat_lo, Nat.mod_eq_of_lt hlt]
    have hlo0 : lo divisor ≠ 0 := by
      intro h0
      rw [h0] at hlo
      exact hpos.ne hlo
    obtain ⟨q, hdiv, hq⟩ := divU64_spec dividend hlo0
    have hval : q = dividend / divisor :=
      BitVec.eq_of_toNat_eq (by rw [hq, hlo, BitVec.toNat_udiv])
    rw [div64U64, if_pos hhigh, hdiv, hval]
    exact iff_of_true rfl (.inl hlt)
  · obtain ⟨hk, hkd, e, he, hdiv⟩ := div64U64_estimate dividend hhigh
    have hle : dividend.toNat / divisor.toNat ≤ e.toNat := he ▸ Nat.div_le_div_left hkd hk
    have hge : ¬ divisor.toNat < 2 ^ 32 := by
      intro hlt
      rw [Nat.div_eq_of_lt hlt] at hhi
      exact hhigh (BitVec.eq_of_toNat_eq hhi)
    rw [hdiv, Option.some_inj, correct_estimate hpos hle, he, div_le_succ_iff hk hkd]
    exact ⟨.inr, fun ho => ho.resolve_left hge⟩

/-- One bit lost of a divisor just above a power of two. -/
theorem div64_u64_exact_iff_test1 :
    div64U64 1000000000000 8589934593 = some (1000000000000 / 8589934593) ↔
      (8589934593 : BitVec 64).toNat < 2 ^ 32 ∨ DropsLittle 1000000000000 8589934593 :=
  div64_u64_exact_iff 1000000000000 8589934593 (by decide)

/-- `2^64 - 1` divided by `2^32 + 3` comes out two too large. -/
theorem div64_u64_exact_counterexample :
    div64U64 18446744073709551615 4294967299 = some 4294967295 ∧
      (18446744073709551615 : BitVec 64) / 4294967299 = 4294967293 := by
  decide +kernel

end Uki
