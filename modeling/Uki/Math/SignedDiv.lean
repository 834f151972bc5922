import Uki.Math.Div64

/-!
# Signed 64-bit division: `div64_s64`

`div64_s64` divides absolute values with `div64_u64` and negates by the mask of the two
signs. It is right exactly where `div64_u64` is, and it agrees with `div_s64` on divisors
of 32 bits.
-/

set_option linter.style.nameCheck false

namespace Uki

open Words

variable {o : Overflow}

/-- The macro is an expression of type `s64`. -/
def abs64 (o : Overflow) (x : BitVec 64) : Option (BitVec 64) :=
  if x.toInt < 0 then o.sneg x else some x

def div64S64 (o : Overflow) (dividend divisor : BitVec 64) : Option (BitVec 64) := do
  let quot ← div64U64 (← abs64 o dividend) (← abs64 o divisor)
  let t := (dividend ^^^ divisor).sshiftRight 63
  o.ssub (quot ^^^ t) t

def divS64 (o : Overflow) (dividend : BitVec 64) (divisor : BitVec 32) : Option (BitVec 64) := do
  let (quotient, _) ← divS64Rem o dividend divisor
  some quotient

/-- The arithmetic shift spreads the sign over the word. -/
theorem sshiftRight_sign (x : BitVec 64) : x.sshiftRight 63 = if x.toInt < 0 then -1 else 0 := by
  have hlt := x.toInt_lt
  have hge := x.le_toInt
  rw [BitVec.sshiftRight_eq, Int.shiftRight_eq_div_pow]
  split
  · have hq : x.toInt / (2 ^ 63 : Nat) = -1 := by omega
    rw [hq]
    rfl
  · have hq : x.toInt / (2 ^ 63 : Nat) = 0 := by omega
    rw [hq]
    rfl

/-- Negation by a mask. -/
theorem xor_sub_mask (c : Prop) [Decidable c] (q : BitVec 64) :
    (q ^^^ (if c then -1 else 0)) - (if c then -1 else 0) = if c then -q else q := by
  split
  · have hnot : q ^^^ -1 = ~~~q := BitVec.xor_allOnes
    rw [hnot, sub_neg_eq_add]
    exact (BitVec.neg_eq_not_add q).symm
  · simp

theorem toInt_xor_neg (a b : BitVec 64) :
    (a ^^^ b).toInt < 0 ↔ ¬ (a.toInt < 0 ↔ b.toInt < 0) := by
  have hmsb (x : BitVec 64) : x.toInt < 0 ↔ x.msb = true := by
    rw [BitVec.msb_eq_toInt, decide_eq_true_iff]
  rw [hmsb, hmsb, hmsb, BitVec.msb_xor]
  cases a.msb <;> cases b.msb <;> simp

theorem abs64_wrap (x : BitVec 64) :
    abs64 .wrap x = some x.abs ∧ x.abs.toNat = x.toInt.natAbs := by
  have hmsb : x.msb = decide (x.toInt < 0) := BitVec.msb_eq_toInt
  unfold abs64 BitVec.abs
  rw [hmsb]
  split
  · next hneg =>
    rw [if_pos (decide_eq_true hneg)]
    exact ⟨rfl, toNat_neg_of_neg hneg⟩
  · next hpos =>
    rw [if_neg (by simpa using hpos)]
    exact ⟨rfl, toNat_of_nonneg (not_lt.mp hpos)⟩

/-- `div64_s64` is `div64_u64` of the absolute values, with the sign of the quotient. -/
theorem div64S64_wrap (dividend divisor : BitVec 64) :
    div64S64 .wrap dividend divisor = (div64U64 dividend.abs divisor.abs).map fun quot =>
      if ¬ (dividend.toInt < 0 ↔ divisor.toInt < 0) then -quot else quot := by
  have hmask (quot : BitVec 64) :
      Overflow.wrap.ssub (quot ^^^ (dividend ^^^ divisor).sshiftRight 63)
        ((dividend ^^^ divisor).sshiftRight 63) =
      some (if ¬ (dividend.toInt < 0 ↔ divisor.toInt < 0) then -quot else quot) := by
    refine congrArg some ?_
    rw [sshiftRight_sign, xor_sub_mask]
    exact if_congr (toInt_xor_neg dividend divisor) rfl rfl
  unfold div64S64
  rw [(abs64_wrap dividend).1, (abs64_wrap divisor).1]
  simp only [Option.bind_eq_bind, Option.bind_some, hmask]
  rw [Option.map_eq_bind]
  rfl

/-- The quotient of the absolute values is that of two `s64`, and only
`(INT64_MIN, -1)` has one that does not fit. -/
theorem abs_quotient (dividend : BitVec 64) {divisor : BitVec 64} (h : divisor ≠ 0)
    (hpair : ¬ (dividend = BitVec.intMin 64 ∧ divisor = -1)) :
    (if ¬ (dividend.toInt < 0 ↔ divisor.toInt < 0) then -(dividend.abs / divisor.abs)
      else dividend.abs / divisor.abs).toInt = dividend.toInt.tdiv divisor.toInt := by
  have hne : divisor.toInt ≠ 0 := fun h0 => h (BitVec.eq_of_toInt_eq (by simpa using h0))
  have hD : 0 < divisor.toInt.natAbs := Int.natAbs_pos.mpr hne
  have ha := dividend.toInt_lt
  have ha' := dividend.le_toInt
  have hval : (dividend.abs / divisor.abs).toNat =
      dividend.toInt.natAbs / divisor.toInt.natAbs := by
    rw [BitVec.toNat_udiv, (abs64_wrap dividend).2, (abs64_wrap divisor).2]
  have hle := Nat.div_le_self dividend.toInt.natAbs divisor.toInt.natAbs
  refine toInt_signed_quotient hval Iff.rfl (by omega) fun hs => ?_
  rcases Nat.lt_or_ge 1 divisor.toInt.natAbs with h1 | h1
  · have hhalf : dividend.toInt.natAbs / divisor.toInt.natAbs ≤ dividend.toInt.natAbs / 2 :=
      Nat.div_le_div_left h1 Nat.two_pos
    omega
  · -- a divisor 1 or -1, where -1 has a dividend above `INT64_MIN`
    have hmin : ¬ (dividend.toInt = -2 ^ 63 ∧ divisor.toInt = -1) := fun he =>
      hpair ⟨BitVec.eq_of_toInt_eq he.1, BitVec.eq_of_toInt_eq he.2⟩
    omega

/-- `div64_s64` truncates like the operator of C if and only if `div64_u64` is right on
the absolute values. -/
theorem div64_s64_exact_iff (dividend : BitVec 64) {divisor : BitVec 64} (h : divisor ≠ 0)
    (hpair : ¬ (dividend = BitVec.intMin 64 ∧ divisor = -1)) :
    (∃ q, div64S64 .wrap dividend divisor = some q ∧
      q.toInt = dividend.toInt.tdiv divisor.toInt) ↔
      div64U64 dividend.abs divisor.abs = some (dividend.abs / divisor.abs) := by
  have hquot := abs_quotient dividend h hpair
  rw [div64S64_wrap]
  constructor
  · rintro ⟨q, hq, hval⟩
    obtain ⟨quot, hdiv, rfl⟩ := Option.map_eq_some_iff.mp hq
    have hsame := BitVec.eq_of_toInt_eq (hval.trans hquot.symm)
    rw [hdiv, Option.some_inj]
    split at hsame
    · exact neg_injective hsame
    · exact hsame
  · intro hdiv
    rw [hdiv]
    exact ⟨_, rfl, hquot⟩

/-- `2^63 - 2^32` by `-(2^32 + 3)`, which `div64_u64` divides too large by one. -/
example :
    ¬ ∃ q, div64S64 .wrap 9223372032559808512 (-4294967299) = some q ∧
      q.toInt = (9223372032559808512 : BitVec 64).toInt.tdiv (-4294967299 : BitVec 64).toInt := by
  rw [div64_s64_exact_iff 9223372032559808512 (by decide) (by decide)]
  decide +kernel

/-! ## Divisors of 32 bits -/

theorem div64U64_of_small (dividend : BitVec 64) {divisor : BitVec 64} (h : divisor ≠ 0)
    (hlt : divisor.toNat < 2 ^ 32) : div64U64 dividend divisor = some (dividend / divisor) := by
  have hhigh : hi divisor = 0 :=
    BitVec.eq_of_toNat_eq (by rw [toNat_hi, Nat.div_eq_of_lt hlt]; rfl)
  have hlo : (lo divisor).toNat = divisor.toNat := by rw [toNat_lo, Nat.mod_eq_of_lt hlt]
  have hlo0 : lo divisor ≠ 0 := fun h0 => by
    rw [h0] at hlo
    exact (toNat_pos h).ne hlo
  obtain ⟨q, hdiv, hq⟩ := divU64_spec dividend hlo0
  have hval : q = dividend / divisor :=
    BitVec.eq_of_toNat_eq (by rw [hq, hlo, BitVec.toNat_udiv])
  rw [div64U64, if_pos hhigh, hdiv, hval]

/-- On all operands but `INT64_MIN` and `-1`. -/
theorem div64_s64_eq_div_s64_of_fits (dividend : BitVec 64) {divisor : BitVec 32}
    (h : divisor ≠ 0) (hpair : ¬ (dividend = BitVec.intMin 64 ∧ divisor = -1)) :
    ∃ q, divS64 .wrap dividend divisor = some q ∧
      div64S64 .wrap dividend (divisor.signExtend 64) = some q := by
  have hext : (divisor.signExtend 64).toInt = divisor.toInt :=
    BitVec.toInt_signExtend_of_le (by decide)
  have hne : divisor.toInt ≠ 0 := fun h0 => h (BitVec.eq_of_toInt_eq (by simpa using h0))
  have hext0 : divisor.signExtend 64 ≠ 0 := fun h0 => by
    rw [h0] at hext
    exact hne hext.symm
  have hpair64 : ¬ (dividend = BitVec.intMin 64 ∧ divisor.signExtend 64 = -1) := by
    rintro ⟨hmin, hm1⟩
    rw [hm1] at hext
    exact hpair ⟨hmin, BitVec.eq_of_toInt_eq hext.symm⟩
  have hpair' : ¬ (dividend.toInt = -2 ^ 63 ∧ divisor.toInt = -1) := by
    rintro ⟨hmin, hm1⟩
    exact hpair ⟨BitVec.eq_of_toInt_eq hmin, BitVec.eq_of_toInt_eq hm1⟩
  obtain ⟨q, r, hrem, hq, -⟩ := divS64Rem_spec dividend h hpair' (o := .wrap) fun he => nomatch he
  have habs : (divisor.signExtend 64).abs.toNat = divisor.toInt.natAbs := by
    rw [(abs64_wrap _).2, hext]
  have habs0 : (divisor.signExtend 64).abs ≠ 0 := fun h0 => by
    rw [h0] at habs
    exact (Int.natAbs_pos.mpr hne).ne habs
  have hsmall : (divisor.signExtend 64).abs.toNat < 2 ^ 32 := by
    have := divisor.toInt_lt
    have := divisor.le_toInt
    omega
  refine ⟨q, by rw [divS64, hrem]; rfl, ?_⟩
  rw [div64S64_wrap, div64U64_of_small _ habs0 hsmall, Option.map_some, Option.some_inj]
  have hquot := abs_quotient dividend hext0 hpair64
  rw [hext] at hquot
  exact BitVec.eq_of_toInt_eq ((congrArg BitVec.toInt (by rw [hext])).trans (hquot.trans hq.symm))

/-- On the divisors of `div_s64`, the division that is optimised for them and the general
one return the same: `INT64_MIN` when that is divided by -1. -/
theorem div64_s64_eq_div_s64 (dividend : BitVec 64) {divisor : BitVec 32} (h : divisor ≠ 0) :
    ∃ q, divS64 .wrap dividend divisor = some q ∧
      div64S64 .wrap dividend (divisor.signExtend 64) = some q := by
  by_cases hpair : dividend = BitVec.intMin 64 ∧ divisor = -1
  · obtain ⟨rfl, rfl⟩ := hpair
    exact ⟨BitVec.intMin 64, by decide +kernel, by decide +kernel⟩
  · exact div64_s64_eq_div_s64_of_fits dividend h hpair

theorem div64_s64_eq_div_s64_test1 :
    (∃ q, divS64 .wrap (-1000000007) (-10) = some q ∧
      div64S64 .wrap (-1000000007) ((-10 : BitVec 32).signExtend 64) = some q) ∧
    ∃ q, divS64 .wrap (BitVec.intMin 64) (-1) = some q ∧
      div64S64 .wrap (BitVec.intMin 64) ((-1 : BitVec 32).signExtend 64) = some q :=
  ⟨div64_s64_eq_div_s64 (-1000000007) (by decide), div64_s64_eq_div_s64 _ (by decide)⟩

end Uki
