import Uki.Math.Mul64

/-!
# The multiplication helpers in two translation units

`math64.h` tests `__BIG_ENDIAN` with `#ifdef`, and `<endian.h>` defines that macro on
every host. A unit that includes `<stdlib.h>` first, as `timer_test.c` does, reads the
halves of every union the other way round; `div64.c` includes `math64.h` first and does
not. What the first unit computes instead is stated here in terms of the operands.
-/

namespace Uki

open Words

/-- The columns of the product are summed from the last to the first, and the digits of
each of the two words come out exchanged. -/
def crossedProduct (a b : BitVec 64) : Nat :=
  let cs := columns (2 ^ 32) (hi a).toNat (lo a).toNat (hi b).toNat (lo b).toNat
  let r := Nat.ofDigits (2 ^ 32) cs.reverse
  Nat.ofDigits (2 ^ 32)
    [r / 2 ^ 32 % 2 ^ 32, r % 2 ^ 32, r / 2 ^ 96 % 2 ^ 32, r / 2 ^ 64 % 2 ^ 32]

/-- The upper half of `a` is divided first, and of both quotients the upper half counts. -/
def crossedQuotient (a : BitVec 64) (mul divisor : BitVec 32) : Nat :=
  (hi a).toNat * mul.toNat / 2 ^ 32 / divisor.toNat * 2 ^ 32 +
    ((lo a).toNat * mul.toNat + (hi a).toNat * mul.toNat % 2 ^ 32) / divisor.toNat / 2 ^ 32

/-- The two double words have the same 64 bits from bit `shift` on. -/
def SameWindow (a b : BitVec 64) (shift : BitVec 32) : Prop :=
  a.toNat * b.toNat / 2 ^ shift.toNat ≡ crossedProduct a b / 2 ^ shift.toNat [MOD 2 ^ 64]

def SameQuotient (a : BitVec 64) (mul divisor : BitVec 32) : Prop :=
  a.toNat * mul.toNat / divisor.toNat ≡ crossedQuotient a mul divisor [MOD 2 ^ 64]

theorem toNat_mulWords_crossed (a b : BitVec 64) :
    2 ^ 64 * (mulWords true a b).2.toNat + (mulWords true a b).1.toNat = crossedProduct a b := by
  have hwords := ofDigits_fields true a b
  generalize hr : Nat.ofDigits (2 ^ 32) (addends true a b) = r at hwords
  have hcrossed : crossedProduct a b = Nat.ofDigits (2 ^ 32)
      [r / 2 ^ 32 % 2 ^ 32, r % 2 ^ 32, r / 2 ^ 96 % 2 ^ 32, r / 2 ^ 64 % 2 ^ 32] := by
    rw [← hr]
    rfl
  simp only [fields, low, high, if_true, Nat.ofDigits_cons, Nat.ofDigits_nil] at hwords
  have h0 := (hi (mulWords true a b).1).isLt
  have h1 := (lo (mulWords true a b).1).isLt
  have h2 := (hi (mulWords true a b).2).isLt
  have h3 := (lo (mulWords true a b).2).isLt
  rw [toNat_eq_halves (mulWords true a b).1, toNat_eq_halves (mulWords true a b).2]
  have hd0 : r % 2 ^ 32 = (hi (mulWords true a b).1).toNat := by omega
  have hd1 : r / 2 ^ 32 % 2 ^ 32 = (lo (mulWords true a b).1).toNat := by omega
  have hd2 : r / 2 ^ 64 % 2 ^ 32 = (hi (mulWords true a b).2).toNat := by omega
  have hd3 : r / 2 ^ 96 % 2 ^ 32 = (lo (mulWords true a b).2).toNat := by omega
  rw [hcrossed, hd0, hd1, hd2, hd3]
  simp only [Nat.ofDigits_cons, Nat.ofDigits_nil]
  omega

theorem mulU64U64Shr_crossed (a b : BitVec 64) {shift : BitVec 32} (h : shift.toNat < 128) :
    mulU64U64Shr true a b shift =
      some (BitVec.ofNat 64 (crossedProduct a b / 2 ^ shift.toNat)) := by
  rw [← toNat_mulWords_crossed]
  exact shrWords_eq _ _ h

theorem mulU64U32Div_crossed {o : Overflow} (constant : Bool × Bool) (a : BitVec 64)
    (mul : BitVec 32) {divisor : BitVec 32} (h : divisor ≠ 0) :
    mulU64U32Div o true constant a mul divisor =
      some (BitVec.ofNat 64 (crossedQuotient a mul divisor)) := by
  obtain ⟨qh, mod, ql, hres, hqh, -, hql⟩ := mulU64U32Div_steps (o := o) true constant a mul h
  simp only [low, high, setHigh, if_true, toNat_lo (wide _ * wide _), toNat_wide_mul_wide]
    at hres hqh hql
  have hmod := mod.isLt
  -- the remainder stays below the half that is kept
  have hupper : ql.toNat / 2 ^ 32 = (hi a).toNat * mul.toNat / 2 ^ 32 / divisor.toNat := by
    rw [hql, setLo, toNat_ofHalves, toNat_hi, toNat_wide_mul_wide, Nat.div_div_eq_div_mul,
      Nat.mul_comm divisor.toNat, ← Nat.div_div_eq_div_mul]
    congr 1
    omega
  have hlt : crossedQuotient a mul divisor < 2 ^ 64 := by
    have h1 := ql.isLt
    have h2 := qh.isLt
    unfold crossedQuotient
    omega
  rw [hres]
  refine congrArg some (BitVec.eq_of_toNat_eq ?_)
  rw [BitVec.toNat_ofNat, Nat.mod_eq_of_lt hlt, setLo, toNat_ofHalves, toNat_hi, toNat_hi, hupper,
    hqh]
  rfl

theorem ofNat_eq_iff {v : Bool → Nat} {d₁ d₂ : Bool} :
    BitVec.ofNat 64 (v d₁) = BitVec.ofNat 64 (v d₂) ↔ d₁ = d₂ ∨ v false ≡ v true [MOD 2 ^ 64] := by
  rw [← BitVec.toNat_inj, BitVec.toNat_ofNat, BitVec.toNat_ofNat]
  cases d₁ with
  | false =>
    cases d₂ with
    | false => exact iff_of_true rfl (.inl rfl)
    | true => exact ⟨.inr, fun hd => hd.resolve_left Bool.false_ne_true⟩
  | true =>
    cases d₂ with
    | false =>
      refine ⟨fun hv => .inr hv.symm, fun hd => ?_⟩
      exact (hd.resolve_left Bool.false_ne_true.symm).symm
    | true => exact iff_of_true rfl (.inl rfl)

theorem mulU64U64Shr_agree_iff (d₁ d₂ : Bool) (a b : BitVec 64) {shift : BitVec 32}
    (h : shift.toNat < 128) :
    mulU64U64Shr d₁ a b shift = mulU64U64Shr d₂ a b shift ↔ d₁ = d₂ ∨ SameWindow a b shift := by
  have hval (d : Bool) : mulU64U64Shr d a b shift = some (BitVec.ofNat 64
      ((if d then crossedProduct a b else a.toNat * b.toNat) / 2 ^ shift.toNat)) := by
    cases d with
    | false => exact mulU64U64Shr_eq a b h
    | true => exact mulU64U64Shr_crossed a b h
  rw [hval, hval, Option.some_inj]
  exact ofNat_eq_iff (v := fun d =>
    (if d then crossedProduct a b else a.toNat * b.toNat) / 2 ^ shift.toNat)

theorem mulU64U32Div_agree_iff {o : Overflow} (d₁ d₂ : Bool) (constant₁ constant₂ : Bool × Bool)
    (a : BitVec 64) (mul : BitVec 32) {divisor : BitVec 32} (h : divisor ≠ 0) :
    mulU64U32Div o d₁ constant₁ a mul divisor = mulU64U32Div o d₂ constant₂ a mul divisor ↔
      d₁ = d₂ ∨ SameQuotient a mul divisor := by
  have hval (d : Bool) (constant : Bool × Bool) :
      mulU64U32Div o d constant a mul divisor = some (BitVec.ofNat 64
        (if d then crossedQuotient a mul divisor else a.toNat * mul.toNat / divisor.toNat)) := by
    cases d with
    | false => exact mulU64U32Div_eq constant a mul h
    | true => exact mulU64U32Div_crossed constant a mul h
  rw [hval, hval, Option.some_inj]
  exact ofNat_eq_iff (v := fun d =>
    if d then crossedQuotient a mul divisor else a.toNat * mul.toNat / divisor.toNat)

/-- Two translation units, of which `d₁` and `d₂` say whether `__BIG_ENDIAN` was defined,
get the same results on given operands exactly if both say the same or the operands hide
the difference, and on all operands exactly if both say the same. -/
theorem header_order_iff (d₁ d₂ : Bool) :
    (∀ (a b : BitVec 64) (shift : BitVec 32), shift.toNat < 128 →
      (mulU64U64Shr d₁ a b shift = mulU64U64Shr d₂ a b shift ↔
        d₁ = d₂ ∨ SameWindow a b shift)) ∧
    (∀ (o : Overflow) (constant₁ constant₂ : Bool × Bool) (a : BitVec 64)
      (mul divisor : BitVec 32), divisor ≠ 0 →
      (mulU64U32Div o d₁ constant₁ a mul divisor = mulU64U32Div o d₂ constant₂ a mul divisor ↔
        d₁ = d₂ ∨ SameQuotient a mul divisor)) ∧
    ((∀ (a b : BitVec 64) (shift : BitVec 32), shift.toNat < 128 →
      mulU64U64Shr d₁ a b shift = mulU64U64Shr d₂ a b shift) ↔ d₁ = d₂) ∧
    ((∀ (o : Overflow) (constant₁ constant₂ : Bool × Bool) (a : BitVec 64)
      (mul divisor : BitVec 32), divisor ≠ 0 →
      mulU64U32Div o d₁ constant₁ a mul divisor = mulU64U32Div o d₂ constant₂ a mul divisor) ↔
      d₁ = d₂) := by
  refine ⟨fun a b shift h => mulU64U64Shr_agree_iff d₁ d₂ a b h,
    fun o constant₁ constant₂ a mul divisor h =>
      mulU64U32Div_agree_iff d₁ d₂ constant₁ constant₂ a mul h,
    ⟨fun hall => ?_, fun hd a b shift h => ?_⟩,
    ⟨fun hall => ?_, fun hd o constant₁ constant₂ a mul divisor h => ?_⟩⟩
  · -- `1 * 1` without a shift
    have hone := (mulU64U64Shr_agree_iff d₁ d₂ 1 1 (by decide)).mp (hall 1 1 0 (by decide))
    exact hone.resolve_right (by unfold SameWindow; decide)
  · exact (mulU64U64Shr_agree_iff d₁ d₂ a b h).mpr (.inl hd)
  · have hone := (mulU64U32Div_agree_iff d₁ d₂ (false, false) (false, false) 1 1 (by decide)).mp
      (hall .wrap (false, false) (false, false) 1 1 1 (by decide))
    exact hone.resolve_right (by unfold SameQuotient; decide)
  · exact (mulU64U32Div_agree_iff d₁ d₂ constant₁ constant₂ a mul h).mpr (.inl hd)

/-- Two squares that differ, two products whose bits from 127 on are the same, and the same
for quotients. -/
theorem header_order_iff_test1 :
    (mulU64U64Shr false 0x100000001 0x100000001 0 = some 0x200000001 ∧
      mulU64U64Shr true 0x100000001 0x100000001 0 = some 1 ∧
      ¬ SameWindow 0x100000001 0x100000001 0) ∧
    (mulU64U64Shr false 0x500000000 6 127 = some 0 ∧
      mulU64U64Shr true 0x500000000 6 127 = some 0) ∧
    (mulU64U32Div .wrap false (false, false) 0x300000000 7 3 = some 0x700000000 ∧
      mulU64U32Div .wrap true (false, false) 0x300000000 7 3 = some 0 ∧
      ¬ SameQuotient 0x300000000 7 3) ∧
    mulU64U32Div .wrap false (false, false) 3 5 16 = some 0 ∧
      mulU64U32Div .wrap true (false, false) 3 5 16 = some 0 := by
  obtain ⟨hshr, hdiv, -, -⟩ := header_order_iff false true
  have h₁ : mulU64U64Shr false 0x100000001 0x100000001 0 = some 0x200000001 := by decide +kernel
  have h₂ : mulU64U64Shr true 0x100000001 0x100000001 0 = some 1 := by decide +kernel
  have h₃ : mulU64U64Shr false 0x500000000 6 127 = some 0 := by decide +kernel
  have h₄ : mulU64U32Div .wrap false (false, false) 0x300000000 7 3 = some 0x700000000 := by
    decide +kernel
  have h₅ : mulU64U32Div .wrap true (false, false) 0x300000000 7 3 = some 0 := by decide +kernel
  have h₆ : mulU64U32Div .wrap false (false, false) 3 5 16 = some 0 := by decide +kernel
  refine ⟨⟨h₁, h₂, fun hw => ?_⟩, ⟨h₃, ?_⟩, ⟨h₄, h₅, fun hw => ?_⟩, h₆, ?_⟩
  · have heq := (hshr 0x100000001 0x100000001 0 (by decide)).mpr (.inr hw)
    rw [h₁, h₂] at heq
    exact absurd heq (by decide)
  · rw [← h₃]
    exact ((hshr 0x500000000 6 127 (by decide)).mpr (.inr (by unfold SameWindow; decide))).symm
  · have heq := (hdiv .wrap (false, false) (false, false) 0x300000000 7 3 (by decide)).mpr (.inr hw)
    rw [h₄, h₅] at heq
    exact absurd heq (by decide)
  · rw [← h₆]
    exact ((hdiv .wrap (false, false) (false, false) 3 5 16 (by decide)).mpr
      (.inr (by unfold SameQuotient; decide))).symm

/-- `1 * 1`, not shifted, and `1 * 1 / 1` are 1 in one unit and 0 in the other. -/
theorem header_order_counterexample :
    mulU64U64Shr false 1 1 0 = some 1 ∧ mulU64U64Shr true 1 1 0 = some 0 ∧
      mulU64U32Div .wrap false (false, false) 1 1 1 = some 1 ∧
      mulU64U32Div .wrap true (false, false) 1 1 1 = some 0 := by
  decide +kernel

end Uki
