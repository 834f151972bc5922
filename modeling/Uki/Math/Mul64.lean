import Uki.Math.Div64

/-!
# 64-bit multiplication with a shift or a division: `math64.h`

The versions for a compiler without `__int128`, and the ones with it, on a little-endian
host. The unions name the halves of a word `low` and `high`; which half is which depends
on whether `__BIG_ENDIAN` is defined (`bigEndian`), and only without it do the names mean
what they say.
-/

set_option linter.style.nameCheck false

namespace Uki

open Words

variable {bigEndian : Bool}

/-! ## The union -/

/-- `u32 high, low;` with the macro, `u32 low, high;` without it: the first field is the
lower half. -/
def low (bigEndian : Bool) (ll : BitVec 64) : BitVec 32 := if bigEndian then hi ll else lo ll

def high (bigEndian : Bool) (ll : BitVec 64) : BitVec 32 := if bigEndian then lo ll else hi ll

def setLow (bigEndian : Bool) (ll : BitVec 64) (x : BitVec 32) : BitVec 64 :=
  if bigEndian then setHi ll x else setLo ll x

def setHigh (bigEndian : Bool) (ll : BitVec 64) (x : BitVec 32) : BitVec 64 :=
  if bigEndian then setLo ll x else setHi ll x

@[simp] theorem low_setLow (ll : BitVec 64) (x : BitVec 32) :
    low bigEndian (setLow bigEndian ll x) = x := by
  cases bigEndian <;> simp [low, setLow]

@[simp] theorem low_setHigh (ll : BitVec 64) (x : BitVec 32) :
    low bigEndian (setHigh bigEndian ll x) = low bigEndian ll := by
  cases bigEndian <;> simp [low, setHigh]

@[simp] theorem high_setLow (ll : BitVec 64) (x : BitVec 32) :
    high bigEndian (setLow bigEndian ll x) = high bigEndian ll := by
  cases bigEndian <;> simp [high, setLow]

@[simp] theorem high_setHigh (ll : BitVec 64) (x : BitVec 32) :
    high bigEndian (setHigh bigEndian ll x) = x := by
  cases bigEndian <;> simp [high, setHigh]

/-! ## `mul_u64_u64_shr` -/

/-- `rl` and `rh` after the carries. -/
def mulWords (bigEndian : Bool) (a b : BitVec 64) : BitVec 64 × BitVec 64 :=
  let rl := wide (low bigEndian a) * wide (low bigEndian b)
  let rm := wide (low bigEndian a) * wide (high bigEndian b)
  let rn := wide (high bigEndian a) * wide (low bigEndian b)
  let rh := wide (high bigEndian a) * wide (high bigEndian b)
  let c := wide (high bigEndian rl) + wide (low bigEndian rm) + wide (low bigEndian rn)
  let rl := setHigh bigEndian rl (lo c)
  let c := c >>> 32 + wide (high bigEndian rm) + wide (high bigEndian rn) + wide (low bigEndian rh)
  let rh := setLow bigEndian rh (lo c)
  let rh := setHigh bigEndian rh (lo (c >>> 32 + wide (high bigEndian rh)))
  (rl, rh)

/-- "shift it right and throw away the high part of the result". -/
def shrWords (rl rh : BitVec 64) (shift : BitVec 32) : Option (BitVec 64) :=
  if shift = 0 then
    some rl
  else if shift < 64 then do
    some ((← shr rl shift.toNat) ||| (← shl rh (64 - shift).toNat))
  else
    shr rh (shift &&& 63).toNat

def mulU64U64Shr (bigEndian : Bool) (a b : BitVec 64) (shift : BitVec 32) : Option (BitVec 64) :=
  let (rl, rh) := mulWords bigEndian a b
  shrWords rl rh shift

/-- The version with `unsigned __int128`. -/
def mulU64U64ShrInt128 (a mul : BitVec 64) (shift : BitVec 32) : Option (BitVec 64) := do
  let p ← shr (a.setWidth 128 * mul.setWidth 128) shift.toNat
  some (p.setWidth 64)

theorem shrWords_eq (rl rh : BitVec 64) {shift : BitVec 32} (h : shift.toNat < 128) :
    shrWords rl rh shift =
      some (BitVec.ofNat 64 ((2 ^ 64 * rh.toNat + rl.toNat) / 2 ^ shift.toNat)) := by
  unfold shrWords
  split
  · next h0 =>
    subst h0
    refine congrArg some (eq_window fun i hi => ?_)
    simp [hi]
  · split
    · next h0 hlt =>
      have hlt : shift.toNat < 64 := BitVec.lt_def.mp hlt
      have hpos : 0 < shift.toNat := toNat_pos h0
      have hsub : (64 - shift).toNat = 64 - shift.toNat :=
        BitVec.toNat_sub_of_le (BitVec.le_def.mpr hlt.le)
      rw [shr_eq hlt, hsub, shl_eq (by omega)]
      refine congrArg some (eq_window fun i hi => ?_)
      rw [BitVec.getLsbD_or, BitVec.getLsbD_ushiftRight, BitVec.getLsbD_shiftLeft]
      rcases Nat.lt_or_ge (shift.toNat + i) 64 with hlow | hhigh
      · simp [hi, hlow, show i < 64 - shift.toNat by omega]
      · rw [BitVec.getLsbD_of_ge rl _ hhigh,
          show i - (64 - shift.toNat) = shift.toNat + i - 64 by omega]
        simp [hi, show ¬ shift.toNat + i < 64 by omega, show ¬ i < 64 - shift.toNat by omega]
    · next hge =>
      have hge : 64 ≤ shift.toNat := BitVec.le_def.mp (BitVec.not_lt.mp hge)
      have hand : (shift &&& 63).toNat = shift.toNat - 64 := by
        rw [BitVec.toNat_and]
        exact (Nat.and_two_pow_sub_one_eq_mod shift.toNat 6).trans (by omega)
      rw [hand, shr_eq (by omega)]
      refine congrArg some (eq_window fun i hi => ?_)
      rw [BitVec.getLsbD_ushiftRight, if_neg (by omega),
        show shift.toNat - 64 + i = shift.toNat + i - 64 by omega]

/-- The columns of the product in the order in which the carries run through them. -/
def addends (bigEndian : Bool) (a b : BitVec 64) : List Nat :=
  let cs := columns (2 ^ 32) (hi a).toNat (lo a).toNat (hi b).toNat (lo b).toNat
  if bigEndian then cs.reverse else cs

/-- `rl.l.low`, `rl.l.high`, `rh.l.low` and `rh.l.high`. -/
def fields (bigEndian : Bool) (rl rh : BitVec 64) : List Nat :=
  [(low bigEndian rl).toNat, (high bigEndian rl).toNat, (low bigEndian rh).toNat,
    (high bigEndian rh).toNat]

theorem addends_eq (a b : BitVec 64) :
    addends bigEndian a b =
      let rl := wide (low bigEndian a) * wide (low bigEndian b)
      let rm := wide (low bigEndian a) * wide (high bigEndian b)
      let rn := wide (high bigEndian a) * wide (low bigEndian b)
      let rh := wide (high bigEndian a) * wide (high bigEndian b)
      [(low bigEndian rl).toNat,
        (high bigEndian rl).toNat + (low bigEndian rm).toNat + (low bigEndian rn).toNat,
        (high bigEndian rm).toNat + (high bigEndian rn).toNat + (low bigEndian rh).toNat,
        (high bigEndian rh).toNat] := by
  cases bigEndian with
  | false =>
    simp only [addends, columns, low, high, Bool.false_eq_true, if_false, toNat_lo,
      toNat_hi (wide _ * wide _), toNat_wide_mul_wide]
  | true =>
    simp only [addends, columns, low, high, if_true, toNat_lo (wide _ * wide _),
      toNat_hi (wide _ * wide _), toNat_wide_mul_wide, List.reverse_cons, List.reverse_nil,
      List.nil_append, List.cons_append, List.cons.injEq, and_true, true_and]
    omega

/-- Under either reading of the names, the fields are the digits of the columns. -/
theorem fields_mulWords (a b : BitVec 64) :
    fields bigEndian (mulWords bigEndian a b).1 (mulWords bigEndian a b).2 =
      carry (2 ^ 32) 0 (addends bigEndian a b) := by
  rw [addends_eq]
  unfold mulWords
  dsimp only
  generalize wide (low bigEndian a) * wide (low bigEndian b) = rl
  generalize wide (low bigEndian a) * wide (high bigEndian b) = rm
  generalize wide (high bigEndian a) * wide (low bigEndian b) = rn
  generalize wide (high bigEndian a) * wide (high bigEndian b) = rh
  -- three halves and a carry fit a word, so `c` never wraps
  have hrl := And.intro (low bigEndian rl).isLt (high bigEndian rl).isLt
  have hrm := And.intro (low bigEndian rm).isLt (high bigEndian rm).isLt
  have hrn := And.intro (low bigEndian rn).isLt (high bigEndian rn).isLt
  have hrh := And.intro (low bigEndian rh).isLt (high bigEndian rh).isLt
  simp only [fields, carry, low_setHigh, high_setHigh, low_setLow, high_setLow, toNat_lo,
    BitVec.toNat_add, toNat_wide, toNat_shiftRight,
    List.cons.injEq, and_true]
  omega

theorem ofDigits_fields (bigEndian : Bool) (a b : BitVec 64) :
    Nat.ofDigits (2 ^ 32) (fields bigEndian (mulWords bigEndian a b).1 (mulWords bigEndian a b).2) =
      Nat.ofDigits (2 ^ 32) (addends bigEndian a b) % 2 ^ 128 := by
  have hlen : (addends bigEndian a b).length = 4 := by rw [addends_eq]; rfl
  rw [fields_mulWords, ofDigits_carry (by decide), hlen, Nat.zero_add, ← Nat.pow_mul]

theorem toNat_mul_lt_two_pow_128 (a b : BitVec 64) : a.toNat * b.toNat < 2 ^ 128 :=
  calc a.toNat * b.toNat < 2 ^ 64 * 2 ^ 64 := Nat.mul_lt_mul'' a.isLt b.isLt
    _ = 2 ^ 128 := (Nat.pow_add 2 64 64).symm

/-- Without the macro, `rl` and `rh` hold the product. -/
theorem toNat_mulWords (a b : BitVec 64) :
    2 ^ 64 * (mulWords false a b).2.toNat + (mulWords false a b).1.toNat = a.toNat * b.toNat := by
  have hsum : Nat.ofDigits (2 ^ 32) (addends false a b) = a.toNat * b.toNat := by
    rw [toNat_eq_halves a, toNat_eq_halves b]
    exact ofDigits_columns _ _ _ _ _
  have hwords := ofDigits_fields false a b
  rw [hsum, Nat.mod_eq_of_lt (toNat_mul_lt_two_pow_128 a b)] at hwords
  rw [← hwords]
  simp only [fields, low, high, Bool.false_eq_true, if_false, toNat_lo, toNat_hi, Nat.ofDigits_cons,
    Nat.ofDigits_nil]
  omega

theorem mulU64U64ShrInt128_eq (a mul : BitVec 64) {shift : BitVec 32} (h : shift.toNat < 128) :
    mulU64U64ShrInt128 a mul shift =
      some (BitVec.ofNat 64 (a.toNat * mul.toNat / 2 ^ shift.toNat)) := by
  have hprod : (a.setWidth 128 * mul.setWidth 128).toNat = a.toNat * mul.toNat := by
    rw [BitVec.toNat_mul, BitVec.toNat_setWidth_of_le (by decide),
      BitVec.toNat_setWidth_of_le (by decide), Nat.mod_eq_of_lt (toNat_mul_lt_two_pow_128 a mul)]
  rw [mulU64U64ShrInt128, shr_eq h]
  refine congrArg some (BitVec.eq_of_toNat_eq ?_)
  rw [BitVec.toNat_setWidth, toNat_shiftRight, hprod, BitVec.toNat_ofNat]

theorem mulU64U64Shr_eq (a b : BitVec 64) {shift : BitVec 32} (h : shift.toNat < 128) :
    mulU64U64Shr false a b shift =
      some (BitVec.ofNat 64 (a.toNat * b.toNat / 2 ^ shift.toNat)) := by
  rw [← toNat_mulWords]
  exact shrWords_eq _ _ h

/-- Four partial products, two carries and three ranges of shifts: the product is exact
and so is the window on it, as with `__int128`. -/
theorem mul_u64_u64_shr_exact :
    (∀ (a b : BitVec 64) (shift : BitVec 32), shift.toNat < 128 →
      mulU64U64Shr false a b shift =
        some (BitVec.ofNat 64 (a.toNat * b.toNat / 2 ^ shift.toNat))) ∧
    ∀ (a b : BitVec 64) (shift : BitVec 32) (r : BitVec 64),
      mulU64U64ShrInt128 a b shift = some r → mulU64U64Shr false a b shift = some r := by
  refine ⟨fun a b shift h => mulU64U64Shr_eq a b h, fun a b shift r hr => ?_⟩
  rcases Nat.lt_or_ge shift.toNat 128 with h | h
  · rwa [mulU64U64Shr_eq a b h, ← mulU64U64ShrInt128_eq a b h]
  · rw [mulU64U64ShrInt128, shr, if_neg (by omega)] at hr
    cases hr

/-- The largest operands: every carry is taken. -/
theorem mul_u64_u64_shr_exact_test1 :
    mulU64U64Shr false 18446744073709551615 18446744073709551615 31 =
      some (BitVec.ofNat 64 ((18446744073709551615 : BitVec 64).toNat *
        (18446744073709551615 : BitVec 64).toNat / 2 ^ (31 : BitVec 32).toNat)) ∧
    mulU64U64Shr false 18446744073709551615 18446744073709551615 65 = some 9223372036854775807 :=
  ⟨mul_u64_u64_shr_exact.1 18446744073709551615 18446744073709551615 31 (by decide),
    mul_u64_u64_shr_exact.2 18446744073709551615 18446744073709551615 65 9223372036854775807
      (by decide +kernel)⟩

/-! ## `mul_u64_u32_div` -/

/-- `constant` is the compiler's answer to `__builtin_constant_p` in the two uses of
`do_div`. -/
def mulU64U32Div (o : Overflow) (bigEndian : Bool) (constant : Bool × Bool) (a : BitVec 64)
    (mul divisor : BitVec 32) : Option (BitVec 64) := do
  let u := a
  let rl ← o.mul (wide (low bigEndian u)) (wide mul)
  let rh ← o.add (← o.mul (wide (high bigEndian u)) (wide mul)) (wide (high bigEndian rl))
  let (rh, mod) ← doDiv constant.1 rh divisor
  let rl := setHigh bigEndian rl mod
  let (rl, _) ← doDiv constant.2 rl divisor
  let rl := setHigh bigEndian rl (low bigEndian rh)
  some rl

/-- Two steps of long division, under either reading of the names. Neither product and not
the sum with the carry overflows. -/
theorem mulU64U32Div_steps {o : Overflow} (bigEndian : Bool) (constant : Bool × Bool)
    (a : BitVec 64) (mul : BitVec 32) {divisor : BitVec 32} (h : divisor ≠ 0) :
    let rl := wide (low bigEndian a) * wide mul
    let rh := (high bigEndian a).toNat * mul.toNat + (high bigEndian rl).toNat
    ∃ (qh : BitVec 64) (mod : BitVec 32) (ql : BitVec 64),
      mulU64U32Div o bigEndian constant a mul divisor =
        some (setHigh bigEndian ql (low bigEndian qh)) ∧
      qh.toNat = rh / divisor.toNat ∧ mod.toNat = rh % divisor.toNat ∧
      ql.toNat = (setHigh bigEndian rl mod).toNat / divisor.toNat := by
  intro rl rh
  have hlow := toNat_mul_lt (low bigEndian a) mul
  have hhigh := toNat_mul_lt (high bigEndian a) mul
  have hcarry := (high bigEndian rl).isLt
  have hmul (x : BitVec 32) : o.mul (wide x) (wide mul) = some (wide x * wide mul) := by
    refine Overflow.mul_eq ?_
    have := toNat_mul_lt x mul
    rw [toNat_wide, toNat_wide]
    omega
  have hsum :
      (wide (high bigEndian a) * wide mul).toNat + (wide (high bigEndian rl)).toNat = rh := by
    rw [toNat_wide_mul_wide, toNat_wide]
  have hadd := Overflow.add_eq (o := o) (hsum.trans_lt (show rh < 2 ^ 64 by omega))
  have hrh : (wide (high bigEndian a) * wide mul + wide (high bigEndian rl)).toNat = rh := by
    rw [BitVec.toNat_add_of_lt (hsum.trans_lt (by omega)), hsum]
  obtain ⟨qh, mod, hfirst, hqh, hmod⟩ :=
    doDiv_spec constant.1 (wide (high bigEndian a) * wide mul + wide (high bigEndian rl)) h
  obtain ⟨ql, r, hsecond, hql, -⟩ := doDiv_spec constant.2 (setHigh bigEndian rl mod) h
  rw [hrh] at hqh hmod
  refine ⟨qh, mod, ql, ?_, hqh, hmod, hql⟩
  unfold mulU64U32Div
  simp only [hmul, Option.bind_eq_bind, Option.bind_some]
  rw [hadd, Option.bind_some, hfirst, Option.bind_some, hsecond]
  rfl

theorem mulU64U32Div_eq {o : Overflow} (constant : Bool × Bool) (a : BitVec 64)
    (mul : BitVec 32) {divisor : BitVec 32} (h : divisor ≠ 0) :
    mulU64U32Div o false constant a mul divisor =
      some (BitVec.ofNat 64 (a.toNat * mul.toNat / divisor.toNat)) := by
  have hpos := toNat_pos h
  obtain ⟨qh, mod, ql, hres, hqh, hmod, hql⟩ := mulU64U32Div_steps (o := o) false constant a mul h
  simp only [low, high, setHigh, Bool.false_eq_true, if_false, toNat_hi (wide _ * wide _),
    toNat_wide_mul_wide] at hres hqh hmod hql
  -- the product, with the upper limb that `rh` holds
  have hprod : a.toNat * mul.toNat =
      ((hi a).toNat * mul.toNat + (lo a).toNat * mul.toNat / 2 ^ 32) * 2 ^ 32 +
        (lo a).toNat * mul.toNat % 2 ^ 32 := by
    have hdm := Nat.div_add_mod' ((lo a).toNat * mul.toNat) (2 ^ 32)
    rw [Nat.add_mul, Nat.add_assoc, hdm, toNat_eq_halves a]
    ring
  have hlow : ql.toNat =
      (mod.toNat * 2 ^ 32 + (lo a).toNat * mul.toNat % 2 ^ 32) / divisor.toNat := by
    rw [hql, setHi, toNat_ofHalves, toNat_lo, toNat_wide_mul_wide]
  have hql32 : ql.toNat < 2 ^ 32 := by
    rw [hlow]
    exact div_limb_lt (hmod ▸ Nat.mod_lt _ hpos) (Nat.mod_lt _ (by decide))
  rw [hres, hprod, div_limbs _ _ _ hpos, ← hqh, ← hmod, ← hlow]
  refine congrArg some (BitVec.eq_of_toNat_eq ?_)
  rw [setHi, toNat_ofHalves, toNat_lo, toNat_lo, BitVec.toNat_ofNat]
  omega

/-- `do_div` divides on both of its branches, and two of them divide the 96-bit product.
No product or sum on the way overflows. -/
theorem mul_u64_u32_div_exact :
    (∀ (constant : Bool) (n : BitVec 64) (base : BitVec 32), base ≠ 0 →
      ∃ q r, doDiv constant n base = some (q, r) ∧
        q.toNat = n.toNat / base.toNat ∧ r.toNat = n.toNat % base.toNat) ∧
    ∀ (o : Overflow) (constant : Bool × Bool) (a : BitVec 64) (mul divisor : BitVec 32),
      divisor ≠ 0 →
      mulU64U32Div o false constant a mul divisor =
        some (BitVec.ofNat 64 (a.toNat * mul.toNat / divisor.toNat)) :=
  ⟨fun constant n _ h => doDiv_spec constant n h,
    fun _ constant a mul _ h => mulU64U32Div_eq constant a mul h⟩

/-- A constant power of two, and the largest operands. -/
theorem mul_u64_u32_div_exact_test1 :
    (∃ q r, doDiv true 1000000007 4096 = some (q, r) ∧
      q.toNat = (1000000007 : BitVec 64).toNat / (4096 : BitVec 32).toNat ∧
      r.toNat = (1000000007 : BitVec 64).toNat % (4096 : BitVec 32).toNat) ∧
    mulU64U32Div .trap false (false, false) 18446744073709551615 4294967295 3 =
      some (BitVec.ofNat 64 ((18446744073709551615 : BitVec 64).toNat *
        (4294967295 : BitVec 32).toNat / (3 : BitVec 32).toNat)) :=
  ⟨mul_u64_u32_div_exact.1 true 1000000007 4096 (by decide),
    mul_u64_u32_div_exact.2 .trap (false, false) 18446744073709551615 4294967295 3 (by decide)⟩

/-! ## `mul_u64_u32_shr` -/

def mulU64U32Shr (a : BitVec 64) (mul shift : BitVec 32) : Option (BitVec 64) := do
  let al := lo a
  let ah := lo (a >>> 32)
  let ret ← shr (wide al * wide mul) shift.toNat
  if ah ≠ 0 then do
    some (ret + (← shl (wide ah * wide mul) (32 - shift).toNat))
  else
    some ret

/-- The version with `unsigned __int128`. -/
def mulU64U32ShrInt128 (a : BitVec 64) (mul shift : BitVec 32) : Option (BitVec 64) := do
  let p ← shr (a.setWidth 128 * mul.setWidth 128) shift.toNat
  some (p.setWidth 64)

theorem mulU64U32ShrInt128_eq (a : BitVec 64) (mul shift : BitVec 32) :
    mulU64U32ShrInt128 a mul shift = mulU64U64ShrInt128 a (wide mul) shift := by
  have hmul : (wide mul).setWidth 128 = mul.setWidth 128 := by
    apply BitVec.eq_of_toNat_eq
    simp [wide]
  rw [mulU64U64ShrInt128, hmul]
  rfl

/-- The count `32 - shift` is unsigned: past 32 it wraps, far beyond any width. -/
theorem mulU64U32Shr_eq (a : BitVec 64) (mul : BitVec 32) {shift : BitVec 32}
    (h : shift.toNat < 64) :
    mulU64U32Shr a mul shift =
      if a.toNat < 2 ^ 32 ∨ shift.toNat ≤ 32 then
        some (BitVec.ofNat 64 (a.toNat * mul.toNat / 2 ^ shift.toNat))
      else
        none := by
  have hah : lo (a >>> 32) = hi a := rfl
  have hhi := toNat_hi a
  have hprod : a.toNat * mul.toNat =
      (lo a).toNat * mul.toNat + (hi a).toNat * mul.toNat * 2 ^ 32 := by
    rw [toNat_eq_halves a]
    ring
  have hret : ((wide (lo a) * wide mul) >>> shift.toNat).toNat =
      (lo a).toNat * mul.toNat / 2 ^ shift.toNat := by
    rw [toNat_shiftRight, toNat_wide_mul_wide]
  unfold mulU64U32Shr
  simp only [hah, shr_eq h, Option.bind_eq_bind, Option.bind_some]
  split
  · next h0 =>
    have hpos := toNat_pos h0
    have hge : ¬ a.toNat < 2 ^ 32 := by omega
    simp only [hge, false_or]
    split
    · next hle =>
      have hsub : (32 - shift).toNat = 32 - shift.toNat :=
        BitVec.toNat_sub_of_le (BitVec.le_def.mpr hle)
      have hpow : 2 ^ 32 = 2 ^ (32 - shift.toNat) * 2 ^ shift.toNat := by
        rw [← Nat.pow_add, Nat.sub_add_cancel hle]
      rw [hsub, shl_eq (by omega), Option.bind_some, hprod, hpow, ← Nat.mul_assoc,
        Nat.add_mul_div_right _ _ (Nat.two_pow_pos _)]
      refine congrArg some (BitVec.eq_of_toNat_eq ?_)
      rw [BitVec.toNat_add, hret, BitVec.toNat_shiftLeft, toNat_wide_mul_wide, Nat.shiftLeft_eq,
        Nat.add_mod_mod, BitVec.toNat_ofNat]
    · next hgt =>
      have hsub : 64 ≤ (32 - shift).toNat := by
        rw [BitVec.toNat_sub]
        simp
        omega
      rw [shl_eq_none (by omega)]
      rfl
  · next h0 =>
    have hhi0 : (hi a).toNat = 0 := by rw [not_not.mp h0]; rfl
    rw [if_pos (.inl (by omega)), hprod, hhi0, Nat.zero_mul, Nat.zero_mul, Nat.add_zero, ← hret,
      BitVec.ofNat_toNat, BitVec.setWidth_eq]

/-- The split product has the window on it that its siblings have unless the high word is
not zero and the shift is past 32; then its inner shift count is out of range. -/
theorem mul_u64_u32_shr_exact_iff (a : BitVec 64) (mul : BitVec 32) (shift : BitVec 32)
    (h : shift.toNat < 64) :
    (mulU64U32Shr a mul shift = some (BitVec.ofNat 64 (a.toNat * mul.toNat / 2 ^ shift.toNat)) ∧
      mulU64U32Shr a mul shift = mulU64U64Shr false a (wide mul) shift ∧
      mulU64U32Shr a mul shift = mulU64U32ShrInt128 a mul shift) ↔
      a.toNat < 2 ^ 32 ∨ shift.toNat ≤ 32 := by
  have h128 : shift.toNat < 128 := by omega
  rw [mulU64U64Shr_eq a (wide mul) h128, mulU64U32ShrInt128_eq, mulU64U64ShrInt128_eq _ _ h128,
    toNat_wide, mulU64U32Shr_eq a mul h]
  split
  · next hc => exact iff_of_true ⟨rfl, rfl, rfl⟩ hc
  · next hc => exact iff_of_false (fun he => nomatch he.1) hc

theorem mul_u64_u32_shr_exact_iff_test1 :
    (mulU64U32Shr 1000000000000 3000000000 32 =
        some (BitVec.ofNat 64 ((1000000000000 : BitVec 64).toNat * (3000000000 : BitVec 32).toNat /
          2 ^ (32 : BitVec 32).toNat)) ∧
      mulU64U32Shr 1000000000000 3000000000 32 =
        mulU64U64Shr false 1000000000000 (wide 3000000000) 32 ∧
      mulU64U32Shr 1000000000000 3000000000 32 = mulU64U32ShrInt128 1000000000000 3000000000 32) ↔
      (1000000000000 : BitVec 64).toNat < 2 ^ 32 ∨ (32 : BitVec 32).toNat ≤ 32 :=
  mul_u64_u32_shr_exact_iff 1000000000000 3000000000 32 (by decide)

/-- `2^32 * 1 >> 33` shifts by `32 - 33`. -/
theorem mul_u64_u32_shr_exact_counterexample :
    mulU64U32Shr 4294967296 1 33 = none ∧ mulU64U32ShrInt128 4294967296 1 33 = some 0 ∧
      mulU64U64Shr false 4294967296 1 33 = some 0 := by
  decide +kernel

end Uki
