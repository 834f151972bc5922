import Uki.Math.Ffs

/-!
# Rounding to powers of two: `log2.h` and `bitops.h`

All helpers come down to two lengths: that of `n - 1` is the order of `n`, rounded up, and
that of `n`, less one, is the order rounded down. `__roundup_pow_of_two` shifts by the
first, `get_count_order` computes it from the second (`power_of_two_helpers`).
-/

set_option linter.style.nameCheck false

namespace Uki

open Binary

variable {m : LongModel} {w : Nat}

def __roundupPowOfTwo (n : ULong m) : Option (ULong m) := Words.shl 1 (flsLong (n - 1)).toNat

def __rounddownPowOfTwo (n : ULong m) : Option (ULong m) := Words.shl 1 (flsLong n - 1).toNat

/-- `constant` is the compiler's answer to `__builtin_constant_p(n)`, and to that for
`n - 1`. -/
def roundupPowOfTwo (constant : Bool) (n : ULong m) : Option (ULong m) :=
  if constant then
    if n = 1 then
      some 1
    else do
      let order ← ilog2 constant (n - 1)
      Words.shl 1 (order + 1)
  else
    __roundupPowOfTwo n

def rounddownPowOfTwo (constant : Bool) (n : ULong m) : Option (ULong m) :=
  if constant then do
    let order ← ilog2 constant n
    Words.shl 1 order
  else
    __rounddownPowOfTwo n

/-- `constant'` is the answer for the rounded value. -/
def orderBase2 (constant constant' : Bool) (n : ULong m) : Option Int := do
  let p ← roundupPowOfTwo constant n
  ilog2 constant' p

def getCountOrder (count : BitVec 32) : Int :=
  let order := fls count - 1
  if count &&& (count - 1) ≠ 0 then order + 1 else order

def getCountOrderLong (l : ULong m) : Int :=
  if l = 0 then
    -1
  else if l &&& (l - 1) ≠ 0 then
    (flsLong l).toInt
  else
    (flsLong l).toInt - 1

/-! ## Rounding -/

theorem bits_le (m : LongModel) : m.bits ≤ 64 := by cases m <;> decide

theorem size_le_bits (n : ULong m) : n.toNat.size ≤ m.bits := Nat.size_le.mpr n.isLt

/-- The order, rounded up. A greater `n` would need one bit more than there is. -/
theorem size_sub_one_lt {n : ULong m} (hmax : n.toNat ≤ 2 ^ (m.bits - 1)) :
    (n.toNat - 1).size < m.bits := by
  have hlt : n.toNat - 1 < 2 ^ (m.bits - 1) :=
    lt_of_le_of_lt (Nat.sub_le_sub_right hmax 1) (Nat.sub_lt (Nat.two_pow_pos _) Nat.one_pos)
  have hsize := Nat.size_le.mpr hlt
  cases m <;> simp only [LongModel.bits] at * <;> omega

theorem roundupPowOfTwo_spec {n : ULong m} (hn : n ≠ 0) (hmax : n.toNat ≤ 2 ^ (m.bits - 1)) :
    ∃ up : ULong m, (∀ constant, roundupPowOfTwo constant n = some up) ∧
      up.toNat = 2 ^ (n.toNat - 1).size := by
  obtain ⟨up, hup, hval⟩ := Words.shl_one (size_sub_one_lt hmax)
  refine ⟨up, fun constant => ?_, hval⟩
  have hsub := Words.toNat_sub_one hn
  cases constant with
  | false =>
    show Words.shl 1 ((flsLong (n - 1)).toNat : Int) = _
    rw [toNat_flsLong, hsub, hup]
  | true =>
    unfold roundupPowOfTwo
    rw [if_pos rfl]
    split
    · next h1 =>
      subst h1
      rw [toNat_one] at hval
      exact congrArg some (BitVec.eq_of_toNat_eq (toNat_one.trans hval.symm))
    · next h1 =>
      have hn1 : n - 1 ≠ 0 := fun h0 => h1 (sub_eq_zero.mp h0)
      have hpos := Nat.size_pos.mpr (Words.toNat_pos hn1)
      rw [hsub] at hpos
      rw [ilog2_eq (bits_le m) hn1, Option.bind_eq_bind, Option.bind_some, Int.sub_add_cancel, hsub,
        hup]

theorem rounddownPowOfTwo_spec {n : ULong m} (hn : n ≠ 0) :
    ∃ down : ULong m, (∀ constant, rounddownPowOfTwo constant n = some down) ∧
      down.toNat = 2 ^ (n.toNat.size - 1) := by
  have hpos := Nat.size_pos.mpr (Words.toNat_pos hn)
  have hsize := size_le_bits n
  obtain ⟨down, hdown, hval⟩ := Words.shl_one (w := m.bits) (k := n.toNat.size - 1) (by omega)
  refine ⟨down, fun constant => ?_, hval⟩
  cases constant with
  | false =>
    show Words.shl 1 ((flsLong n - 1).toNat : Int) = _
    rw [toNat_flsLong_sub_one hn, hdown]
  | true =>
    have horder : (n.toNat.size - 1 : Int) = (n.toNat.size - 1 : Nat) := by omega
    unfold rounddownPowOfTwo
    rw [if_pos rfl, ilog2_eq (bits_le m) hn, Option.bind_eq_bind, Option.bind_some, horder, hdown]

/-! ## Orders -/

/-- The length of `n`, one less for a power of two. -/
theorem order_eq {n : BitVec w} (hn : n ≠ 0) :
    ((n.toNat - 1).size : Int) =
      if n &&& (n - 1) ≠ 0 then (n.toNat.size : Int) else (n.toNat.size : Int) - 1 := by
  have hpos := Nat.size_pos.mpr (Words.toNat_pos hn)
  rw [size_sub_one (Words.toNat_pos hn), ite_not]
  rcases em (n &&& (n - 1) = 0) with h | h
  · rw [if_pos h, if_pos ((and_sub_one_eq_zero_iff hn).mp h)]
    omega
  · rw [if_neg h, if_neg fun hp => h ((and_sub_one_eq_zero_iff hn).mpr hp)]

theorem toInt_flsLong (l : ULong m) : (flsLong l).toInt = l.toNat.size := by
  have hsize := (size_le_bits l).trans (bits_le m)
  rw [BitVec.toInt_eq_toNat_of_lt, toNat_flsLong]
  rw [toNat_flsLong]
  omega

theorem getCountOrderLong_eq {l : ULong m} (hl : l ≠ 0) :
    getCountOrderLong l = (l.toNat - 1).size := by
  rw [order_eq hl, getCountOrderLong, if_neg hl, toInt_flsLong]

theorem getCountOrder_eq {count : BitVec 32} (h : count ≠ 0) :
    getCountOrder count = (count.toNat - 1).size := by
  rw [order_eq h, getCountOrder, fls_eq, Int.sub_add_cancel]

theorem getCountOrder_setWidth (m : LongModel) (count : BitVec 32) :
    getCountOrder count = getCountOrderLong (m := m) (count.setWidth m.bits) := by
  have hword : (count.setWidth m.bits).toNat = count.toNat :=
    BitVec.toNat_setWidth_of_le (by cases m <;> decide)
  rcases eq_or_ne count 0 with rfl | h
  · cases m <;> decide
  · have hne : count.setWidth m.bits ≠ 0 := fun h0 => by
      rw [h0] at hword
      exact h (BitVec.eq_of_toNat_eq hword.symm)
    rw [getCountOrder_eq h, getCountOrderLong_eq hne, hword]

theorem ilog2_of_two_pow {p : ULong m} {k : Nat} (h : p.toNat = 2 ^ k) (constant : Bool) :
    ilog2 constant p = some (k : Int) := by
  have hp : p ≠ 0 := by
    rintro rfl
    exact (Nat.two_pow_pos k).ne h
  rw [ilog2_eq (bits_le m) hp, h, Nat.size_pow, Nat.cast_succ, Int.add_sub_cancel]

/-- The helpers round to the nearest powers of two and agree on the order, whether they
are evaluated by the compiler or not. -/
theorem power_of_two_helpers (m : LongModel) :
    (∀ n : ULong m, 1 ≤ n.toNat → n.toNat ≤ 2 ^ (m.bits - 1) →
      ∃ up down : ULong m,
        (__roundupPowOfTwo n = some up ∧ IsLeast {p | p.isPowerOfTwo ∧ n.toNat ≤ p} up.toNat) ∧
        (__rounddownPowOfTwo n = some down ∧
          IsGreatest {p | p.isPowerOfTwo ∧ p ≤ n.toNat} down.toNat) ∧
        (∀ constant, roundupPowOfTwo constant n = some up ∧
          rounddownPowOfTwo constant n = some down) ∧
        (up = n ↔ isPowerOf2 n = true) ∧ (down = n ↔ isPowerOf2 n = true) ∧
        (∀ constant, ilog2 constant up = some (getCountOrderLong n)) ∧
        ∀ constant constant', orderBase2 constant constant' n = some (getCountOrderLong n)) ∧
    ∀ count : BitVec 32,
      getCountOrder count = getCountOrderLong (m := m) (count.setWidth m.bits) := by
  refine ⟨fun n h1 hmax => ?_, getCountOrder_setWidth m⟩
  have hn : n ≠ 0 := by
    rintro rfl
    exact Nat.not_succ_le_zero 0 h1
  obtain ⟨up, hup, hupval⟩ := roundupPowOfTwo_spec hn hmax
  obtain ⟨down, hdown, hdownval⟩ := rounddownPowOfTwo_spec hn
  have hleast : IsLeast {p | p.isPowerOfTwo ∧ n.toNat ≤ p} up.toNat :=
    hupval ▸ isLeast_two_pow h1
  have hgreatest : IsGreatest {p | p.isPowerOfTwo ∧ p ≤ n.toNat} down.toNat :=
    hdownval ▸ isGreatest_two_pow h1
  have hlog (constant : Bool) : ilog2 constant up = some (getCountOrderLong n) := by
    rw [ilog2_of_two_pow hupval, getCountOrderLong_eq hn]
  refine ⟨up, down, ⟨hup false, hleast⟩, ⟨hdown false, hgreatest⟩,
    fun constant => ⟨hup constant, hdown constant⟩, ?_, ?_, hlog, fun constant constant' => ?_⟩
  · rw [isPowerOf2_iff, ← least_eq_iff hleast, BitVec.toNat_inj]
  · rw [isPowerOf2_iff, ← greatest_eq_iff hgreatest, BitVec.toNat_inj]
  · rw [orderBase2, hup constant, Option.bind_eq_bind, Option.bind_some, hlog]

/-- The top bit is the last number that can be rounded up. -/
theorem power_of_two_helpers_test1 :
    (∃ up : ULong .long64, __roundupPowOfTwo (0x8000000000000000 : ULong .long64) = some up ∧
      IsLeast {p | p.isPowerOfTwo ∧ 0x8000000000000000 ≤ p} up.toNat) ∧
    getCountOrder 0 = getCountOrderLong (0 : ULong .long64) := by
  have h := power_of_two_helpers .long64
  obtain ⟨up, down, hup, -⟩ := h.1 0x8000000000000000 (by decide) (by decide)
  exact ⟨⟨up, hup⟩, h.2 0⟩

end Uki
