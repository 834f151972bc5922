import Uki.Long
import Uki.Math.Bits

/-!
# The lowest set bit: `ffs.h` and `bitops.h`

`__ffs` halves the range of candidates as `fls` does, from the other end. It chooses the
width by `BITS_PER_LONG`, which is 32, and so sees the lower half of a 64-bit `unsigned
long` only; `fls_long` chooses by `sizeof` and sees all of it
(`bit_searches_agree_iff`).
-/

set_option linter.style.nameCheck false

namespace Uki

open Binary

variable {m : LongModel}

/-- One step of `__ffs`: `if ((word & mask) == 0) { num += k; word >>= k; }`. -/
def ffsStep (mask : ULong m) (k : Nat) (s : ULong m × Int) : ULong m × Int :=
  if s.1 &&& mask = 0 then (s.1 >>> k, s.2 + k) else s

/-- The version for `BITS_PER_LONG` 32. The last step does not shift. -/
def __ffs (word : ULong m) : ULong m :=
  let s := (word, 0)
  let s := ffsStep 0xffff 16 s
  let s := ffsStep 0xff 8 s
  let s := ffsStep 0xf 4 s
  let s := ffsStep 0x3 2 s
  let num := if s.1 &&& 0x1 = 0 then s.2 + 1 else s.2
  BitVec.ofInt m.bits num

/-- The version for `BITS_PER_LONG` 32. -/
def __ffs64 (m : LongModel) (word : BitVec 64) : ULong m :=
  if Words.lo word = 0 then __ffs ((Words.hi word).setWidth m.bits) + 32
  else __ffs (word.setWidth m.bits)

/-- The result is an `unsigned`. -/
def flsLong (l : ULong m) : BitVec 32 :=
  BitVec.ofInt 32 (if m.bits = 32 then fls (l.setWidth 32) else fls64 (l.setWidth 64))

/-! ## The steps of `__ffs` -/

/-- The word is `x` without lower zeros, the count says how many, and the word has a set bit
below bit `k`. -/
structure FfsInv (x : ULong m) (k : Nat) (s : ULong m × Int) : Prop where
  shifted : ∃ j : Nat, x.toNat = s.1.toNat * 2 ^ j ∧ s.2 = j
  low : ¬ 2 ^ k ∣ s.1.toNat

theorem and_mask_low_eq_zero {mask : ULong m} {k : Nat} (hmask : mask.toNat = 2 ^ k - 1)
    (x : ULong m) : x &&& mask = 0 ↔ 2 ^ k ∣ x.toNat := by
  rw [← BitVec.toNat_inj, BitVec.toNat_and, hmask, Nat.and_two_pow_sub_one_eq_mod]
  exact Nat.dvd_iff_mod_eq_zero.symm

theorem FfsInv.step {x : ULong m} {s : ULong m × Int} (mask : ULong m) (k : Nat)
    (h : FfsInv x (2 * k) s)
    (hmask : mask.toNat = 2 ^ k - 1) : FfsInv x k (ffsStep mask k s) := by
  obtain ⟨⟨j, hj, hnum⟩, hlow⟩ := h
  unfold ffsStep
  split
  · next hz =>
    obtain ⟨q, hq⟩ := (and_mask_low_eq_zero hmask s.1).mp hz
    have hshift : (s.1 >>> k).toNat = q := by
      rw [Words.toNat_shiftRight, hq, Nat.mul_div_cancel_left _ (Nat.two_pow_pos k)]
    refine ⟨⟨k + j, ?_, ?_⟩, fun hdvd => hlow ?_⟩
    · show _ = (s.1 >>> k).toNat * _
      rw [hshift, hj, hq, Nat.pow_add, Nat.mul_comm (2 ^ k) q, Nat.mul_assoc]
    · show s.2 + k = _
      omega
    · have hdvd : 2 ^ k ∣ q := hshift ▸ hdvd
      rw [hq, Nat.two_mul, Nat.pow_add]
      exact Nat.mul_dvd_mul_left _ hdvd
  · next hz => exact ⟨⟨j, hj, hnum⟩, fun hdvd => hz ((and_mask_low_eq_zero hmask s.1).mpr hdvd)⟩

theorem ffsStep_num (mask : ULong m) (k : Nat) (s : ULong m × Int) :
    (ffsStep mask k s).2 = if s.1 &&& mask = 0 then s.2 + k else s.2 := by
  unfold ffsStep
  split <;> rfl

/-- The count grows by the step at most. -/
theorem ffsStep_num_le (mask : ULong m) (k : Nat) (s : ULong m × Int) :
    s.2 ≤ (ffsStep mask k s).2 ∧ (ffsStep mask k s).2 ≤ s.2 + k := by
  rw [ffsStep_num]
  split
  · exact ⟨Int.le_add_of_nonneg_right (Int.natCast_nonneg k), le_rfl⟩
  · exact ⟨le_rfl, Int.le_add_of_nonneg_right (Int.natCast_nonneg k)⟩

/-- The state after the last step, had it shifted the word, too. -/
def ffsSteps (word : ULong m) : ULong m × Int :=
  ffsStep 0x1 1 (ffsStep 0x3 2 (ffsStep 0xf 4 (ffsStep 0xff 8 (ffsStep 0xffff 16 (word, 0)))))

theorem ffsSteps_num_le (word : ULong m) : 0 ≤ (ffsSteps word).2 ∧ (ffsSteps word).2 ≤ 31 := by
  have h16 := ffsStep_num_le 0xffff 16 (word, 0)
  have h8 := ffsStep_num_le 0xff 8 (ffsStep 0xffff 16 (word, 0))
  have h4 := ffsStep_num_le 0xf 4 (ffsStep 0xff 8 (ffsStep 0xffff 16 (word, 0)))
  have h2 := ffsStep_num_le 0x3 2 (ffsStep 0xf 4 (ffsStep 0xff 8 (ffsStep 0xffff 16 (word, 0))))
  have h1 := ffsStep_num_le 0x1 1
    (ffsStep 0x3 2 (ffsStep 0xf 4 (ffsStep 0xff 8 (ffsStep 0xffff 16 (word, 0)))))
  unfold ffsSteps
  omega

theorem toNat_ffs (word : ULong m) : ((__ffs word).toNat : Int) = (ffsSteps word).2 := by
  have hnum : __ffs word = BitVec.ofInt m.bits (ffsSteps word).2 := by
    rw [ffsSteps, ffsStep_num 0x1]
    rfl
  obtain ⟨h0, h31⟩ := ffsSteps_num_le word
  rw [hnum, BitVec.toNat_ofInt]
  cases m <;> simp only [LongModel.bits] at * <;> omega

theorem ffs_le (word : ULong m) : (__ffs word).toNat ≤ 31 := by
  have hnum := toNat_ffs word
  have hle := (ffsSteps_num_le word).2
  omega

/-- The sum of `__ffs64` does not overflow. -/
theorem toNat_ffs_add (word : ULong m) : (__ffs word + 32).toNat = (__ffs word).toNat + 32 := by
  have hle := ffs_le word
  have h32 : (32 : ULong m).toNat = 32 := by cases m <;> rfl
  have hmax : 64 ≤ 2 ^ m.bits := by cases m <;> decide
  rw [BitVec.toNat_add, h32]
  exact Nat.mod_eq_of_lt (by omega)

theorem isLeast_ffs {x : ULong m} (h : ¬ 2 ^ 32 ∣ x.toNat) :
    IsLeast (setBits x.toNat) (__ffs x).toNat := by
  have hx : FfsInv x 32 (x, 0) := ⟨⟨0, by simp, rfl⟩, h⟩
  have h16 := hx.step 0xffff 16 (by cases m <;> rfl)
  have h8 := h16.step 0xff 8 (by cases m <;> rfl)
  have h4 := h8.step 0xf 4 (by cases m <;> rfl)
  have h2 := h4.step 0x3 2 (by cases m <;> rfl)
  obtain ⟨⟨j, hj, hnum⟩, hodd⟩ := h2.step 0x1 1 (by cases m <;> rfl)
  have hffs : (__ffs x).toNat = j := Int.ofNat_inj.mp ((toNat_ffs x).trans hnum)
  rw [hffs]
  exact isLeast_setBits hj (Nat.two_dvd_ne_zero.mp hodd)

/-! ## Both ends -/

/-- A 64-bit word is searched in two halves, and the upper one as a word of its own. -/
theorem isLeast_ffs64 (m : LongModel) {y : BitVec 64} (hy : y ≠ 0) :
    IsLeast (setBits y.toNat) (__ffs64 m y).toNat := by
  have hbits : 32 ≤ m.bits := by cases m <;> decide
  unfold __ffs64
  split
  · next hlo =>
    have hlo0 : (Words.lo y).toNat = 0 := congrArg BitVec.toNat hlo
    have hval : y.toNat = (Words.hi y).toNat * 2 ^ 32 := by
      rw [Words.toNat_eq_halves y, hlo0, Nat.add_zero]
    have hhi : 0 < (Words.hi y).toNat := by
      refine Nat.pos_of_ne_zero fun h0 => hy (BitVec.eq_of_toNat_eq ?_)
      rw [hval, h0]
      rfl
    have hword : ((Words.hi y).setWidth m.bits).toNat = (Words.hi y).toNat :=
      BitVec.toNat_setWidth_of_le hbits
    have hleast := isLeast_ffs (x := (Words.hi y).setWidth m.bits) <| by
      rw [hword]
      exact Nat.not_dvd_of_pos_of_lt hhi (Words.hi y).isLt
    rw [toNat_ffs_add, hval]
    rw [hword] at hleast
    exact lowest_mul_two_pow 32 hleast
  · next hlo =>
    have hlow : ¬ 2 ^ 32 ∣ y.toNat := by
      have hpos := Words.toNat_pos hlo
      rw [Words.toNat_lo] at hpos
      exact fun hdvd => hpos.ne' (Nat.mod_eq_zero_of_dvd hdvd)
    have hleast := isLeast_ffs (x := y.setWidth m.bits) <| by
      rw [BitVec.toNat_setWidth]
      exact fun hdvd => hlow ((Nat.dvd_mod_iff (Nat.pow_dvd_pow 2 hbits)).mp hdvd)
    rw [BitVec.toNat_setWidth] at hleast
    exact lowest_of_mod hleast

theorem toNat_flsLong (l : ULong m) : (flsLong l).toNat = l.toNat.size := by
  have hsize : l.toNat.size ≤ 64 := by
    have hlt := l.isLt
    exact Nat.size_le.mpr (hlt.trans_le (by cases m <;> decide))
  have hfls : (if m.bits = 32 then fls (l.setWidth 32) else fls64 (l.setWidth 64)) =
      l.toNat.size := by
    cases m with
    | long32 =>
      rw [if_pos (show LongModel.long32.bits = 32 from rfl), fls_eq,
        BitVec.toNat_setWidth_of_le (by decide)]
    | long64 =>
      rw [if_neg (show LongModel.long64.bits ≠ 32 by decide), fls64_eq,
        BitVec.toNat_setWidth_of_le (by decide)]
  rw [flsLong, hfls, BitVec.ofInt_natCast, BitVec.toNat_ofNat]
  exact Nat.mod_eq_of_lt (by omega)

theorem toNat_flsLong_sub_one {l : ULong m} (hl : l ≠ 0) :
    (flsLong l - 1).toNat = l.toNat.size - 1 := by
  have hpos : 0 < l.toNat.size := Nat.size_pos.mpr (Words.toNat_pos hl)
  have hsize := toNat_flsLong l
  have hne : flsLong l ≠ 0 := fun h0 => by
    rw [h0] at hsize
    exact hpos.ne hsize
  rw [Words.toNat_sub_one hne, hsize]

theorem isGreatest_flsLong {x : ULong m} (hx : x ≠ 0) :
    IsGreatest (setBits x.toNat) (flsLong x - 1).toNat := by
  rw [toNat_flsLong_sub_one hx]
  exact isGreatest_setBits (Words.toNat_pos hx)

theorem isGreatest_fls64 {y : BitVec 64} (hy : y ≠ 0) :
    IsGreatest (setBits y.toNat) (fls64 y - 1).toNat := by
  have hpos : 0 < y.toNat.size := Nat.size_pos.mpr (Words.toNat_pos hy)
  have hsub : (fls64 y - 1).toNat = y.toNat.size - 1 := by
    rw [fls64_eq]
    omega
  rw [hsub]
  exact isGreatest_setBits (Words.toNat_pos hy)

/-- What the searches are to find in `x`. -/
structure EndsFound (x : ULong m) : Prop where
  lowest : IsLeast (setBits x.toNat) (__ffs x).toNat
  highest : IsGreatest (setBits x.toNat) (flsLong x - 1).toNat
  le : (__ffs x).toNat ≤ (flsLong x - 1).toNat
  eq_iff : (__ffs x).toNat = (flsLong x - 1).toNat ↔ isPowerOf2 x = true

theorem endsFound {x : ULong m} (h : ¬ 2 ^ 32 ∣ x.toNat) : EndsFound x := by
  have hx : x ≠ 0 := by
    rintro rfl
    exact h (Nat.dvd_zero _)
  have hlow := isLeast_ffs h
  have hhigh := isGreatest_flsLong hx
  refine ⟨hlow, hhigh, hlow.2 hhigh.1, ?_⟩
  rw [lowest_eq_highest_iff hlow hhigh, isPowerOf2_iff]

/-- No bit is set where the search for the lowest one looks. -/
theorem not_isLeast_ffs {x : ULong m} (h : 2 ^ 32 ∣ x.toNat) :
    ¬ IsLeast (setBits x.toNat) (__ffs x).toNat := by
  intro hlow
  obtain ⟨q, hq⟩ := h
  have hle := ffs_le x
  have hbit := hlow.1
  rw [mem_setBits, hq, Nat.testBit_two_pow_mul, Bool.and_eq_true, decide_eq_true_iff] at hbit
  omega

/-- The searches agree exactly when the lower half of the word is not empty, or all there
is. Those on 64-bit words always do. -/
theorem bit_searches_agree_iff (x : ULong m) (hx : x ≠ 0) :
    (EndsFound x ↔ m = .long32 ∨ x.toNat % 2 ^ 32 ≠ 0) ∧
    ∀ y : BitVec 64, y ≠ 0 →
      IsLeast (setBits y.toNat) (__ffs64 m y).toNat ∧
        IsGreatest (setBits y.toNat) (fls64 y - 1).toNat := by
  refine ⟨⟨fun h => ?_, fun h => endsFound fun hdvd => ?_⟩, fun y hy =>
    ⟨isLeast_ffs64 m hy, isGreatest_fls64 hy⟩⟩
  · exact .inr fun h0 => not_isLeast_ffs (Nat.dvd_of_mod_eq_zero h0) h.lowest
  · rcases h with rfl | h
    · exact Nat.not_dvd_of_pos_of_lt (Words.toNat_pos hx) x.isLt hdvd
    · exact h (Nat.mod_eq_zero_of_dvd hdvd)

/-- The first bit of the upper half, with one of the lower half. -/
theorem bit_searches_agree_iff_test1 :
    EndsFound (0x180000000 : ULong .long64) ∧
      IsLeast (setBits 0x100000000) (__ffs64 .long64 0x100000000).toNat := by
  have h := bit_searches_agree_iff (0x180000000 : ULong .long64) (by decide)
  exact ⟨h.1.mpr (.inr (by decide)), (h.2 0x100000000 (by decide)).1⟩

/-- Bit 32 is reported as bit 31. -/
theorem bit_searches_agree_counterexample :
    ¬ ∀ x : ULong .long64, x ≠ 0 → IsLeast (setBits x.toNat) (__ffs x).toNat := by
  intro hall
  have hbit := (hall 0x100000000 (by decide)).1
  rw [mem_setBits] at hbit
  exact absurd hbit (by decide)

end Uki
