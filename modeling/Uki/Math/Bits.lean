import Uki.Lib.Binary
import Uki.Lib.Word

/-!
# The highest set bit: `fls.h`, `fls64.h` and `log2.h`

`fls` halves the range of candidates in five steps, the constant branch of `ilog2`
tries all 64 bits from the top. Both give the length of the binary representation,
`Nat.size`.
-/

set_option linter.style.nameCheck false

namespace Uki

variable {w : Nat}

/-- One step of `fls`: `if (!(x & mask)) { x <<= k; r -= k; }`. -/
def flsStep (mask : BitVec 32) (k : Nat) (s : BitVec 32 × Int) : BitVec 32 × Int :=
  if s.1 &&& mask = 0 then (s.1 <<< k, s.2 - k) else s

def fls (x : BitVec 32) : Int :=
  if x = 0 then
    0
  else
    let s := (x, 32)
    let s := flsStep 0xffff0000 16 s
    let s := flsStep 0xff000000 8 s
    let s := flsStep 0xf0000000 4 s
    let s := flsStep 0xc0000000 2 s
    let s := flsStep 0x80000000 1 s
    s.2

/-- The version for `BITS_PER_LONG` 32. -/
def fls64 (x : BitVec 64) : Int :=
  let h := Words.hi x
  if h ≠ 0 then fls h + 32 else fls (Words.lo x)

def isPowerOf2 (n : BitVec w) : Bool := n != 0 && (n &&& (n - 1)) == 0

def __ilog2U32 (n : BitVec 32) : Int := fls n - 1

def __ilog2U64 (n : BitVec 64) : Int := fls64 n - 1

/-- The tests `(n) & (1ULL << i) ? i :` from bit `i - 1` down. `____ilog2_NaN` is not
defined anywhere. -/
def ilog2Ladder (n : BitVec 64) : Nat → Option Int
  | 0 => none
  | i + 1 => if n &&& (1#64 <<< i) ≠ 0 then some i else ilog2Ladder n i

/-- `ilog2(n)`; `constant` is the compiler's answer to `__builtin_constant_p(n)`. -/
def ilog2 (constant : Bool) (n : BitVec w) : Option Int :=
  if constant then
    if n.toNat < 1 then none else ilog2Ladder (n.setWidth 64) 64
  else if w ≤ 32 then
    some (__ilog2U32 (n.setWidth 32))
  else
    some (__ilog2U64 (n.setWidth 64))

/-! ## `fls` -/

/-- A mask of the upper bits finds nothing in a word below them. -/
theorem and_mask_eq_zero (x : BitVec w) (i : Nat) :
    x &&& (BitVec.allOnes w <<< i) = 0 ↔ x.toNat < 2 ^ i := by
  have hval : (x >>> i <<< i).toNat = x.toNat / 2 ^ i * 2 ^ i := by
    rw [BitVec.toNat_shiftLeft, Words.toNat_shiftRight, Nat.shiftLeft_eq]
    exact Nat.mod_eq_of_lt ((Nat.div_mul_le_self _ _).trans_lt x.isLt)
  rw [← BitVec.shiftLeft_ushiftRight, ← BitVec.toNat_inj, hval]
  change _ = 0 ↔ _
  constructor
  · intro h0
    rcases Nat.mul_eq_zero.mp h0 with h | h
    · exact (Nat.div_eq_zero_iff.mp h).resolve_left (Nat.two_pow_pos i).ne'
    · exact absurd h (Nat.two_pow_pos i).ne'
  · intro hlt
    rw [Nat.div_eq_of_lt hlt, Nat.zero_mul]

/-- What the steps of `fls` keep: the word is `x` shifted left, the count says how far,
and the word's highest bit is bit `i` or above. -/
structure FlsInv (x : BitVec 32) (i : Nat) (s : BitVec 32 × Int) : Prop where
  shifted : ∃ j : Nat, s.1.toNat = x.toNat * 2 ^ j ∧ s.2 = 32 - j
  low : 2 ^ i ≤ s.1.toNat

theorem flsInv_step (mask : BitVec 32) (k : Nat) {x : BitVec 32} {i : Nat} {s : BitVec 32 × Int}
    (hmask : mask = BitVec.allOnes 32 <<< (i + k)) (hik : i + 2 * k = 32) (h : FlsInv x i s) :
    FlsInv x (i + k) (flsStep mask k s) := by
  obtain ⟨j, hj, hr⟩ := h.shifted
  unfold flsStep
  split
  · next hz =>
    rw [hmask, and_mask_eq_zero] at hz
    -- the upper `k` bits are clear, so nothing is shifted out
    have hlt : s.1.toNat * 2 ^ k < 2 ^ 32 :=
      calc s.1.toNat * 2 ^ k < 2 ^ (i + k) * 2 ^ k :=
            Nat.mul_lt_mul_of_pos_right hz (Nat.two_pow_pos k)
        _ = 2 ^ 32 := by rw [← Nat.pow_add, ← hik]; congr 1; omega
    have hval : (s.1 <<< k).toNat = s.1.toNat * 2 ^ k := by
      rw [BitVec.toNat_shiftLeft, Nat.shiftLeft_eq, Nat.mod_eq_of_lt hlt]
    refine ⟨⟨j + k, ?_, ?_⟩, ?_⟩
    · show (s.1 <<< k).toNat = _
      rw [hval, hj, Nat.mul_assoc, ← Nat.pow_add]
    · show s.2 - k = _
      omega
    · show _ ≤ (s.1 <<< k).toNat
      rw [hval, Nat.pow_add]
      exact Nat.mul_le_mul_right _ h.low
  · next hz =>
    rw [hmask, and_mask_eq_zero, not_lt] at hz
    exact ⟨⟨j, hj, hr⟩, hz⟩

theorem FlsInv.size {x : BitVec 32} {s : BitVec 32 × Int} (h : FlsInv x 31 s) :
    s.2 = x.toNat.size := by
  obtain ⟨⟨j, hj, hr⟩, hlow⟩ := h
  have hlt := s.1.isLt
  rw [hj] at hlow hlt
  have hx : 0 < x.toNat := Nat.pos_of_ne_zero fun h0 => by simp [h0] at hlow
  have hj31 : j ≤ 31 := by
    by_contra hgt
    have : 2 ^ 32 ≤ 2 ^ j := Nat.pow_le_pow_right (by decide) (by omega)
    exact absurd (this.trans (Nat.le_mul_of_pos_left _ hx)) (not_le.mpr hlt)
  have hle : x.toNat.size ≤ 32 - j := by
    rw [Nat.size_le]
    refine Nat.lt_of_mul_lt_mul_right (a := 2 ^ j) ?_
    rwa [← Nat.pow_add, Nat.sub_add_cancel (by omega)]
  have hge : 31 - j < x.toNat.size := by
    rw [Nat.lt_size]
    refine Nat.le_of_mul_le_mul_right (c := 2 ^ j) ?_ (Nat.two_pow_pos j)
    rwa [← Nat.pow_add, Nat.sub_add_cancel hj31]
  rw [hr]
  omega

theorem fls_eq (x : BitVec 32) : fls x = x.toNat.size := by
  unfold fls
  split
  · next h0 =>
    rw [h0]
    rfl
  · next h0 =>
    have hx : FlsInv x 0 (x, 32) := ⟨⟨0, by simp, rfl⟩, Words.toNat_pos h0⟩
    have h16 := flsInv_step 0xffff0000 16 rfl rfl hx
    have h24 := flsInv_step 0xff000000 8 rfl rfl h16
    have h28 := flsInv_step 0xf0000000 4 rfl rfl h24
    have h30 := flsInv_step 0xc0000000 2 rfl rfl h28
    exact (flsInv_step 0x80000000 1 rfl rfl h30).size

theorem fls64_eq (x : BitVec 64) : fls64 x = x.toNat.size := by
  unfold fls64
  dsimp only
  rw [fls_eq, fls_eq, Words.toNat_hi, Words.toNat_lo]
  split
  · next h0 =>
    have hhi := Words.toNat_pos h0
    rw [Words.toNat_hi] at hhi
    rw [Binary.size_div_two_pow hhi.ne']
    rfl
  · next h0 =>
    have hhi : (Words.hi x).toNat = 0 := by rw [not_not.mp h0]; rfl
    rw [Words.toNat_hi] at hhi
    rw [Nat.mod_eq_of_lt (by omega)]

/-! ## `ilog2` -/

theorem and_shl_ne_zero {n : BitVec 64} {i : Nat} (hi : i < 64) :
    n &&& (1#64 <<< i) ≠ 0 ↔ n.toNat.testBit i = true := by
  have hpow : BitVec.twoPow 64 i ≠ 0 := fun h0 => by
    have := congrArg (BitVec.getLsbD · i) h0
    simp [hi] at this
  rw [← BitVec.twoPow_eq, BitVec.and_twoPow, BitVec.testBit_toNat]
  cases n.getLsbD i with
  | false => simp
  | true => simpa using hpow

/-- The ladder stops at the highest set bit. -/
theorem ilog2Ladder_eq {n : BitVec 64} (hn : n ≠ 0) {i : Nat} (hi : i ≤ 64)
    (hlt : n.toNat < 2 ^ i) : ilog2Ladder n i = some (n.toNat.size - 1 : Int) := by
  induction i with
  | zero => exact absurd (BitVec.eq_of_toNat_eq (Nat.lt_one_iff.mp hlt)) hn
  | succ i ih =>
    unfold ilog2Ladder
    split
    · next hbit =>
      have hle : 2 ^ i ≤ n.toNat := by
        by_contra hgt
        rw [and_shl_ne_zero (by omega), Nat.testBit_lt_two_pow (not_le.mp hgt)] at hbit
        cases hbit
      have hsize : n.toNat.size = i + 1 :=
        Nat.le_antisymm (Nat.size_le.mpr hlt) (Nat.lt_size.mpr hle)
      rw [hsize]
      simp
    · next hbit =>
      refine ih (by omega) ?_
      by_contra hge
      refine hbit ((and_shl_ne_zero (by omega)).mpr ?_)
      exact Nat.testBit_of_two_pow_le_and_two_pow_add_one_gt (not_lt.mp hge) hlt

/-- Constant or not, `ilog2` is the index of the highest set bit. -/
theorem ilog2_eq {n : BitVec w} (hw : w ≤ 64) (hn : n ≠ 0) (constant : Bool) :
    ilog2 constant n = some (n.toNat.size - 1 : Int) := by
  have hpos := Words.toNat_pos hn
  have h64 : (n.setWidth 64).toNat = n.toNat := BitVec.toNat_setWidth_of_le hw
  unfold ilog2
  split
  · rw [if_neg (by omega), ← h64]
    refine ilog2Ladder_eq (fun h0 => ?_) le_rfl (n.setWidth 64).isLt
    rw [h0] at h64
    exact hpos.ne h64
  · split
    · next hw32 =>
      rw [__ilog2U32, fls_eq, BitVec.toNat_setWidth_of_le hw32]
    · rw [__ilog2U64, fls64_eq, h64]

/-! ## Powers of two -/

theorem and_sub_one_eq_zero_iff {n : BitVec w} (hn : n ≠ 0) :
    n &&& (n - 1) = 0 ↔ n.toNat.isPowerOfTwo := by
  rw [← BitVec.toNat_inj, BitVec.toNat_and, Words.toNat_sub_one hn]
  exact Nat.and_sub_one_eq_zero_iff_isPowerOfTwo (Words.toNat_pos hn).ne'

theorem isPowerOf2_iff {n : BitVec w} : isPowerOf2 n = true ↔ n.toNat.isPowerOfTwo := by
  unfold isPowerOf2
  rw [Bool.and_eq_true, bne_iff_ne, beq_iff_eq]
  constructor
  · rintro ⟨hn, h0⟩
    exact (and_sub_one_eq_zero_iff hn).mp h0
  · intro h
    have hn : n ≠ 0 := by
      rintro rfl
      exact Nat.not_isPowerOfTwo_zero h
    exact ⟨hn, (and_sub_one_eq_zero_iff hn).mpr h⟩

end Uki
