import Uki.Kernel
import Uki.Long

/-!
# Fields of bits: `bitops.h`

The macros that make masks and find bits in arrays, and sign extension. The masks shift
by `BITS_PER_LONG`, which is 32 with `asm-generic/bitsperlong.h` and on Windows, and the
size of an array counts with `sizeof(long)`; on a `long` of 64 bits they do not fit together.

Results:
1. `genmask_exact_iff`: for which ends `GENMASK` has the bits between them.
2. `bit_addresses_exact`: `BIT_WORD` and `BIT_MASK` keep bits apart, and when they stay
   in an array of `BITS_TO_LONGS` words.
3. `sign_extend_exact`: what `sign_extend32` and `sign_extend64` return for every index.
-/

set_option linter.style.nameCheck false

namespace Uki

open Words

variable {m : LongModel} {w : Nat} {o : Overflow}

def BITS_PER_LONG : Nat := 32

def BITS_PER_BYTE : Nat := 8

def bitMask (nr : ULong m) : Option (ULong m) := shl 1 (nr % (BITS_PER_LONG : ULong m)).toNat

def bitWord (nr : ULong m) : ULong m := nr / (BITS_PER_LONG : ULong m)

/-- `sizeof(long)` is that of the model. -/
def bitsToLongs (o : Overflow) (nr : ULong m) : Option (ULong m) :=
  divRoundUp o nr ((BITS_PER_BYTE * (m.bits / 8) : Nat) : ULong m)

def genmask (m : LongModel) (h l : Int) : Option (ULong m) := do
  let upper ← shl (~~~(0 : ULong m)) l
  let lower ← shr (~~~(0 : ULong m)) (BITS_PER_LONG - 1 - h)
  some (upper &&& lower)

/-- `>>` on a signed operand. -/
def sar (a : BitVec w) (k : Int) : Option (BitVec w) :=
  if 0 ≤ k ∧ k < w then some (a.sshiftRight k.toNat) else none

/-- `sign_extend32` and `sign_extend64`. `shift` is a `__u8`. -/
def signExtendFrom (o : Overflow) (value : BitVec w) (index : BitVec 32) : Option (BitVec w) := do
  let shift := (← o.ssub (BitVec.ofNat 32 (w - 1)) index).setWidth 8
  let value ← shl value shift.toNat
  sar value shift.toNat

def signExtend32 (o : Overflow) (value : BitVec 32) (index : BitVec 32) : Option (BitVec 32) :=
  signExtendFrom o value index

def signExtend64 (o : Overflow) (value : BitVec 64) (index : BitVec 32) : Option (BitVec 64) :=
  signExtendFrom o value index

/-! ## Masks -/

/-- The upper end is moved by the bits that `BITS_PER_LONG` does not count. -/
theorem genmask_bits (m : LongModel) {h l : Nat} (hh : h < BITS_PER_LONG) (hl : l < m.bits) :
    ∃ r, genmask m h l = some r ∧
      ∀ i, r.getLsbD i = decide (l ≤ i ∧ i ≤ h + (m.bits - BITS_PER_LONG)) := by
  have hbits : BITS_PER_LONG ≤ m.bits := by cases m <;> decide
  have hk : ((BITS_PER_LONG : Int) - 1 - h) = ((BITS_PER_LONG - 1 - h : Nat) : Int) := by omega
  refine ⟨_, by rw [genmask, hk, shl_eq hl, shr_eq (by omega)]; rfl, fun i => ?_⟩
  rw [Bool.eq_iff_iff]
  simp only [BitVec.getLsbD_and, BitVec.getLsbD_shiftLeft, BitVec.getLsbD_ushiftRight,
    BitVec.getLsbD_not, BitVec.ofNat_eq_ofNat, BitVec.getLsbD_zero, Bool.not_false,
    Bool.and_true, Bool.and_eq_true,
    Bool.not_eq_true', decide_eq_true_iff, decide_eq_false_iff_not]
  omega

/-- `GENMASK(h, l)` has the bits from `l` to `h` if and only if `long` has 32 bits, or there
are no such bits and none up to `h + 32` either. -/
theorem genmask_exact_iff (m : LongModel) {h l : Nat} (hh : h < BITS_PER_LONG) (hl : l < m.bits) :
    (∃ r, genmask m h l = some r ∧ ∀ i, r.getLsbD i = decide (l ≤ i ∧ i ≤ h)) ↔
      m = .long32 ∨ h + 32 < l := by
  obtain ⟨r, hr, hbits⟩ := genmask_bits m hh hl
  simp only [hr, Option.some_inj, exists_eq_left', hbits, decide_eq_decide]
  cases m with
  | long32 => exact iff_of_true (fun i => Iff.rfl) (.inl rfl)
  | long64 =>
    rw [or_iff_right (fun he => nomatch he)]
    have hextra : LongModel.long64.bits - BITS_PER_LONG = 32 := rfl
    rw [hextra]
    constructor
    · intro hall
      have htop := hall (max l (h + 1))
      omega
    · intro hlt i
      omega

/-- The example of the comment, one half of it: 24 bits become 56. -/
example :
    (∃ r, genmask .long32 (31 : Nat) (8 : Nat) = some r ∧
      ∀ i, r.getLsbD i = decide (8 ≤ i ∧ i ≤ 31)) ∧
    ¬ ∃ r, genmask .long64 (31 : Nat) (8 : Nat) = some r ∧
      ∀ i, r.getLsbD i = decide (8 ≤ i ∧ i ≤ 31) :=
  ⟨(genmask_exact_iff .long32 (by decide) (by decide)).mpr (.inl rfl),
    fun h => absurd ((genmask_exact_iff .long64 (by decide) (by decide)).mp h) (by decide)⟩

/-! ## Arrays of words -/

theorem toNat_bitWord (nr : ULong m) : (bitWord nr).toNat = nr.toNat / 32 := by
  have hstep : (BITS_PER_LONG : ULong m).toNat = 32 := by cases m <;> rfl
  rw [bitWord, BitVec.toNat_udiv, hstep]

theorem bitMask_eq (nr : ULong m) : bitMask nr = some ((1 : ULong m) <<< (nr.toNat % 32)) := by
  have hstep : (BITS_PER_LONG : ULong m).toNat = 32 := by cases m <;> rfl
  have hlt : nr.toNat % 32 < m.bits := by
    have := Nat.mod_lt nr.toNat (show 0 < 32 by decide)
    cases m <;> simp only [LongModel.bits] <;> omega
  rw [bitMask, BitVec.toNat_umod, hstep]
  exact shl_eq hlt

theorem bitsToLongs_spec {nr : ULong m} (h : nr.toNat + m.bits < 2 ^ m.bits) :
    ∃ r, bitsToLongs o nr = some r ∧ r.toNat = (nr.toNat + (m.bits - 1)) / m.bits := by
  have hword : ((BITS_PER_BYTE * (m.bits / 8) : Nat) : ULong m).toNat = m.bits := by
    cases m <;> rfl
  have hne : ((BITS_PER_BYTE * (m.bits / 8) : Nat) : ULong m) ≠ 0 := fun h0 => by
    rw [h0] at hword
    cases m <;> exact absurd hword (by decide)
  have hdiv := divRoundUp_spec (o := o) (n := nr) hne (by rwa [hword])
  rwa [hword] at hdiv

theorem bit_address_injective {nr nr' : ULong m} (hword : bitWord nr = bitWord nr')
    (hmask : bitMask nr = bitMask nr') : nr = nr' := by
  have hpow (k : Nat) (hk : k < 32) : ((1 : ULong m) <<< k).toNat = 2 ^ k := by
    have hlt : 2 ^ k < 2 ^ m.bits := by
      refine Nat.pow_lt_pow_right (by decide) (hk.trans_le ?_)
      cases m <;> decide
    rw [BitVec.toNat_shiftLeft, toNat_one, Nat.one_shiftLeft, Nat.mod_eq_of_lt hlt]
  have hdiv : nr.toNat / 32 = nr'.toNat / 32 := by
    rw [← toNat_bitWord, ← toNat_bitWord, hword]
  have hmod : nr.toNat % 32 = nr'.toNat % 32 := by
    rw [bitMask_eq, bitMask_eq, Option.some_inj] at hmask
    have hnat := congrArg BitVec.toNat hmask
    rw [hpow _ (Nat.mod_lt _ (by decide)), hpow _ (Nat.mod_lt _ (by decide))] at hnat
    exact Nat.pow_right_injective (Nat.le_refl 2) hnat
  apply BitVec.eq_of_toNat_eq
  rw [← Nat.div_add_mod nr.toNat 32, hdiv, hmod, Nat.div_add_mod]

/-- Different bits have different places. The places of `n` bits are in an array of
`BITS_TO_LONGS(n)` words if and only if `long` has 32 bits or one of its halves is enough. -/
theorem bit_addresses_exact (m : LongModel) :
    (∀ nr nr' : ULong m, bitWord nr = bitWord nr' → bitMask nr = bitMask nr' → nr = nr') ∧
    ∀ (o : Overflow) (n : ULong m), n.toNat + m.bits < 2 ^ m.bits →
      ∃ size, bitsToLongs o n = some size ∧
        ((∀ nr : ULong m, nr.toNat < n.toNat → (bitWord nr).toNat < size.toNat) ↔
          m = .long32 ∨ n.toNat ≤ 32) := by
  refine ⟨fun nr nr' => bit_address_injective, fun o n h => ?_⟩
  obtain ⟨size, hrun, hsize⟩ := bitsToLongs_spec (o := o) h
  refine ⟨size, hrun, ?_⟩
  simp only [toNat_bitWord, hsize]
  cases m with
  | long32 =>
    refine iff_of_true (fun nr hnr => ?_) (.inl rfl)
    show nr.toNat / 32 < (n.toNat + (32 - 1)) / 32
    omega
  | long64 =>
    rw [or_iff_right (fun he => nomatch he)]
    constructor
    · intro hall
      by_contra hn
      -- the last bit
      obtain ⟨last, hlast⟩ : ∃ last : ULong .long64, last.toNat = n.toNat - 1 := by
        refine ⟨BitVec.ofNat _ (n.toNat - 1), ?_⟩
        rw [BitVec.toNat_ofNat]
        exact Nat.mod_eq_of_lt (Nat.lt_of_le_of_lt (Nat.sub_le _ _) n.isLt)
      have hlt : last.toNat / 32 < (n.toNat + (64 - 1)) / 64 := hall last (by omega)
      omega
    · intro hn nr hnr
      show nr.toNat / 32 < (n.toNat + (64 - 1)) / 64
      omega

/-- An array for 33 bits: one `long` of 64 bits, of which the last bit is taken for the
second. -/
example :
    ∃ size, bitsToLongs .trap (33 : ULong .long64) = some size ∧
      ¬ ∀ nr : ULong .long64, nr.toNat < 33 → (bitWord nr).toNat < size.toNat := by
  obtain ⟨size, hrun, hiff⟩ := (bit_addresses_exact .long64).2 .trap 33 (by decide)
  exact ⟨size, hrun, fun h => absurd (hiff.mp h) (by decide)⟩

/-! ## Sign extension -/

/-- Shifting up and down copies the bit that was shifted to the top. -/
theorem shiftLeft_sshiftRight (value : BitVec w) {r : Nat} (h : r < w) :
    (value <<< (w - 1 - r)).sshiftRight (w - 1 - r) = (value.setWidth (r + 1)).signExtend w := by
  apply BitVec.eq_of_getLsbD_eq
  intro i hi
  have hself : w - 1 - (w - 1 - r) = r := by omega
  have htop : (value <<< (w - 1 - r)).msb = value.getLsbD r := by
    rw [BitVec.msb_eq_getLsbD_last, BitVec.getLsbD_shiftLeft, hself]
    simp [show w - 1 < w by omega, show ¬ w - 1 < w - 1 - r by omega]
  rw [BitVec.getLsbD_sshiftRight, BitVec.getLsbD_signExtend, htop, BitVec.msb_setWidth'']
  rcases Nat.lt_or_ge i (r + 1) with hlow | hhigh
  · have hback : w - 1 - r + i - (w - 1 - r) = i := by omega
    rw [if_pos (by omega), if_pos hlow, BitVec.getLsbD_shiftLeft, hback, BitVec.getLsbD_setWidth]
    simp [hi, hlow, show w - 1 - r + i < w by omega, show ¬ w - 1 - r + i < w - 1 - r by omega]
  · rw [if_neg (by omega), if_neg (by omega)]
    simp [hi]

/-- The count of both shifts is that of the index modulo 256. -/
theorem shift_of_index (hw : 0 < w) (hw' : w ≤ 64) {index : BitVec 32}
    (ho : o = .trap → 0 ≤ index.toInt) :
    ∃ shift : BitVec 32, o.ssub (BitVec.ofNat 32 (w - 1)) index = some shift ∧
      (shift.setWidth 8).toNat = (w + 255 - index.toNat % 256) % 256 := by
  have hword : (BitVec.ofNat 32 (w - 1)).toNat = w - 1 := by
    rw [BitVec.toNat_ofNat]
    exact Nat.mod_eq_of_lt (by omega)
  have hint : (BitVec.ofNat 32 (w - 1)).toInt = (w - 1 : Nat) := by
    rw [BitVec.toInt_eq_toNat_of_lt (by omega), hword]
  have hidx := index.toInt_lt
  refine ⟨_, Overflow.ssub_eq fun htrap => ?_, ?_⟩
  · have hpos := ho htrap
    omega
  · have hlt := index.isLt
    rw [BitVec.toNat_setWidth, BitVec.toNat_sub, hword]
    omega

theorem signExtendFrom_eq (hw : 0 < w) (hw' : w ≤ 64) (value : BitVec w) {index : BitVec 32}
    (ho : o = .trap → 0 ≤ index.toInt) :
    signExtendFrom o value index =
      if index.toNat % 256 < w then
        some ((value.setWidth (index.toNat % 256 + 1)).signExtend w)
      else
        none := by
  obtain ⟨shift, hrun, hshift⟩ := shift_of_index hw hw' ho
  have hrange := Nat.mod_lt index.toNat (show 0 < 256 by decide)
  simp only [signExtendFrom, hrun, hshift, Option.bind_eq_bind, Option.bind_some]
  split
  · next hlt =>
    have hk : (w + 255 - index.toNat % 256) % 256 = w - 1 - index.toNat % 256 := by omega
    have hsar (a : BitVec w) {k : Nat} (hk : k < w) : sar a k = some (a.sshiftRight k) := by
      rw [sar, if_pos (by omega)]
      rfl
    rw [hk, shl_eq (by omega), Option.bind_some, hsar _ (by omega), shiftLeft_sshiftRight value hlt]
  · next hge =>
    have hk : (w + 255 - index.toNat % 256) % 256 = w + 255 - index.toNat % 256 := by omega
    rw [hk, shl_eq_none (by omega)]
    rfl

/-- Both take the bits up to the index and spread the last one. The index counts modulo
256, and a negative shift is one by a count of at least the width. -/
theorem sign_extend_exact (o : Overflow) {index : BitVec 32} (ho : o = .trap → 0 ≤ index.toInt) :
    (∀ value, signExtend32 o value index =
      if index.toNat % 256 < 32 then
        some ((value.setWidth (index.toNat % 256 + 1)).signExtend 32)
      else
        none) ∧
    ∀ value, signExtend64 o value index =
      if index.toNat % 256 < 64 then
        some ((value.setWidth (index.toNat % 256 + 1)).signExtend 64)
      else
        none :=
  ⟨fun value => signExtendFrom_eq (by decide) (by decide) value ho,
    fun value => signExtendFrom_eq (by decide) (by decide) value ho⟩

/-- An 8-bit value in a word, and an index that is a word too far. -/
example :
    signExtend32 .trap 0x80 7 = some (-128) ∧ signExtend64 .trap 1 64 = none := by
  rw [(sign_extend_exact .trap fun _ => (by decide : 0 ≤ (7 : BitVec 32).toInt)).1,
    (sign_extend_exact .trap fun _ => (by decide : 0 ≤ (64 : BitVec 32).toInt)).2]
  decide

end Uki
