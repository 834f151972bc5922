import Mathlib.Data.BitVec
import Mathlib.Data.Nat.Digits.Defs
import Mathlib.Tactic.Common
import Mathlib.Tactic.Ring

/-!
# Machine words whose operations may overflow

An operation on words of one width whose exact result does not fit either keeps the
low bits or stops (`Overflow`). Read with `wrap`, a program computes what the machine
computes; read with `trap`, it has a result only if nothing overflows on the way. Rules
such as `Overflow.add_eq` serve both readings at once. Shifts by a count that is
negative or not below the width, and divisions by zero, have no result in either.

The second half treats a 64-bit word as two halves, and multiplies and divides by them.
-/

namespace Words

variable {w : Nat} {a b : BitVec w}

/-- What an operation does when its exact result does not fit. -/
inductive Overflow where
  | wrap
  | trap
deriving DecidableEq, Repr

namespace Overflow

variable {o : Overflow}

def guard (o : Overflow) (overflows : Bool) (r : BitVec w) : Option (BitVec w) :=
  match o with
  | .wrap => some r
  | .trap => if overflows then none else some r

theorem guard_eq {overflows : Bool} {r : BitVec w} (h : o = .trap → overflows = false) :
    o.guard overflows r = some r := by
  cases o with
  | wrap => rfl
  | trap => simp [guard, h rfl]

/-! ### Unsigned operations -/

def add (o : Overflow) (a b : BitVec w) : Option (BitVec w) := o.guard (a.uaddOverflow b) (a + b)

def sub (o : Overflow) (a b : BitVec w) : Option (BitVec w) := o.guard (a.usubOverflow b) (a - b)

def mul (o : Overflow) (a b : BitVec w) : Option (BitVec w) := o.guard (a.umulOverflow b) (a * b)

theorem add_eq (h : a.toNat + b.toNat < 2 ^ w) : o.add a b = some (a + b) :=
  guard_eq fun _ => by simpa [BitVec.uaddOverflow] using h

theorem sub_eq (h : b.toNat ≤ a.toNat) : o.sub a b = some (a - b) :=
  guard_eq fun _ => by simpa [BitVec.usubOverflow] using h

theorem mul_eq (h : a.toNat * b.toNat < 2 ^ w) : o.mul a b = some (a * b) :=
  guard_eq fun _ => by simpa [BitVec.umulOverflow] using h

/-! ### Signed operations -/

def sadd (o : Overflow) (a b : BitVec w) : Option (BitVec w) := o.guard (a.saddOverflow b) (a + b)

def ssub (o : Overflow) (a b : BitVec w) : Option (BitVec w) := o.guard (a.ssubOverflow b) (a - b)

def smul (o : Overflow) (a b : BitVec w) : Option (BitVec w) := o.guard (a.smulOverflow b) (a * b)

def sneg (o : Overflow) (a : BitVec w) : Option (BitVec w) := o.guard a.negOverflow (-a)

theorem sadd_eq (h : o = .trap →
    -2 ^ (w - 1) ≤ a.toInt + b.toInt ∧ a.toInt + b.toInt < 2 ^ (w - 1)) :
    o.sadd a b = some (a + b) :=
  guard_eq fun ho => by simpa [BitVec.saddOverflow, and_comm] using h ho

theorem ssub_eq (h : o = .trap →
    -2 ^ (w - 1) ≤ a.toInt - b.toInt ∧ a.toInt - b.toInt < 2 ^ (w - 1)) :
    o.ssub a b = some (a - b) :=
  guard_eq fun ho => by simpa [BitVec.ssubOverflow, and_comm] using h ho

theorem smul_eq (h : o = .trap →
    -2 ^ (w - 1) ≤ a.toInt * b.toInt ∧ a.toInt * b.toInt < 2 ^ (w - 1)) :
    o.smul a b = some (a * b) :=
  guard_eq fun ho => by simpa [BitVec.smulOverflow, and_comm] using h ho

theorem sneg_eq (h : o = .trap → a.toInt ≠ -2 ^ (w - 1)) : o.sneg a = some (-a) :=
  guard_eq fun ho => by simpa [BitVec.negOverflow] using h ho

theorem smul_eq_none
    (h : ¬ (-2 ^ (w - 1) ≤ a.toInt * b.toInt ∧ a.toInt * b.toInt < 2 ^ (w - 1))) :
    Overflow.trap.smul a b = none := by
  have hover : a.smulOverflow b = true := by
    rw [BitVec.smulOverflow, Bool.or_eq_true, decide_eq_true_iff, decide_eq_true_iff]
    omega
  exact if_pos hover

end Overflow

/-! ## Operations without a result on some operands -/

def shl (a : BitVec w) (k : Int) : Option (BitVec w) :=
  if 0 ≤ k ∧ k < w then some (a <<< k.toNat) else none

def shr (a : BitVec w) (k : Int) : Option (BitVec w) :=
  if 0 ≤ k ∧ k < w then some (a >>> k.toNat) else none

def udiv (a b : BitVec w) : Option (BitVec w) := if b = 0 then none else some (a / b)

def umod (a b : BitVec w) : Option (BitVec w) := if b = 0 then none else some (a % b)

/-- The operand is signed, and the result as well. No negative operand has one. -/
def Overflow.sshl (o : Overflow) (a : BitVec w) (k : Int) : Option (BitVec w) :=
  (shl a k).bind (o.guard (decide (2 ^ (w - 1) ≤ a.toNat * 2 ^ k.toNat)))

theorem shl_eq {k : Nat} (h : k < w) : shl a k = some (a <<< k) := by
  unfold shl
  rw [if_pos (by omega)]
  rfl

theorem shr_eq {k : Nat} (h : k < w) : shr a k = some (a >>> k) := by
  unfold shr
  rw [if_pos (by omega)]
  rfl

theorem shl_eq_none {k : Int} (h : w ≤ k) : shl a k = none := by
  unfold shl
  rw [if_neg (by omega)]

theorem Overflow.sshl_eq {o : Overflow} {k : Nat} (h : k < w)
    (hfits : o = .trap → a.toNat * 2 ^ k < 2 ^ (w - 1)) : o.sshl a k = some (a <<< k) := by
  unfold Overflow.sshl
  rw [shl_eq h, Option.bind_some]
  exact Overflow.guard_eq fun ho => decide_eq_false (Nat.not_le.mpr (hfits ho))

theorem Overflow.sshl_eq_none {k : Nat} (h : 2 ^ (w - 1) ≤ a.toNat * 2 ^ k) :
    Overflow.trap.sshl a k = none := by
  unfold Overflow.sshl Overflow.guard
  rw [Int.toNat_natCast, decide_eq_true h]
  exact Option.bind_fun_none (shl a k)

theorem shl_one {k : Nat} (h : k < w) : ∃ r : BitVec w, shl 1 k = some r ∧ r.toNat = 2 ^ k := by
  have hone : (1 : BitVec w).toNat = 1 := BitVec.toNat_one (Nat.zero_lt_of_lt h)
  refine ⟨_, shl_eq h, ?_⟩
  rw [BitVec.toNat_shiftLeft, hone, Nat.shiftLeft_eq, Nat.one_mul]
  exact Nat.mod_eq_of_lt (Nat.pow_lt_pow_right Nat.one_lt_two h)

theorem udiv_eq (h : b ≠ 0) : udiv a b = some (a / b) := if_neg h

theorem umod_eq (h : b ≠ 0) : umod a b = some (a % b) := if_neg h

theorem toNat_shiftRight (a : BitVec w) (k : Nat) : (a >>> k).toNat = a.toNat / 2 ^ k := by
  rw [BitVec.toNat_ushiftRight, Nat.shiftRight_eq_div_pow]

theorem toNat_mul_two_pow_lt (a : BitVec w) {k n : Nat} (h : w + k ≤ n) :
    a.toNat * 2 ^ k < 2 ^ n :=
  calc a.toNat * 2 ^ k < 2 ^ w * 2 ^ k :=
        Nat.mul_lt_mul_of_pos_right a.isLt (Nat.two_pow_pos k)
    _ = 2 ^ (w + k) := (Nat.pow_add 2 w k).symm
    _ ≤ 2 ^ n := Nat.pow_le_pow_right Nat.two_pos h

theorem toNat_pos (h : b ≠ 0) : 0 < b.toNat := by
  rw [Nat.pos_iff_ne_zero]
  exact fun he => h (BitVec.eq_of_toNat_eq (by simpa using he))

theorem toNat_sub_one (h : b ≠ 0) : (b - 1).toNat = b.toNat - 1 := by
  have hpos := toNat_pos h
  have hw : 0 < w := Nat.pos_of_ne_zero fun h0 => by
    subst h0
    exact h (BitVec.eq_nil b)
  have hone : (1 : BitVec w).toNat = 1 := BitVec.toNat_one hw
  rw [BitVec.toNat_sub_of_le (BitVec.le_def.mpr (hone ▸ hpos)), hone]

/-! ## Rotations -/

/-- Every bit moves up by `s` places, from the last one to the first. -/
def Rotated (s : Nat) (a b : BitVec w) : Prop :=
  ∀ i < w, b.getLsbD ((i + s) % w) = a.getLsbD i

theorem Rotated.trans {s t : Nat} {c : BitVec w} (hab : Rotated s a b) (hbc : Rotated t b c) :
    Rotated (s + t) a c := by
  intro i hi
  have hlt : (i + s) % w < w := Nat.mod_lt _ (Nat.zero_lt_of_lt hi)
  rw [← hab i hi, ← hbc _ hlt, Nat.mod_add_mod, Nat.add_assoc]

theorem Rotated.eq_of_dvd {s : Nat} (h : Rotated s a b) (hs : w ∣ s) : b = a := by
  obtain ⟨k, rfl⟩ := hs
  apply BitVec.eq_of_getLsbD_eq
  intro i hi
  rw [← h i hi, Nat.add_mul_mod_self_left, Nat.mod_eq_of_lt hi]

theorem rotated_zero (a : BitVec w) : Rotated 0 a a := fun i hi => by
  rw [Nat.add_zero, Nat.mod_eq_of_lt hi]

/-- Two shifts of a word that was widened to `p` bits before. -/
theorem rotated_or (a : BitVec w) {p k l : Nat} (hp : w ≤ p) (hkl : k + l = w) :
    Rotated k a ((a.setWidth p <<< k ||| a.setWidth p >>> l).setWidth w) := by
  intro i hi
  have hmod : (i + k) % w < w := Nat.mod_lt _ (Nat.zero_lt_of_lt hi)
  rw [BitVec.getLsbD_setWidth, BitVec.getLsbD_or, BitVec.getLsbD_shiftLeft,
    BitVec.getLsbD_ushiftRight, BitVec.getLsbD_setWidth, BitVec.getLsbD_setWidth,
    decide_eq_true hmod, Bool.true_and]
  rcases Nat.lt_or_ge (i + k) w with hlt | hge
  · -- the bit comes from the left shift, the other one is past its end
    rw [Nat.mod_eq_of_lt hlt, Nat.add_sub_cancel, BitVec.getLsbD_of_ge a (l + (i + k)) (by omega),
      Bool.and_false, Bool.or_false]
    simp [show i + k < p by omega, show i < p by omega]
  · have hi' : (i + k) % w = i + k - w := by
      rw [Nat.mod_eq_sub_mod hge, Nat.mod_eq_of_lt (by omega)]
    rw [hi', show l + (i + k - w) = i by omega]
    simp [show i + k - w < k by omega, show i < p by omega]

/-! ## Sums and differences without a remainder -/

theorem toNat_add_cases (a b : BitVec w) :
    (a.toNat + b.toNat < 2 ^ w ∧ (a + b).toNat = a.toNat + b.toNat) ∨
      (2 ^ w ≤ a.toNat + b.toNat ∧ (a + b).toNat + 2 ^ w = a.toNat + b.toNat) := by
  have ha := a.isLt
  have hb := b.isLt
  rw [BitVec.toNat_add]
  rcases Nat.lt_or_ge (a.toNat + b.toNat) (2 ^ w) with h | h
  · exact .inl ⟨h, Nat.mod_eq_of_lt h⟩
  · rw [Nat.mod_eq_sub_mod h, Nat.mod_eq_of_lt (by omega)]
    exact .inr ⟨h, Nat.sub_add_cancel h⟩

theorem toNat_sub_cases (a b : BitVec w) :
    (b.toNat ≤ a.toNat ∧ (a - b).toNat + b.toNat = a.toNat) ∨
      (a.toNat < b.toNat ∧ (a - b).toNat + b.toNat = a.toNat + 2 ^ w) := by
  have hd := (a - b).isLt
  have ha := a.isLt
  have h := toNat_add_cases (a - b) b
  rw [BitVec.sub_add_cancel] at h
  omega

/-! ## Signed words and their absolute values -/

theorem ofInt_sub (w : Nat) (x y : Int) :
    BitVec.ofInt w (x - y) = BitVec.ofInt w x - BitVec.ofInt w y := by
  rw [Int.sub_eq_add_neg, BitVec.ofInt_add, BitVec.ofInt_neg, BitVec.sub_eq_add_neg]

theorem setWidth_eq_ofInt {v : Nat} (x : BitVec w) : x.setWidth v = BitVec.ofInt v x.toNat :=
  BitVec.eq_of_toNat_eq (by rw [BitVec.ofInt_natCast, BitVec.toNat_setWidth, BitVec.toNat_ofNat])

theorem toInt_add_of_fits
    (h : -2 ^ (w - 1) ≤ a.toInt + b.toInt ∧ a.toInt + b.toInt < 2 ^ (w - 1)) :
    (a + b).toInt = a.toInt + b.toInt :=
  BitVec.toInt_add_of_not_saddOverflow (by simpa [BitVec.saddOverflow, and_comm] using h)

theorem toInt_sub_of_fits
    (h : -2 ^ (w - 1) ≤ a.toInt - b.toInt ∧ a.toInt - b.toInt < 2 ^ (w - 1)) :
    (a - b).toInt = a.toInt - b.toInt :=
  BitVec.toInt_sub_of_not_ssubOverflow (by simpa [BitVec.ssubOverflow, and_comm] using h)

theorem toInt_mul_of_fits
    (h : -2 ^ (w - 1) ≤ a.toInt * b.toInt ∧ a.toInt * b.toInt < 2 ^ (w - 1)) :
    (a * b).toInt = a.toInt * b.toInt :=
  BitVec.toInt_mul_of_not_smulOverflow (by simpa [BitVec.smulOverflow, and_comm] using h)

theorem toNat_neg_of_neg (h : a.toInt < 0) : (-a).toNat = a.toInt.natAbs := by
  have hlt := a.isLt
  rw [BitVec.toInt_eq_toNat_cond] at h ⊢
  split at h
  · omega
  · next hc =>
    rw [if_neg hc, BitVec.toNat_neg, Nat.mod_eq_of_lt (by omega)]
    omega

theorem toNat_of_nonneg (h : 0 ≤ a.toInt) : a.toNat = a.toInt.natAbs := by
  have hlt := a.isLt
  rw [BitVec.toInt_eq_toNat_cond] at h ⊢
  split at h
  · next hc =>
    rw [if_pos hc]
    rfl
  · omega

theorem toInt_neg_of_le (h : 2 * a.toNat ≤ 2 ^ w) : (-a).toInt = -(a.toNat : Int) := by
  have hlt := a.isLt
  rw [BitVec.toInt_eq_toNat_cond, BitVec.toNat_neg]
  rcases Nat.eq_zero_or_pos a.toNat with h0 | hpos
  · rw [h0, Nat.sub_zero, Nat.mod_self, if_pos (by omega)]
    rfl
  · rw [Nat.mod_eq_of_lt (by omega)]
    split <;> omega

theorem coe_toNat_of_nonneg (h : 0 ≤ a.toInt) : (a.toNat : Int) = a.toInt := by
  rw [toNat_of_nonneg h, Int.natAbs_of_nonneg h]

/-- Truncated division by the absolute values: the quotient is negative when the signs
differ, the remainder when the dividend is. -/
theorem tdiv_eq_natAbs (m n : Int) :
    m.tdiv n = if m < 0 ↔ n < 0 then ((m.natAbs / n.natAbs : Nat) : Int)
      else -((m.natAbs / n.natAbs : Nat) : Int) := by
  cases m with
  | ofNat m =>
    cases n with
    | ofNat n =>
      have hpos (k : Nat) : ¬ (Int.ofNat k < 0) := not_lt.mpr (Int.natCast_nonneg k)
      exact (if_pos (iff_of_false (hpos m) (hpos n))).symm
    | negSucc n => exact (if_neg (by simp)).symm
  | negSucc m =>
    cases n with
    | ofNat n => exact (if_neg (by simp)).symm
    | negSucc n => exact (if_pos (by simp)).symm

theorem tmod_eq_natAbs (m n : Int) :
    m.tmod n = if m < 0 then -((m.natAbs % n.natAbs : Nat) : Int)
      else ((m.natAbs % n.natAbs : Nat) : Int) := by
  cases m with
  | ofNat m =>
    cases n with
    | ofNat n => exact (if_neg (by simp)).symm
    | negSucc n => exact (if_neg (by simp)).symm
  | negSucc m =>
    cases n with
    | ofNat n => exact (if_pos (by simp)).symm
    | negSucc n => exact (if_pos (by simp)).symm

/-- The quotient of the absolute values, negated when the signs differ. Only a quotient
of equal signs can be too large for a signed word. -/
theorem toInt_signed_quotient {c : Prop} [Decidable c] {m n : Int}
    (ha : a.toNat = m.natAbs / n.natAbs) (hc : c ↔ ¬ (m < 0 ↔ n < 0)) (hle : 2 * a.toNat ≤ 2 ^ w)
    (hlt : (m < 0 ↔ n < 0) → 2 * a.toNat < 2 ^ w) : (if c then -a else a).toInt = m.tdiv n := by
  rw [tdiv_eq_natAbs, ← ha]
  split
  · next h => rw [if_neg (hc.mp h), toInt_neg_of_le hle]
  · next h =>
    have hs : m < 0 ↔ n < 0 := not_not.mp fun hn => h (hc.mpr hn)
    rw [if_pos hs, BitVec.toInt_eq_toNat_of_lt (hlt hs)]

/-! ## Halves of a 64-bit word -/

def lo (x : BitVec 64) : BitVec 32 := x.setWidth 32

def hi (x : BitVec 64) : BitVec 32 := (x >>> 32).setWidth 32

def ofHalves (h l : BitVec 32) : BitVec 64 := h ++ l

def setLo (x : BitVec 64) (l : BitVec 32) : BitVec 64 := ofHalves (hi x) l

def setHi (x : BitVec 64) (h : BitVec 32) : BitVec 64 := ofHalves h (lo x)

/-- A half as a word of its own. -/
def wide (x : BitVec 32) : BitVec 64 := x.setWidth 64

section Halves

variable (x : BitVec 64) (h l : BitVec 32)

@[simp] theorem toNat_lo : (lo x).toNat = x.toNat % 2 ^ 32 := BitVec.toNat_setWidth _ _

@[simp] theorem toNat_hi : (hi x).toNat = x.toNat / 2 ^ 32 := by
  have hx := x.isLt
  rw [hi, BitVec.toNat_setWidth, toNat_shiftRight]
  omega

@[simp] theorem toNat_ofHalves : (ofHalves h l).toNat = h.toNat * 2 ^ 32 + l.toNat := by
  have hl := l.isLt
  rw [ofHalves, BitVec.toNat_append, ← Nat.shiftLeft_add_eq_or_of_lt hl, Nat.shiftLeft_eq]

@[simp] theorem toNat_wide : (wide l).toNat = l.toNat := BitVec.toNat_setWidth_of_le (by decide)

@[simp] theorem lo_ofHalves : lo (ofHalves h l) = l := by
  have hl := l.isLt
  apply BitVec.eq_of_toNat_eq
  rw [toNat_lo, toNat_ofHalves]
  omega

@[simp] theorem hi_ofHalves : hi (ofHalves h l) = h := by
  have hl := l.isLt
  apply BitVec.eq_of_toNat_eq
  rw [toNat_hi, toNat_ofHalves]
  omega

@[simp] theorem ofHalves_hi_lo : ofHalves (hi x) (lo x) = x := by
  apply BitVec.eq_of_toNat_eq
  rw [toNat_ofHalves, toNat_hi, toNat_lo]
  omega

/-- The product of two halves fits a word. -/
theorem toNat_mul_lt (h l : BitVec 32) : h.toNat * l.toNat ≤ (2 ^ 32 - 1) * (2 ^ 32 - 1) :=
  Nat.mul_le_mul (by have := h.isLt; omega) (by have := l.isLt; omega)

@[simp] theorem toNat_wide_mul_wide : (wide h * wide l).toNat = h.toNat * l.toNat := by
  have := toNat_mul_lt h l
  rw [BitVec.toNat_mul, toNat_wide, toNat_wide]
  exact Nat.mod_eq_of_lt (by omega)

@[simp] theorem lo_setHi : lo (setHi x h) = lo x := lo_ofHalves h (lo x)

@[simp] theorem hi_setHi : hi (setHi x h) = h := hi_ofHalves h (lo x)

@[simp] theorem lo_setLo : lo (setLo x l) = l := lo_ofHalves (hi x) l

@[simp] theorem hi_setLo : hi (setLo x l) = hi x := hi_ofHalves (hi x) l

theorem toNat_eq_halves : x.toNat = (hi x).toNat * 2 ^ 32 + (lo x).toNat := by
  rw [← toNat_ofHalves, ofHalves_hi_lo]

end Halves

/-- A window on a double word, bit by bit. -/
theorem eq_window {h l x : BitVec w} {s : Nat}
    (hx : ∀ i < w, x.getLsbD i =
      if s + i < w then l.getLsbD (s + i) else h.getLsbD (s + i - w)) :
    x = BitVec.ofNat w ((2 ^ w * h.toNat + l.toNat) / 2 ^ s) := by
  apply BitVec.eq_of_getLsbD_eq
  intro i hi
  rw [hx i hi, BitVec.getLsbD_ofNat, Nat.testBit_div_two_pow, Nat.add_comm i,
    Nat.testBit_two_pow_mul_add _ l.isLt, BitVec.testBit_toNat, BitVec.testBit_toNat]
  simp [hi]

/-! ## Multiplication by limbs -/

/-- The columns of the product of two numbers with two limbs each, from the lowest one:
a partial product adds its lower limb to one column and its upper limb to the next. -/
def columns (B ah al bh bl : Nat) : List Nat :=
  [al * bl % B,
   al * bl / B + al * bh % B + ah * bl % B,
   al * bh / B + ah * bl / B + ah * bh % B,
   ah * bh / B]

theorem ofDigits_columns (B ah al bh bl : Nat) :
    Nat.ofDigits B (columns B ah al bh bl) = (ah * B + al) * (bh * B + bl) := by
  have hll := Nat.div_add_mod (al * bl) B
  have hlh := Nat.div_add_mod (al * bh) B
  have hhl := Nat.div_add_mod (ah * bl) B
  have hhh := Nat.div_add_mod (ah * bh) B
  calc Nat.ofDigits B (columns B ah al bh bl)
      = (B * (al * bl / B) + al * bl % B) + B * (B * (al * bh / B) + al * bh % B) +
          B * (B * (ah * bl / B) + ah * bl % B) + B * B * (B * (ah * bh / B) + ah * bh % B) := by
        simp only [columns, Nat.ofDigits_cons, Nat.ofDigits_nil]
        ring
    _ = (ah * B + al) * (bh * B + bl) := by
        rw [hll, hlh, hhl, hhh]
        ring

/-- The digits of a sum of columns; the carry out of the last one is lost. -/
def carry (B : Nat) : Nat → List Nat → List Nat
  | _, [] => []
  | c, d :: ds => (c + d) % B :: carry B ((c + d) / B) ds

theorem ofDigits_carry {B : Nat} (hB : 0 < B) (c : Nat) (ds : List Nat) :
    Nat.ofDigits B (carry B c ds) = (c + Nat.ofDigits B ds) % B ^ ds.length := by
  induction ds generalizing c with
  | nil => simp [carry, Nat.mod_one]
  | cons d ds ih =>
    rw [carry, Nat.ofDigits_cons, Nat.ofDigits_cons, ih, List.length_cons, Nat.pow_succ',
      Nat.mod_mul, ← Nat.add_assoc, Nat.add_mul_mod_self_left, Nat.add_mul_div_left _ _ hB]

/-! ## Division by limbs -/

/-- Long division of a number with the limbs `h` and `l`: the upper limb first, then
what it leaves together with the lower one. -/
theorem div_limbs (h l B : Nat) {b : Nat} (hb : 0 < b) :
    (h * B + l) / b = h / b * B + (h % b * B + l) / b := by
  have hh : h * B + l = b * (h / b * B) + (h % b * B + l) := by
    conv_lhs => rw [← Nat.div_add_mod h b, Nat.add_mul, Nat.mul_assoc]
    exact Nat.add_assoc _ _ _
  rw [hh, Nat.mul_add_div hb]

/-- A digit of the quotient fits a limb. -/
theorem div_limb_lt {r l b B : Nat} (hr : r < b) (hl : l < B) : (r * B + l) / b < B := by
  rw [Nat.div_lt_iff_lt_mul (by omega)]
  calc r * B + l < (r + 1) * B := by rw [Nat.succ_mul]; omega
    _ ≤ b * B := Nat.mul_le_mul_right _ hr
    _ = B * b := Nat.mul_comm _ _

theorem mod_limbs (h l B b : Nat) : (h * B + l) % b = (h % b * B + l) % b := by
  rw [Nat.add_mod, Nat.mul_mod, ← Nat.mod_mul_mod, Nat.add_mod (h % b * B)]
  simp

/-- Dividing by a smaller divisor `k` overshoots by at most one exactly when `k` is near
enough to `d`. -/
theorem div_le_succ_iff {a d k : Nat} (hk : 0 < k) (hkd : k ≤ d) :
    a / k ≤ a / d + 1 ↔ a * (d - k) + a % d * k < 2 * d * k := by
  obtain ⟨e, rfl⟩ := Nat.exists_eq_add_of_le hkd
  have hQ : a / (k + e) * (k + e) * k + a % (k + e) * k = a * k := by
    rw [← Nat.add_mul, Nat.mul_comm (a / (k + e)), Nat.div_add_mod]
  calc a / k ≤ a / (k + e) + 1 ↔ a < (a / (k + e) + 2) * k := by
        rw [← Nat.lt_succ_iff, Nat.div_lt_iff_lt_mul hk]
    _ ↔ a * (k + e) < (a / (k + e) + 2) * k * (k + e) :=
        (Nat.mul_lt_mul_right (Nat.add_pos_left hk e)).symm
    _ ↔ a * k + a * e < a / (k + e) * (k + e) * k + 2 * (k + e) * k := by
        rw [Nat.mul_add, show (a / (k + e) + 2) * k * (k + e) =
          a / (k + e) * (k + e) * k + 2 * (k + e) * k by ring]
    _ ↔ a * (k + e - k) + a % (k + e) * k < 2 * (k + e) * k := by
        rw [← hQ, Nat.add_sub_cancel_left]
        omega

end Words
