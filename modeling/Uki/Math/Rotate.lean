import Uki.Lib.Word

/-!
# Rotations: `bitops.h`

A rotation is two shifts whose counts add up to the width. At `shift = 0` one of the counts
is the width itself. `rol32` masks it; the 8 and 16 bit helpers shift an `int`, which is wide
enough; `rol64`, `ror64` and `ror32` shift by it (`rotations_inverse_iff`).
-/

namespace Uki

open Words

/-- `(word << left) | (word >> right)`, in either order. The operands are promoted to `p`
bits, the result is converted back. -/
def rotate {w p : Nat} (lshift : BitVec p → Int → Option (BitVec p)) (word : BitVec w)
    (left right : BitVec 32) : Option (BitVec w) := do
  let l ← lshift (word.setWidth p) left.toNat
  let r ← shr (word.setWidth p) right.toNat
  return (l ||| r).setWidth w

def rol64 (word : BitVec 64) (shift : BitVec 32) : Option (BitVec 64) :=
  rotate (p := 64) shl word shift (64 - shift)

def ror64 (word : BitVec 64) (shift : BitVec 32) : Option (BitVec 64) :=
  rotate (p := 64) shl word (64 - shift) shift

def rol32 (word : BitVec 32) (shift : BitVec 32) : Option (BitVec 32) :=
  rotate (p := 32) shl word shift (-shift &&& 31)

def ror32 (word : BitVec 32) (shift : BitVec 32) : Option (BitVec 32) :=
  rotate (p := 32) shl word (32 - shift) shift

/-- Words of 8 and 16 bits are promoted to `int`, and `o` is what a left shift of an `int`
does when it reaches the sign. -/
def rol16 (o : Overflow) (word : BitVec 16) (shift : BitVec 32) : Option (BitVec 16) :=
  rotate (p := 32) o.sshl word shift (16 - shift)

def ror16 (o : Overflow) (word : BitVec 16) (shift : BitVec 32) : Option (BitVec 16) :=
  rotate (p := 32) o.sshl word (16 - shift) shift

def rol8 (o : Overflow) (word : BitVec 8) (shift : BitVec 32) : Option (BitVec 8) :=
  rotate (p := 32) o.sshl word shift (8 - shift)

def ror8 (o : Overflow) (word : BitVec 8) (shift : BitVec 32) : Option (BitVec 8) :=
  rotate (p := 32) o.sshl word (8 - shift) shift

/-! ## The two shifts -/

section Shifts

variable {w p : Nat} {lshift : BitVec p → Int → Option (BitVec p)} {word : BitVec w}
  {left right : BitVec 32}

/-- A left shift that has a result by `left`. -/
theorem rotate_eq (hp : w ≤ p) (hsum : left.toNat + right.toNat = w) (hright : right.toNat < p)
    (hl : lshift (word.setWidth p) left.toNat = some (word.setWidth p <<< left.toNat)) :
    ∃ r, rotate lshift word left right = some r ∧ Rotated left.toNat word r := by
  refine ⟨_, ?_, rotated_or word hp hsum⟩
  unfold rotate
  rw [hl, shr_eq hright]
  rfl

theorem rotate_eq_none_of_left (h : lshift (word.setWidth p) left.toNat = none) :
    rotate lshift word left right = none := by
  unfold rotate
  rw [h]
  rfl

end Shifts

/-- The complementary count. -/
theorem toNat_width_sub {width shift : BitVec 32} (h : shift.toNat < width.toNat) :
    shift.toNat + (width - shift).toNat = width.toNat := by
  rw [BitVec.toNat_sub_of_le (BitVec.le_def.mpr h.le), Nat.add_sub_cancel' h.le]

/-- The masked count is the complementary one, except for 0 at 0. -/
theorem toNat_neg_and {shift : BitVec 32} (h : 0 < shift.toNat) (hlt : shift.toNat < 32) :
    (-shift &&& 31).toNat = 32 - shift.toNat := by
  have hmask : (31 : BitVec 32).toNat = 2 ^ 5 - 1 := rfl
  rw [BitVec.toNat_and, hmask, Nat.and_two_pow_sub_one_eq_mod, BitVec.toNat_neg]
  omega

theorem rol32_eq (word : BitVec 32) {shift : BitVec 32} (hlt : shift.toNat < 32) :
    ∃ r, rol32 word shift = some r ∧ Rotated shift.toNat word r := by
  rcases Nat.eq_zero_or_pos shift.toNat with h0 | hpos
  · have hshift : shift = 0 := BitVec.eq_of_toNat_eq h0
    subst hshift
    refine ⟨word, ?_, rotated_zero word⟩
    show some ((word.setWidth 32 <<< 0 ||| word.setWidth 32 >>> 0).setWidth 32) = some word
    rw [BitVec.shiftLeft_zero, BitVec.ushiftRight_zero, BitVec.or_self, BitVec.setWidth_eq,
      BitVec.setWidth_eq]
  · have hmask := toNat_neg_and hpos hlt
    exact rotate_eq le_rfl (by omega) (by omega) (shl_eq hlt)

/-! ## Both directions -/

/-- Rotating left and right by `shift` are defined and undo each other, and `rol` moves every
bit up. -/
structure Rotates {w : Nat} (rol ror : BitVec w → BitVec 32 → Option (BitVec w))
    (word : BitVec w) (shift : BitVec 32) : Prop where
  ror_rol : (rol word shift).bind (ror · shift) = some word
  rol_ror : (ror word shift).bind (rol · shift) = some word
  moves : ∃ r, rol word shift = some r ∧ Rotated shift.toNat word r

namespace Rotates

variable {w : Nat} {rol ror : BitVec w → BitVec 32 → Option (BitVec w)} {word : BitVec w}
  {shift : BitVec 32}

theorem of_rotated {s t : Nat} (hs : shift.toNat = s) (hst : s + t = w)
    (hrol : ∀ word, ∃ r, rol word shift = some r ∧ Rotated s word r)
    (hror : ∀ word, ∃ r, ror word shift = some r ∧ Rotated t word r) :
    Rotates rol ror word shift := by
  obtain ⟨l, hl, hwl⟩ := hrol word
  obtain ⟨r, hr, hwr⟩ := hror word
  obtain ⟨l', hl', hwl'⟩ := hror l
  obtain ⟨r', hr', hwr'⟩ := hrol r
  have hleft : l' = word := (hwl.trans hwl').eq_of_dvd (dvd_of_eq hst.symm)
  have hright : r' = word := (hwr.trans hwr').eq_of_dvd (by rw [Nat.add_comm, hst])
  refine ⟨?_, ?_, l, hl, hs ▸ hwl⟩
  · rw [hl, Option.bind_some, hl', hleft]
  · rw [hr, Option.bind_some, hr', hright]

/-- Rotating by 0. -/
theorem of_eq (hs : shift.toNat = 0) (hrol : rol word shift = some word)
    (hror : ror word shift = some word) : Rotates rol ror word shift where
  ror_rol := by rw [hrol, Option.bind_some, hror]
  rol_ror := by rw [hror, Option.bind_some, hrol]
  moves := ⟨word, hrol, hs ▸ rotated_zero word⟩

theorem ror_ne_none (h : Rotates rol ror word shift) : ror word shift ≠ none := fun hn => by
  have hback := h.rol_ror
  rw [hn] at hback
  nomatch hback

/-- The left shift of `ror` is by the whole width if `shift` is 0, and by less otherwise. -/
theorem iff_pos {width : BitVec 32} (hw : width.toNat = w) (hlt : shift.toNat < w)
    (hrol : 0 < shift.toNat → ∀ word, ∃ r, rol word shift = some r ∧ Rotated shift.toNat word r)
    (hror : ∀ word, ror word shift = rotate (p := w) shl word (width - shift) shift) :
    Rotates rol ror word shift ↔ 0 < shift.toNat := by
  have hsum : shift.toNat + (width - shift).toNat = w := by
    rw [toNat_width_sub (hw ▸ hlt), hw]
  constructor
  · intro h
    by_contra h0
    refine h.ror_ne_none ?_
    rw [hror]
    exact rotate_eq_none_of_left (shl_eq_none (by omega))
  · intro hpos
    refine .of_rotated rfl hsum (hrol hpos) fun word => ?_
    rw [hror]
    exact rotate_eq le_rfl (by omega) hlt (shl_eq (by omega))

end Rotates

/-! ## The widths -/

variable {shift : BitVec 32}

theorem rotates64_iff (word : BitVec 64) (hlt : shift.toNat < 64) :
    Rotates rol64 ror64 word shift ↔ 0 < shift.toNat := by
  have hwidth : (64 : BitVec 32).toNat = 64 := rfl
  have hsum := toNat_width_sub (hwidth ▸ hlt)
  refine Rotates.iff_pos hwidth hlt (fun hpos word => ?_) fun _ => rfl
  exact rotate_eq le_rfl hsum (by omega) (shl_eq hlt)

theorem rotates32_iff (word : BitVec 32) (hlt : shift.toNat < 32) :
    Rotates rol32 ror32 word shift ↔ 0 < shift.toNat :=
  have hwidth : (32 : BitVec 32).toNat = 32 := rfl
  Rotates.iff_pos hwidth hlt (fun _ word => rol32_eq word hlt) fun _ => rfl

/-- A short word shifted by at most its width is an `int` again, unless the shift is by the
whole width of 16 bits and reaches the sign. -/
theorem sshl_eq_of_short {w : Nat} (o : Overflow) (word : BitVec w) {k : Nat} (hk : k < 32)
    (hfits : o = .trap → word.toNat * 2 ^ k < 2 ^ 31) (hw : w ≤ 32) :
    o.sshl (word.setWidth 32) k = some (word.setWidth 32 <<< k) :=
  Overflow.sshl_eq hk fun ho => by
    rw [BitVec.toNat_setWidth_of_le hw]
    exact hfits ho

theorem rotates8 (o : Overflow) (word : BitVec 8) (hlt : shift.toNat < 8) :
    Rotates (rol8 o) (ror8 o) word shift := by
  have hsum : shift.toNat + (8 - shift).toNat = 8 := toNat_width_sub hlt
  have hshl (word : BitVec 8) {k : Nat} (hk : k ≤ 8) :=
    sshl_eq_of_short o word (k := k) (by omega) (fun _ => toNat_mul_two_pow_lt word (by omega))
      (by decide)
  refine .of_rotated rfl hsum (fun word => ?_) fun word => ?_
  · exact rotate_eq (by decide) hsum (by omega) (hshl word hlt.le)
  · exact rotate_eq (by decide) (by omega) (by omega) (hshl word (by omega))

theorem rol16_eq (o : Overflow) (word : BitVec 16) (hlt : shift.toNat < 16) :
    ∃ r, rol16 o word shift = some r ∧ Rotated shift.toNat word r := by
  have hsum : shift.toNat + (16 - shift).toNat = 16 := toNat_width_sub hlt
  have hfits : word.toNat * 2 ^ shift.toNat < 2 ^ 31 := toNat_mul_two_pow_lt word (by omega)
  exact rotate_eq (by decide) hsum (by omega)
    (sshl_eq_of_short o word (by omega) (fun _ => hfits) (by decide))

theorem ror16_eq (o : Overflow) (word : BitVec 16) (hlt : shift.toNat < 16)
    (h : o = .wrap ∨ 0 < shift.toNat ∨ word.toNat < 2 ^ 15) :
    ∃ r, ror16 o word shift = some r ∧ Rotated (16 - shift).toNat word r := by
  have hsum : shift.toNat + (16 - shift).toNat = 16 := toNat_width_sub hlt
  refine rotate_eq (by decide) (by omega) (by omega)
    (sshl_eq_of_short o word (by omega) (fun ho => ?_) (by decide))
  rcases h with rfl | hpos | hword
  · cases ho
  · exact toNat_mul_two_pow_lt word (by omega)
  · calc word.toNat * 2 ^ (16 - shift).toNat ≤ word.toNat * 2 ^ 16 :=
          Nat.mul_le_mul_left _ (Nat.pow_le_pow_right Nat.two_pos (by omega))
      _ < 2 ^ 31 := by omega

theorem rotates16_iff (o : Overflow) (word : BitVec 16) (hlt : shift.toNat < 16) :
    Rotates (rol16 o) (ror16 o) word shift ↔
      o = .wrap ∨ 0 < shift.toNat ∨ word.toNat < 2 ^ 15 := by
  have hsum : shift.toNat + (16 - shift).toNat = 16 := toNat_width_sub hlt
  constructor
  · intro h
    by_contra hc
    rw [not_or, not_or] at hc
    cases o with
    | wrap => exact hc.1 rfl
    | trap =>
      have hcount : (16 - shift).toNat = 16 := by omega
      refine h.ror_ne_none (rotate_eq_none_of_left (Overflow.sshl_eq_none ?_))
      rw [BitVec.toNat_setWidth_of_le (by decide), hcount]
      omega
  · intro h
    rcases Nat.eq_zero_or_pos shift.toNat with h0 | hpos
    · obtain ⟨l, hl, hwl⟩ := rol16_eq o word hlt
      obtain ⟨r, hr, hwr⟩ := ror16_eq o word hlt h
      have hl' : l = word := hwl.eq_of_dvd (h0 ▸ dvd_zero 16)
      have hr' : r = word := hwr.eq_of_dvd (dvd_of_eq (by omega))
      exact .of_eq h0 (hl' ▸ hl) (hr' ▸ hr)
    · exact .of_rotated rfl hsum (fun word => rol16_eq o word hlt) fun word =>
        ror16_eq o word hlt (.inr (.inl hpos))

/-- By 0 the 32 and 64 bit helpers do not rotate any word, nor does `ror16` a word with the
highest bit set, if reaching the sign of an `int` is an error. -/
theorem rotations_inverse_iff (o : Overflow) (shift : BitVec 32) :
    (∀ word : BitVec 8, shift.toNat < 8 → Rotates (rol8 o) (ror8 o) word shift) ∧
    (∀ word : BitVec 16, shift.toNat < 16 →
      (Rotates (rol16 o) (ror16 o) word shift ↔
        o = .wrap ∨ 0 < shift.toNat ∨ word.toNat < 2 ^ 15)) ∧
    (∀ word : BitVec 32, shift.toNat < 32 →
      (Rotates rol32 ror32 word shift ↔ 0 < shift.toNat)) ∧
    (∀ word : BitVec 64, shift.toNat < 64 →
      (Rotates rol64 ror64 word shift ↔ 0 < shift.toNat)) :=
  ⟨fun word => rotates8 o word, fun word => rotates16_iff o word, fun word => rotates32_iff word,
    fun word => rotates64_iff word⟩

theorem rotations_inverse_iff_test1 :
    Rotates (rol8 .trap) (ror8 .trap) 0x81 1 ∧ Rotates (rol16 .trap) (ror16 .trap) 0x8001 1 ∧
      Rotates rol32 ror32 0x80000001 1 ∧ Rotates rol64 ror64 0x8000000000000001 1 := by
  obtain ⟨h8, h16, h32, h64⟩ := rotations_inverse_iff .trap 1
  refine ⟨h8 _ (by decide), (h16 _ (by decide)).mpr ?_, (h32 _ (by decide)).mpr (by decide),
    (h64 _ (by decide)).mpr (by decide)⟩
  exact .inr (.inl (by decide))

theorem rotations_inverse_counterexample :
    rol64 1 0 = none ∧ ror64 1 0 = none ∧ ror32 1 0 = none ∧ rol32 1 0 = some 1 ∧
      ¬ Rotates rol64 ror64 1 0 ∧ ¬ Rotates rol32 ror32 1 0 := by
  have h64 : ror64 1 0 = none := by decide
  have h32 : ror32 1 0 = none := by decide
  exact ⟨by decide, h64, h32, by decide, fun h => h.ror_ne_none h64, fun h => h.ror_ne_none h32⟩

end Uki
