import Uki.Lib.Word

/-!
# `DIV_ROUND_UP` of `kernel.h`

It adds before it divides, so the sum may be cut off at the end of the word.
-/

set_option linter.style.nameCheck false

namespace Uki

open Words

variable {w : Nat} {o : Overflow}

/-- `DIV_ROUND_UP(n, d)` on words of one width. -/
def divRoundUp (o : Overflow) (n d : BitVec w) : Option (BitVec w) := do
  let sum ← o.add n d
  let sum ← o.sub sum 1
  udiv sum d

theorem toNat_one_of_pos {d : BitVec w} (hd : d ≠ 0) : (1 : BitVec w).toNat = 1 := by
  have hpos := toNat_pos hd
  have hlt := d.isLt
  show 1 % 2 ^ w = 1
  exact Nat.mod_eq_of_lt (by omega)

/-- Nothing wraps below the end of the word. -/
theorem divRoundUp_spec {n d : BitVec w} (hd : d ≠ 0) (h : n.toNat + d.toNat < 2 ^ w) :
    ∃ q, divRoundUp o n d = some q ∧ q.toNat = (n.toNat + (d.toNat - 1)) / d.toNat := by
  have hpos := toNat_pos hd
  have hone := toNat_one_of_pos hd
  have hsum : (n + d).toNat = n.toNat + d.toNat := BitVec.toNat_add_of_lt h
  have hle : (1 : BitVec w).toNat ≤ (n + d).toNat := by omega
  refine ⟨(n + d - 1) / d, ?_, ?_⟩
  · simp only [divRoundUp, Overflow.add_eq h, Overflow.sub_eq hle, udiv_eq hd, Option.bind_eq_bind,
      Option.bind_some]
  · rw [BitVec.toNat_udiv, BitVec.toNat_sub_of_le (BitVec.le_def.mpr hle), hsum, hone,
      Nat.add_sub_assoc hpos]

/-- With wrapping, the sum is cut off. -/
theorem divRoundUp_wrap (n : BitVec w) {d : BitVec w} (hd : d ≠ 0) :
    ∃ q, divRoundUp .wrap n d = some q ∧
      q.toNat = (n.toNat + (d.toNat - 1)) % 2 ^ w / d.toNat := by
  have hpos := toNat_pos hd
  refine ⟨(n + d - 1) / d, ?_, ?_⟩
  · simp only [divRoundUp, Overflow.add, Overflow.sub, Overflow.guard, udiv_eq hd,
      Option.bind_eq_bind, Option.bind_some]
  · have hwrap : 2 ^ w - 1 + (n.toNat + d.toNat) = n.toNat + (d.toNat - 1) + 2 ^ w := by
      have := d.isLt
      omega
    rw [BitVec.toNat_udiv, BitVec.toNat_sub, BitVec.toNat_add, toNat_one_of_pos hd,
      Nat.add_mod_mod, hwrap, Nat.add_mod_right]

end Uki
