import Uki.Lib.Loop
import Uki.Math.Bits

/-!
# Shift-and-subtract division: `__div64_32`

The generic routine of `div64.c`. It reduces the dividend by the quotient of its upper
half, doubles the divisor until it reaches the dividend or its own top bit, and then
subtracts it on the way back down.
-/

set_option linter.style.nameCheck false

namespace Uki

open Words

/-- The local variables of the two loops. -/
structure LongDiv where
  rem : BitVec 64
  b : BitVec 64
  res : BitVec 64
  d : BitVec 64

namespace LongDiv

/-- `(int64_t)b > 0 && b < rem`. -/
def mustScale (s : LongDiv) : Bool := 0 < s.b.toInt && s.b < s.rem

def scale (o : Overflow) (s : LongDiv) : Option LongDiv := do
  let b ← o.add s.b s.b
  let d ← o.add s.d s.d
  some { s with b, d }

/-- `if (rem >= b) { rem -= b; res += d; }`. -/
def takeDigit (o : Overflow) (s : LongDiv) : Option LongDiv :=
  if s.b ≤ s.rem then do
    let rem ← o.sub s.rem s.b
    let res ← o.add s.res s.d
    some { s with rem, res }
  else
    some s

/-- The body of the second loop. -/
def subtract (o : Overflow) (s : LongDiv) : Option LongDiv := do
  let s ← takeDigit o s
  some { s with b := s.b >>> 1, d := s.d >>> 1 }

end LongDiv

/-- "Reduce the thing a bit first": the quotient of the upper half goes to `res`. -/
def reduceHigh (o : Overflow) (rem : BitVec 64) (base : BitVec 32) :
    Option (BitVec 64 × BitVec 64) :=
  let res := 0
  let high := hi rem
  if base ≤ high then do
    let high ← udiv high base
    let res := wide high <<< 32
    let rem ← o.sub rem (wide (← o.mul high base) <<< 32)
    some (res, rem)
  else
    some (res, rem)

/-- What is stored to `*n`, and the remainder. -/
def __div64_32 (o : Overflow) (fuel : Nat) (n : BitVec 64) (base : BitVec 32) :
    Option (BitVec 64 × BitVec 32) := do
  let (res, rem) ← reduceHigh o n base
  let s ← whileLoop LongDiv.mustScale (LongDiv.scale o) fuel ⟨rem, wide base, res, 1⟩
  let s ← doWhileLoop (fun s => s.d != 0) (LongDiv.subtract o) fuel s
  some (s.res, lo s.rem)

namespace LongDiv

/-- What both loops keep: the divisor and its digit are scaled alike, and the rest is
what the digits found so far leave of the dividend. -/
structure Scaled (n base : Nat) (s : LongDiv) : Prop where
  scale : ∃ k, s.d.toNat = 2 ^ k ∧ s.b.toNat = base * 2 ^ k
  split : n = s.res.toNat * base + s.rem.toNat

variable {o : Overflow} {n base : Nat} {s : LongDiv}

/-- The sign test stops the doubling at the top bit. -/
theorem mustScale_iff :
    s.mustScale = true ↔ 0 < s.b.toNat ∧ s.b.toNat < 2 ^ 63 ∧ s.b.toNat < s.rem.toNat := by
  have hlt := s.b.isLt
  unfold mustScale
  rw [Bool.and_eq_true, decide_eq_true_iff, decide_eq_true_iff, BitVec.lt_def,
    BitVec.toInt_eq_toNat_cond]
  split <;> omega

theorem scaled_scale (hs : Scaled n base s) (h : s.mustScale = true) :
    ∃ t, s.scale o = some t ∧ Scaled n base t ∧ s.b.toNat ≤ t.b.toNat ∧
      64 - t.d.toNat.size < 64 - s.d.toNat.size := by
  obtain ⟨⟨k, hd, hb⟩, hsplit⟩ := hs
  obtain ⟨hpos, h63, -⟩ := mustScale_iff.mp h
  have hdb : s.d.toNat ≤ s.b.toNat := by
    rw [hd, hb]
    exact Nat.le_mul_of_pos_left _ (Nat.pos_of_mul_pos_right (hb ▸ hpos))
  have hb2 : (s.b + s.b).toNat = s.b.toNat + s.b.toNat := BitVec.toNat_add_of_lt (by omega)
  have hd2 : (s.d + s.d).toNat = s.d.toNat + s.d.toNat := BitVec.toNat_add_of_lt (by omega)
  have hdk : (s.d + s.d).toNat = 2 ^ (k + 1) := by rw [hd2, hd, Nat.pow_succ]; omega
  have hk : k < 63 := by
    rw [← Nat.pow_lt_pow_iff_right (a := 2) (by decide), ← hd]
    omega
  refine ⟨{ s with b := s.b + s.b, d := s.d + s.d }, ?_, ⟨⟨k + 1, hdk, ?_⟩, hsplit⟩, ?_, ?_⟩
  · rw [scale, Overflow.add_eq (by omega), Overflow.add_eq (by omega)]
    rfl
  · rw [hb2, hb, Nat.pow_succ]
    ring
  · show s.b.toNat ≤ (s.b + s.b).toNat
    omega
  · show 64 - (s.d + s.d).toNat.size < _
    rw [hdk, hd, Nat.size_pow, Nat.size_pow]
    omega

/-- The first loop ends with the divisor more than half as large as the dividend. -/
theorem scaled_loop (hs : Scaled n base s) (hbase : 0 < s.b.toNat) {fuel : Nat} (hf : 64 ≤ fuel) :
    ∃ t, whileLoop mustScale (scale o) fuel s = some t ∧ Scaled n base t ∧
      t.rem.toNat < 2 * t.b.toNat := by
  have hfuel : 64 - s.d.toNat.size < fuel := by
    obtain ⟨⟨k, hd, -⟩, -⟩ := hs
    rw [hd, Nat.size_pow]
    omega
  obtain ⟨t, ht, ⟨hst, hb⟩, hstop⟩ := whileLoop_total mustScale (scale o)
    (fun t => Scaled n base t ∧ 0 < t.b.toNat) (fun t => 64 - t.d.toNat.size)
    ⟨hs, hbase⟩ hfuel fun t ht hm => by
      obtain ⟨u, hu, hsu, hle, hμ⟩ := scaled_scale ht.1 hm
      exact ⟨u, hu, ⟨hsu, ht.2.trans_le hle⟩, hμ⟩
  refine ⟨t, ht, hst, ?_⟩
  have hlt := t.rem.isLt
  have hne : ¬ (0 < t.b.toNat ∧ t.b.toNat < 2 ^ 63 ∧ t.b.toNat < t.rem.toNat) := by
    rw [← mustScale_iff, hstop]
    decide
  omega

theorem scaled_takeDigit (hs : Scaled n base s) (hn : n < 2 ^ 64) (hbase : 0 < base)
    (hrem : s.rem.toNat < 2 * s.b.toNat) :
    ∃ t, s.takeDigit o = some t ∧ Scaled n base t ∧ t.b = s.b ∧ t.d = s.d ∧
      t.rem.toNat < s.b.toNat := by
  obtain ⟨⟨k, hd, hb⟩, hsplit⟩ := hs
  unfold takeDigit
  split
  · next hle =>
    have hle := BitVec.le_def.mp hle
    have hdigit : (s.res.toNat + s.d.toNat) * base = s.res.toNat * base + s.b.toNat := by
      rw [Nat.add_mul, hd, hb, Nat.mul_comm base]
    -- the digits found so far never exceed the quotient
    have hfit : s.res.toNat + s.d.toNat < 2 ^ 64 :=
      calc s.res.toNat + s.d.toNat ≤ (s.res.toNat + s.d.toNat) * base :=
            Nat.le_mul_of_pos_right _ hbase
        _ ≤ n := by omega
        _ < 2 ^ 64 := hn
    have hsub := BitVec.toNat_sub_of_le (BitVec.le_def.mpr hle)
    have hadd : (s.res + s.d).toNat = s.res.toNat + s.d.toNat := BitVec.toNat_add_of_lt hfit
    rw [Overflow.sub_eq hle, Overflow.add_eq hfit]
    refine ⟨_, rfl, ⟨⟨k, hd, hb⟩, ?_⟩, rfl, rfl, ?_⟩
    · show n = (s.res + s.d).toNat * base + (s.rem - s.b).toNat
      rw [hadd, hsub]
      omega
    · show (s.rem - s.b).toNat < _
      omega
  · next hlt =>
    have hlt := BitVec.lt_def.mp (BitVec.not_le.mp hlt)
    exact ⟨s, rfl, ⟨⟨k, hd, hb⟩, hsplit⟩, rfl, rfl, hlt⟩

/-- The remainder and the quotient are found. -/
def Done (n base : Nat) (s : LongDiv) : Prop :=
  s.d.toNat = 0 ∧ n = s.res.toNat * base + s.rem.toNat ∧ s.rem.toNat < base

/-- A pass that is not the last one keeps the divisor more than half as large as the
rest. The last one, with the digit 1, leaves a rest below the divisor itself. -/
theorem scaled_subtract (hs : Scaled n base s) (hn : n < 2 ^ 64) (hbase : 0 < base)
    (hrem : s.rem.toNat < 2 * s.b.toNat) :
    ∃ t, s.subtract o = some t ∧ t.d.toNat.size < s.d.toNat.size ∧
      (Done n base t ∨ (Scaled n base t ∧ t.rem.toNat < 2 * t.b.toNat)) := by
  obtain ⟨u, hu, ⟨⟨k, hd, hb⟩, hsplit⟩, hub, hud, hlt⟩ := scaled_takeDigit (o := o) hs hn hbase hrem
  have hd1 : (u.d >>> 1).toNat = u.d.toNat / 2 := toNat_shiftRight u.d 1
  have hb1 : (u.b >>> 1).toNat = u.b.toNat / 2 := toNat_shiftRight u.b 1
  rw [subtract, hu]
  refine ⟨_, rfl, ?_, ?_⟩
  · show (u.d >>> 1).toNat.size < s.d.toNat.size
    rw [← hud, hd1, hd, Nat.size_pow]
    cases k with
    | zero => simp
    | succ k => rw [Nat.pow_succ, Nat.mul_div_cancel _ Nat.two_pos, Nat.size_pow]; omega
  · cases k with
    | zero =>
      refine .inl ⟨?_, hsplit, ?_⟩
      · show (u.d >>> 1).toNat = 0
        rw [hd1, hd]
        rfl
      · show u.rem.toNat < base
        rw [← hub, hb] at hlt
        omega
    | succ k =>
      have hbk : u.b.toNat = 2 * (base * 2 ^ k) := by rw [hb, Nat.pow_succ]; ring
      refine .inr ⟨⟨⟨k, ?_, ?_⟩, hsplit⟩, ?_⟩
      · show (u.d >>> 1).toNat = 2 ^ k
        rw [hd1, hd, Nat.pow_succ, Nat.mul_div_cancel _ Nat.two_pos]
      · show (u.b >>> 1).toNat = base * 2 ^ k
        omega
      · show u.rem.toNat < 2 * (u.b >>> 1).toNat
        rw [← hub] at hlt
        omega

/-- The second loop finds the quotient. -/
theorem subtract_loop (hs : Scaled n base s) (hn : n < 2 ^ 64) (hbase : 0 < base)
    (hrem : s.rem.toNat < 2 * s.b.toNat) {fuel : Nat} (hf : 64 ≤ fuel) :
    ∃ t, doWhileLoop (fun s => s.d != 0) (subtract o) fuel s = some t ∧ Done n base t := by
  obtain ⟨u, hu, hsize, hinv⟩ := scaled_subtract (o := o) hs hn hbase hrem
  have hsize64 : s.d.toNat.size ≤ 64 := Nat.size_le.mpr s.d.isLt
  obtain ⟨t, ht, hJ, hstop⟩ := whileLoop_total (fun s => s.d != 0) (subtract o)
    (fun t => Done n base t ∨ (Scaled n base t ∧ t.rem.toNat < 2 * t.b.toNat))
    (fun t => t.d.toNat.size) hinv (hsize.trans_le (hsize64.trans hf)) fun t ht hm => by
      rcases ht with hdone | ⟨hst, hlt⟩
      · have hd0 : t.d = 0 := BitVec.eq_of_toNat_eq hdone.1
        simp [hd0] at hm
      · obtain ⟨v, hv, hμ, hJ⟩ := scaled_subtract (o := o) hst hn hbase hlt
        exact ⟨v, hv, hJ, hμ⟩
  refine ⟨t, by rw [doWhileLoop, hu]; exact ht, hJ.resolve_right ?_⟩
  rintro ⟨⟨⟨k, hd, -⟩, -⟩, -⟩
  have hd0 : t.d = 0 := by simpa using hstop
  rw [hd0] at hd
  exact (Nat.two_pow_pos k).ne hd

end LongDiv

theorem reduceHigh_spec {o : Overflow} (n : BitVec 64) {base : BitVec 32} (h : base ≠ 0) :
    ∃ res rem, reduceHigh o n base = some (res, rem) ∧
      n.toNat = res.toNat * base.toNat + rem.toNat := by
  unfold reduceHigh
  dsimp only
  split
  · have hsplit := toNat_eq_halves n
    have hhi := (hi n).isLt
    have hle : (hi n / base).toNat * base.toNat ≤ (hi n).toNat := by
      rw [BitVec.toNat_udiv]
      exact Nat.div_mul_le_self _ _
    have hup (x : BitVec 32) : (wide x <<< 32).toNat = x.toNat * 2 ^ 32 := by
      rw [BitVec.toNat_shiftLeft, toNat_wide, Nat.shiftLeft_eq]
      exact Nat.mod_eq_of_lt (by have := x.isLt; omega)
    have hprod : (hi n / base * base).toNat = (hi n / base).toNat * base.toNat :=
      BitVec.toNat_mul_of_lt (by omega)
    have hfit : (wide (hi n / base * base) <<< 32).toNat ≤ n.toNat := by
      rw [hup, hprod]
      omega
    have hmul : o.mul (hi n / base) base = some (hi n / base * base) :=
      Overflow.mul_eq (by omega)
    refine ⟨wide (hi n / base) <<< 32, n - wide (hi n / base * base) <<< 32, ?_, ?_⟩
    · simp only [udiv_eq h, hmul, Overflow.sub_eq hfit, Option.bind_eq_bind, Option.bind_some]
    · rw [BitVec.toNat_sub_of_le (BitVec.le_def.mpr hfit)]
      rw [hup, hprod] at hfit
      rw [hup, hup, hprod, Nat.mul_right_comm]
      exact (Nat.add_sub_cancel' hfit).symm
  · exact ⟨0, n, rfl, by simp⟩

/-- Long division is exact: both loops end, and no product, doubling, sum or difference
on the way overflows. -/
theorem div64_32_exact (o : Overflow) (n : BitVec 64) {base : BitVec 32} (h : base ≠ 0)
    {fuel : Nat} (hf : 64 ≤ fuel) :
    ∃ q r, __div64_32 o fuel n base = some (q, r) ∧
      q.toNat = n.toNat / base.toNat ∧ r.toNat = n.toNat % base.toNat := by
  have hpos := toNat_pos h
  have hbase := base.isLt
  obtain ⟨res, rem, hred, hsplit⟩ := reduceHigh_spec (o := o) n h
  have hstart : LongDiv.Scaled n.toNat base.toNat ⟨rem, wide base, res, 1⟩ :=
    ⟨⟨0, rfl, by simp⟩, hsplit⟩
  obtain ⟨s, hs, hscaled, hlt⟩ := LongDiv.scaled_loop (o := o) hstart (by simpa using hpos) hf
  obtain ⟨t, ht, -, hq, hr⟩ := LongDiv.subtract_loop (o := o) hscaled n.isLt hpos hlt hf
  have hdm : n.toNat / base.toNat = t.res.toNat ∧ n.toNat % base.toNat = t.rem.toNat := by
    rw [Nat.div_mod_unique hpos]
    exact ⟨by rw [hq]; ring, hr⟩
  refine ⟨t.res, lo t.rem, ?_, hdm.1.symm, ?_⟩
  · simp only [__div64_32, hred, hs, ht, Option.bind_eq_bind, Option.bind_some]
  · rw [toNat_lo, hdm.2, Nat.mod_eq_of_lt (hr.trans hbase)]

/-- The first loop stops at the top bit: `2^64 - 1` by `2^32 - 1`. -/
theorem div64_32_exact_test1 :
    ∃ q r, __div64_32 .trap 64 18446744073709551615 4294967295 = some (q, r) ∧
      q.toNat = (18446744073709551615 : BitVec 64).toNat / (4294967295 : BitVec 32).toNat ∧
      r.toNat = (18446744073709551615 : BitVec 64).toNat % (4294967295 : BitVec 32).toNat :=
  div64_32_exact .trap 18446744073709551615 (by decide) (by decide)

end Uki
