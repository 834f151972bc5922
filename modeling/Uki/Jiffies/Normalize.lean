import Uki.Jiffies.Nsec
import Uki.Lib.Loop

/-!
# Arithmetic of `timespec64`

`set_normalized_timespec64` of `jiffies.c` carries and borrows one second in every pass of
its loops; addition and subtraction of `time64.h` rest on it. Neither loop changes the time
that its two variables stand for (`SameTime`), modulo the word size when operations wrap and
exactly when they trap.
-/

namespace Uki

open Words

variable {m : LongModel} {o : Overflow}

/-- A pass of the first loop, on `sec` and `nsec`. -/
def carrySec (o : Overflow) (s : BitVec 64 × BitVec 64) : Option (BitVec 64 × BitVec 64) := do
  let nsec ← o.ssub s.2 NSEC_PER_SEC
  let sec ← o.sadd s.1 1
  some (sec, nsec)

/-- A pass of the second loop. -/
def borrowSec (o : Overflow) (s : BitVec 64 × BitVec 64) : Option (BitVec 64 × BitVec 64) := do
  let nsec ← o.sadd s.2 NSEC_PER_SEC
  let sec ← o.ssub s.1 1
  some (sec, nsec)

/-- What is stored to `*ts`. Each loop is given `n` tests. -/
def setNormalizedTimespec64 (o : Overflow) (n : Nat) (sec nsec : BitVec 64) :
    Option (Timespec64 m) := do
  let s ← whileLoop (fun s => (NSEC_PER_SEC : Int) ≤ s.2.toInt) (carrySec o) n (sec, nsec)
  let s ← whileLoop (fun s => s.2.toInt < 0) (borrowSec o) n s
  some ⟨s.1, s.2.setWidth m.bits⟩

def timespec64Equal (a b : Timespec64 m) : Bool := a.tvSec == b.tvSec && a.tvNsec == b.tvNsec

/-- The difference is a `long`, the result an `int`. -/
def timespec64Compare (o : Overflow) (lhs rhs : Timespec64 m) : Option (BitVec 32) :=
  if lhs.tvSec.toInt < rhs.tvSec.toInt then
    some (-1)
  else if rhs.tvSec.toInt < lhs.tvSec.toInt then
    some 1
  else do
    let diff ← o.ssub lhs.tvNsec rhs.tvNsec
    some (diff.setWidth 32)

def timespec64Add (o : Overflow) (n : Nat) (lhs rhs : Timespec64 m) : Option (Timespec64 m) := do
  let sec ← o.sadd lhs.tvSec rhs.tvSec
  let nsec ← o.sadd lhs.tvNsec rhs.tvNsec
  setNormalizedTimespec64 o n sec (nsec.signExtend 64)

def timespec64Sub (o : Overflow) (n : Nat) (lhs rhs : Timespec64 m) : Option (Timespec64 m) := do
  let sec ← o.ssub lhs.tvSec rhs.tvSec
  let nsec ← o.ssub lhs.tvNsec rhs.tvNsec
  setNormalizedTimespec64 o n sec (nsec.signExtend 64)

/-! ## The loops -/

/-- The variables `s` of the loops stand for the time `sec` and `nsec` that they started
with. -/
structure SameTime (o : Overflow) (sec nsec : BitVec 64) (s : BitVec 64 × BitVec 64) : Prop where
  secs : s.1 + BitVec.ofInt 64 (s.2.toInt / NSEC_PER_SEC) =
    sec + BitVec.ofInt 64 (nsec.toInt / NSEC_PER_SEC)
  nsecs : s.2.toInt % NSEC_PER_SEC = nsec.toInt % NSEC_PER_SEC
  fits : o = .trap → Fits64 (s.1.toInt + s.2.toInt / NSEC_PER_SEC)

variable {sec nsec : BitVec 64} {s : BitVec 64 × BitVec 64}

theorem toInt_second : (NSEC_PER_SEC : BitVec 64).toInt = NSEC_PER_SEC := rfl

/-- `d` seconds are moved from the nanoseconds to the seconds. -/
theorem SameTime.move {t : BitVec 64 × BitVec 64} {d : Int} (hs : SameTime o sec nsec s)
    (hsec : t.1 = s.1 + BitVec.ofInt 64 d) (hfits : o = .trap → t.1.toInt = s.1.toInt + d)
    (hnsec : t.2.toInt = s.2.toInt - d * NSEC_PER_SEC) : SameTime o sec nsec t := by
  have hdiv : t.2.toInt / NSEC_PER_SEC = s.2.toInt / NSEC_PER_SEC - d := by
    rw [hnsec]
    simp only [NSEC_PER_SEC]
    omega
  refine ⟨?_, ?_, fun ho => ?_⟩
  · rw [← hs.secs, hsec, hdiv, ofInt_sub]
    ring
  · rw [← hs.nsecs, hnsec, Int.sub_mul_emod_self_right]
  · have hsum := hs.fits ho
    rwa [hfits ho, hdiv, Int.add_assoc, add_sub_cancel]

theorem carrySec_spec (hs : SameTime o sec nsec s) (h : (NSEC_PER_SEC : Int) ≤ s.2.toInt) :
    ∃ t, carrySec o s = some t ∧ SameTime o sec nsec t ∧
      t.2.toInt = s.2.toInt - NSEC_PER_SEC := by
  have hlt := s.2.toInt_lt
  have hfits : -2 ^ 63 ≤ s.2.toInt - NSEC_PER_SEC ∧ s.2.toInt - NSEC_PER_SEC < 2 ^ 63 := by
    simp only [NSEC_PER_SEC] at h ⊢
    omega
  have hnsec : (s.2 - (NSEC_PER_SEC : BitVec 64)).toInt = s.2.toInt - NSEC_PER_SEC :=
    toInt_sub_of_fits hfits
  have hssub : o.ssub s.2 NSEC_PER_SEC = some (s.2 - (NSEC_PER_SEC : BitVec 64)) :=
    Overflow.ssub_eq fun _ => hfits
  -- the seconds grow towards the sum, which fits
  have hsec (ho : o = .trap) : -2 ^ 63 ≤ s.1.toInt + 1 ∧ s.1.toInt + 1 < 2 ^ 63 := by
    have hsum := (hs.fits ho).2
    have hle := s.1.le_toInt
    simp only [NSEC_PER_SEC] at h hsum
    omega
  have hsadd : o.sadd s.1 1 = some (s.1 + 1) := Overflow.sadd_eq hsec
  refine ⟨(s.1 + 1, s.2 - NSEC_PER_SEC), ?_, ?_, hnsec⟩
  · simp only [carrySec, hssub, hsadd, Option.bind_eq_bind, Option.bind_some]
  · exact hs.move (d := 1) rfl (fun ho => toInt_add_of_fits (hsec ho)) (by rw [hnsec, one_mul])

theorem borrowSec_spec (hs : SameTime o sec nsec s) (h : s.2.toInt < 0) :
    ∃ t, borrowSec o s = some t ∧ SameTime o sec nsec t ∧
      t.2.toInt = s.2.toInt + NSEC_PER_SEC := by
  have hle := s.2.le_toInt
  have hfits : -2 ^ 63 ≤ s.2.toInt + NSEC_PER_SEC ∧ s.2.toInt + NSEC_PER_SEC < 2 ^ 63 := by
    simp only [NSEC_PER_SEC]
    omega
  have hnsec : (s.2 + (NSEC_PER_SEC : BitVec 64)).toInt = s.2.toInt + NSEC_PER_SEC :=
    toInt_add_of_fits hfits
  have hsadd : o.sadd s.2 NSEC_PER_SEC = some (s.2 + (NSEC_PER_SEC : BitVec 64)) :=
    Overflow.sadd_eq fun _ => hfits
  have hsec (ho : o = .trap) : -2 ^ 63 ≤ s.1.toInt - 1 ∧ s.1.toInt - 1 < 2 ^ 63 := by
    have hsum := (hs.fits ho).1
    have hlt := s.1.toInt_lt
    simp only [NSEC_PER_SEC] at h hsum
    omega
  have hssub : o.ssub s.1 1 = some (s.1 - 1) := Overflow.ssub_eq hsec
  refine ⟨(s.1 - 1, s.2 + NSEC_PER_SEC), ?_, ?_, hnsec⟩
  · simp only [borrowSec, hssub, hsadd, Option.bind_eq_bind, Option.bind_some]
  · exact hs.move (d := -1) (by rw [BitVec.ofInt_neg]; exact BitVec.sub_eq_add_neg _ _)
      (fun ho => toInt_sub_of_fits (hsec ho)) (by rw [hnsec]; ring)

theorem carry_loop {n : Nat} (hn : 2 ^ 63 < n) (hs : SameTime o sec nsec s) :
    ∃ t, whileLoop (fun s => (NSEC_PER_SEC : Int) ≤ s.2.toInt) (carrySec o) n s = some t ∧
      SameTime o sec nsec t ∧ t.2.toInt < NSEC_PER_SEC := by
  have hlt := s.2.toInt_lt
  obtain ⟨t, ht, hst, hstop⟩ := whileLoop_total _ (carrySec o) (SameTime o sec nsec)
    (fun s => s.2.toInt.toNat) (n := n) hs (by omega) fun s hs ht => by
      have ht : (NSEC_PER_SEC : Int) ≤ s.2.toInt := of_decide_eq_true ht
      obtain ⟨t, hpass, hst, hnsec⟩ := carrySec_spec hs ht
      refine ⟨t, hpass, hst, ?_⟩
      simp only [NSEC_PER_SEC] at ht hnsec
      omega
  exact ⟨t, ht, hst, not_le.mp (of_decide_eq_false hstop)⟩

theorem borrow_loop {n : Nat} (hn : 2 ^ 63 < n) (hs : SameTime o sec nsec s)
    (hlt : s.2.toInt < NSEC_PER_SEC) :
    ∃ t, whileLoop (fun s => s.2.toInt < 0) (borrowSec o) n s = some t ∧
      SameTime o sec nsec t ∧ 0 ≤ t.2.toInt ∧ t.2.toInt < NSEC_PER_SEC := by
  have hle := s.2.le_toInt
  obtain ⟨t, ht, ⟨hst, hlt⟩, hstop⟩ := whileLoop_total _ (borrowSec o)
    (fun s => SameTime o sec nsec s ∧ s.2.toInt < NSEC_PER_SEC) (fun s => (-s.2.toInt).toNat)
    (n := n) ⟨hs, hlt⟩ (by omega) fun s hs ht => by
      have ht : s.2.toInt < 0 := of_decide_eq_true ht
      obtain ⟨t, hpass, hst, hnsec⟩ := borrowSec_spec hs.1 ht
      refine ⟨t, hpass, ⟨hst, ?_⟩, ?_⟩ <;> simp only [NSEC_PER_SEC] at hnsec ⊢ <;> omega
  exact ⟨t, ht, hst, not_lt.mp (of_decide_eq_false hstop), hlt⟩

/-- The seconds are right modulo the word size. -/
theorem setNormalizedTimespec64_spec (m : LongModel) (sec nsec : BitVec 64)
    (h : o = .trap → Fits64 (sec.toInt + nsec.toInt / NSEC_PER_SEC)) :
    ∃ ts : Timespec64 m, Ends (setNormalizedTimespec64 o · sec nsec) ts ∧
      ts.tvSec = sec + BitVec.ofInt 64 (nsec.toInt / NSEC_PER_SEC) ∧
      ts.tvNsec.toInt = nsec.toInt % NSEC_PER_SEC := by
  have h0 := Int.emod_nonneg nsec.toInt (b := NSEC_PER_SEC) (by decide)
  have h1 := Int.emod_lt_of_pos nsec.toInt (b := NSEC_PER_SEC) (by decide)
  refine ⟨⟨sec + BitVec.ofInt 64 (nsec.toInt / NSEC_PER_SEC),
    BitVec.ofInt m.bits (nsec.toInt % NSEC_PER_SEC)⟩, ⟨2 ^ 63 + 1, fun n hn => ?_⟩, rfl, ?_⟩
  · obtain ⟨s, hs, hst, hlt⟩ := carry_loop hn (s := (sec, nsec)) ⟨rfl, rfl, h⟩
    obtain ⟨t, ht, htt, h0, hlt⟩ := borrow_loop hn hst hlt
    have hdiv : t.2.toInt / NSEC_PER_SEC = 0 := Int.ediv_eq_zero_of_lt h0 hlt
    have hsecs := htt.secs
    have hnsecs := htt.nsecs
    rw [hdiv, show BitVec.ofInt 64 0 = 0#64 from rfl, BitVec.add_zero] at hsecs
    rw [Int.emod_eq_of_lt h0 hlt] at hnsecs
    have hword : t.2.setWidth m.bits = BitVec.ofInt m.bits (nsec.toInt % NSEC_PER_SEC) := by
      rw [← hnsecs, setWidth_eq_ofInt, coe_toNat_of_nonneg h0]
    simp only [setNormalizedTimespec64, hs, ht, hsecs, hword, Option.bind_eq_bind, Option.bind_some]
  · refine BitVec.toInt_ofInt_eq_self (by cases m <;> decide) ?_ ?_ <;>
      simp only [NSEC_PER_SEC] at h0 h1 ⊢ <;> cases m <;> simp only [LongModel.bits] <;> omega

/-- `sec` may be the word of a sum `x` that overflowed, as long as the carried seconds fit
again. -/
theorem setNormalizedTimespec64_total (m : LongModel) {x : Int} (nsec : BitVec 64)
    (hfits : Fits64 (x + nsec.toInt / NSEC_PER_SEC))
    (h : o = .trap → (BitVec.ofInt 64 x).toInt = x) :
    ∃ ts : Timespec64 m, Ends (setNormalizedTimespec64 o · (BitVec.ofInt 64 x) nsec) ts ∧
      ts.Normalized ∧ ts.total = x * NSEC_PER_SEC + nsec.toInt := by
  obtain ⟨ts, hends, hsec, hnsec⟩ := setNormalizedTimespec64_spec m (BitVec.ofInt 64 x) nsec
    fun ho => by rwa [h ho]
  have hsec : ts.tvSec.toInt = x + nsec.toInt / NSEC_PER_SEC := by
    rw [hsec, ← BitVec.ofInt_add, BitVec.toInt_ofInt_eq_self (by decide) hfits.1 hfits.2]
  refine ⟨ts, hends, Timespec64.normalized_of_emod hnsec, ?_⟩
  have hdiv := Int.mul_ediv_add_emod nsec.toInt NSEC_PER_SEC
  unfold Timespec64.total
  rw [hsec, hnsec, Int.add_mul, Int.add_assoc, Int.mul_comm (nsec.toInt / _), hdiv]

/-! ## Addition and subtraction -/

theorem long_fits (m : LongModel) {x : Int} (h : -2 ^ 31 ≤ x ∧ x < 2 ^ 31) :
    -2 ^ (m.bits - 1) ≤ x ∧ x < 2 ^ (m.bits - 1) := by
  cases m <;> simp only [LongModel.bits] <;> omega

namespace Timespec64

variable {a b : Timespec64 m}

theorem Normalized.nsec_sum (ha : a.Normalized) (hb : b.Normalized) :
    o.sadd a.tvNsec b.tvNsec = some (a.tvNsec + b.tvNsec) ∧
      ((a.tvNsec + b.tvNsec).signExtend 64).toInt = a.tvNsec.toInt + b.tvNsec.toInt := by
  have hfits := long_fits m (x := a.tvNsec.toInt + b.tvNsec.toInt) <| by
    unfold Normalized at ha hb
    simp only [NSEC_PER_SEC] at ha hb
    omega
  refine ⟨Overflow.sadd_eq fun _ => hfits, ?_⟩
  rw [BitVec.toInt_signExtend_of_le (by cases m <;> decide), toInt_add_of_fits hfits]

theorem Normalized.nsec_diff (ha : a.Normalized) (hb : b.Normalized) :
    o.ssub a.tvNsec b.tvNsec = some (a.tvNsec - b.tvNsec) ∧
      (a.tvNsec - b.tvNsec).toInt = a.tvNsec.toInt - b.tvNsec.toInt := by
  have hfits := long_fits m (x := a.tvNsec.toInt - b.tvNsec.toInt) <| by
    unfold Normalized at ha hb
    simp only [NSEC_PER_SEC] at ha hb
    omega
  exact ⟨Overflow.ssub_eq fun _ => hfits, toInt_sub_of_fits hfits⟩

end Timespec64

variable {a b : Timespec64 m}

/-- The seconds of a time that is given as a sum of its parts. -/
theorem seconds_of_parts (x y : Int) :
    (x * NSEC_PER_SEC + y) / NSEC_PER_SEC = x + y / NSEC_PER_SEC := by
  rw [Int.add_comm, Int.add_mul_ediv_right _ _ (by decide), Int.add_comm]

theorem timespec64Add_spec (ha : a.Normalized) (hb : b.Normalized)
    (h : Fits64 ((a.total + b.total) / NSEC_PER_SEC)) :
    ∃ ts, Ends (timespec64Add .wrap · a b) ts ∧ ts.Normalized ∧ ts.total = a.total + b.total := by
  obtain ⟨hadd, hnsec⟩ := ha.nsec_sum (o := .wrap) hb
  have hsec : Overflow.wrap.sadd a.tvSec b.tvSec =
      some (BitVec.ofInt 64 (a.tvSec.toInt + b.tvSec.toInt)) := by
    rw [BitVec.ofInt_add, BitVec.ofInt_toInt, BitVec.ofInt_toInt]
    rfl
  have htotal : a.total + b.total = (a.tvSec.toInt + b.tvSec.toInt) * NSEC_PER_SEC +
      ((a.tvNsec + b.tvNsec).signExtend 64).toInt := by
    rw [hnsec]
    unfold Timespec64.total
    ring
  rw [htotal, seconds_of_parts] at h
  obtain ⟨ts, hends, hts⟩ := setNormalizedTimespec64_total m (o := .wrap) _ h (fun he => nomatch he)
  rw [htotal]
  refine ⟨ts, ?_, hts⟩
  simpa only [timespec64Add, hsec, hadd, Option.bind_eq_bind, Option.bind_some] using hends

theorem timespec64Sub_spec (ha : a.Normalized) (hb : b.Normalized)
    (h : Fits64 ((a.total - b.total) / NSEC_PER_SEC)) :
    ∃ ts, Ends (timespec64Sub .wrap · a b) ts ∧ ts.Normalized ∧ ts.total = a.total - b.total := by
  obtain ⟨hsub, hnsec⟩ := ha.nsec_diff (o := .wrap) hb
  have hsec : Overflow.wrap.ssub a.tvSec b.tvSec =
      some (BitVec.ofInt 64 (a.tvSec.toInt - b.tvSec.toInt)) := by
    rw [ofInt_sub, BitVec.ofInt_toInt, BitVec.ofInt_toInt]
    rfl
  have htotal : a.total - b.total = (a.tvSec.toInt - b.tvSec.toInt) * NSEC_PER_SEC +
      ((a.tvNsec - b.tvNsec).signExtend 64).toInt := by
    rw [BitVec.toInt_signExtend_of_le (by cases m <;> decide), hnsec]
    unfold Timespec64.total
    ring
  rw [htotal, seconds_of_parts] at h
  obtain ⟨ts, hends, hts⟩ := setNormalizedTimespec64_total m (o := .wrap) _ h (fun he => nomatch he)
  rw [htotal]
  refine ⟨ts, ?_, hts⟩
  simpa only [timespec64Sub, hsec, hsub, Option.bind_eq_bind, Option.bind_some] using hends

/-! ## Comparison -/

/-- The difference of the nanoseconds keeps its sign as an `int`. -/
theorem timespec64Compare_spec (ha : a.Normalized) (hb : b.Normalized) :
    ∃ c, timespec64Compare o a b = some c ∧ c.toInt.sign = (a.total - b.total).sign := by
  obtain ⟨hsub, hnsec⟩ := ha.nsec_diff (o := o) hb
  have hint : ((a.tvNsec - b.tvNsec).setWidth 32).toInt = a.tvNsec.toInt - b.tvNsec.toInt := by
    rw [← BitVec.signExtend_eq_setWidth_of_le _ (by cases m <;> decide), BitVec.signExtend, hnsec]
    unfold Timespec64.Normalized at ha hb
    simp only [NSEC_PER_SEC] at ha hb
    exact BitVec.toInt_ofInt_eq_self (by decide) (by omega) (by omega)
  unfold Timespec64.total
  unfold Timespec64.Normalized at ha hb
  unfold timespec64Compare
  simp only [NSEC_PER_SEC] at ha hb ⊢
  split
  · next hlt =>
    refine ⟨-1, rfl, ?_⟩
    rw [Int.sign_eq_neg_one_of_neg (a := _ - _) (by omega)]
    decide
  · split
    · next hgt =>
      refine ⟨1, rfl, ?_⟩
      rw [Int.sign_eq_one_of_pos (a := _ - _) (by omega)]
      decide
    · simp only [hsub, Option.bind_eq_bind, Option.bind_some]
      refine ⟨_, rfl, ?_⟩
      rw [hint]
      congr 1
      omega

theorem timespec64Equal_iff (ha : a.Normalized) (hb : b.Normalized) :
    timespec64Equal a b = true ↔ a.total - b.total = 0 := by
  unfold timespec64Equal
  rw [Bool.and_eq_true, beq_iff_eq, beq_iff_eq, Int.sub_eq_zero]
  constructor
  · rintro ⟨hsec, hnsec⟩
    unfold Timespec64.total
    rw [hsec, hnsec]
  · intro h
    obtain rfl := ha.eq_of_total hb h
    exact ⟨rfl, rfl⟩

/-- `timespec64` arithmetic is integer arithmetic on nanoseconds. -/
theorem timespec64_arithmetic (m : LongModel) :
    (∀ (o : Overflow) (sec nsec : BitVec 64), Fits64 (sec.toInt + nsec.toInt / 1000000000) →
      ∃ ts : Timespec64 m, Ends (setNormalizedTimespec64 o · sec nsec) ts ∧
        (ts.Normalized ∧ ts.total = sec.toInt * 1000000000 + nsec.toInt) ∧
        ∀ ts' : Timespec64 m, ts'.Normalized →
          ts'.total = sec.toInt * 1000000000 + nsec.toInt → ts' = ts) ∧
    ∀ a b : Timespec64 m, a.Normalized → b.Normalized →
      (Fits64 ((a.total + b.total) / 1000000000) →
        ∃ ts, Ends (timespec64Add .wrap · a b) ts ∧ ts.Normalized ∧
          ts.total = a.total + b.total ∧ Ends (timespec64Sub .wrap · ts b) a) ∧
      (Fits64 ((a.total - b.total) / 1000000000) →
        ∃ ts, Ends (timespec64Sub .wrap · a b) ts ∧ ts.Normalized ∧
          ts.total = a.total - b.total) ∧
      (∀ o : Overflow, ∃ c, timespec64Compare o a b = some c ∧
        c.toInt.sign = (a.total - b.total).sign) ∧
      (timespec64Equal a b = true ↔ a.total - b.total = 0) := by
  refine ⟨fun o sec nsec h => ?_, fun a b ha hb => ⟨fun h => ?_, fun h => ?_, fun o => ?_, ?_⟩⟩
  · have hsec : BitVec.ofInt 64 sec.toInt = sec := BitVec.ofInt_toInt
    obtain ⟨ts, hends, hnorm, htotal⟩ := setNormalizedTimespec64_total m (o := o) nsec h
      fun _ => by rw [hsec]
    rw [hsec] at hends
    exact ⟨ts, hends, ⟨hnorm, htotal⟩, fun ts' hnorm' htotal' =>
      hnorm'.eq_of_total hnorm (htotal'.trans htotal.symm)⟩
  · obtain ⟨ts, hends, hnorm, htotal⟩ := timespec64Add_spec ha hb h
    have hback : ts.total - b.total = a.total := by rw [htotal, add_sub_cancel_right]
    have hfits : Fits64 (a.total / NSEC_PER_SEC) := by
      rw [ha.total_div]
      exact ⟨a.tvSec.le_toInt, a.tvSec.toInt_lt⟩
    obtain ⟨a', hends', hnorm', htotal'⟩ := timespec64Sub_spec hnorm hb (by rwa [hback])
    obtain rfl := hnorm'.eq_of_total ha (htotal'.trans hback)
    exact ⟨ts, hends, hnorm, htotal, hends'⟩
  · exact timespec64Sub_spec ha hb h
  · exact timespec64Compare_spec ha hb
  · exact timespec64Equal_iff ha hb

/-- One nanosecond before the epoch, and the sum and the difference of -1 ns and 2.000000001 s. -/
theorem timespec64_arithmetic_test1 :
    (∃ ts : Timespec64 .long32, Ends (setNormalizedTimespec64 .trap · 0 (-1)) ts ∧
      ts.Normalized ∧ ts.total = -1) ∧
    (∃ ts : Timespec64 .long32, Ends (timespec64Add .wrap · ⟨-1, 999999999⟩ ⟨2, 1⟩) ts ∧
      ts.total = 2000000000 ∧ Ends (timespec64Sub .wrap · ts ⟨2, 1⟩) ⟨-1, 999999999⟩) ∧
    (∃ ts : Timespec64 .long32, Ends (timespec64Sub .wrap · ⟨-1, 999999999⟩ ⟨2, 1⟩) ts ∧
      ts.total = -2000000002) ∧
    (∃ c, timespec64Compare .trap (⟨-1, 999999999⟩ : Timespec64 .long32) ⟨2, 1⟩ = some c ∧
      c.toInt.sign = -1) ∧
    timespec64Equal (⟨-1, 999999999⟩ : Timespec64 .long32) ⟨2, 1⟩ = false := by
  have h := timespec64_arithmetic .long32
  obtain ⟨ts, hends, ⟨hnorm, htotal⟩, -⟩ := h.1 .trap 0 (-1) ⟨by decide, by decide⟩
  obtain ⟨hadd, hsub, hcompare, hequal⟩ := h.2 ⟨-1, 999999999⟩ ⟨2, 1⟩ ⟨by decide, by decide⟩
    ⟨by decide, by decide⟩
  refine ⟨⟨ts, hends, hnorm, htotal.trans (by decide)⟩, ?_, ?_, ?_, ?_⟩
  · obtain ⟨ts, hends, -, htotal, hback⟩ := hadd ⟨by decide, by decide⟩
    exact ⟨ts, hends, htotal.trans (by decide), hback⟩
  · obtain ⟨ts, hends, -, htotal⟩ := hsub ⟨by decide, by decide⟩
    exact ⟨ts, hends, htotal.trans (by decide)⟩
  · obtain ⟨c, hc, hsign⟩ := hcompare .trap
    exact ⟨c, hc, hsign.trans (by decide)⟩
  · exact Bool.eq_false_iff.mpr fun he => absurd (hequal.mp he) (by decide)

end Uki
