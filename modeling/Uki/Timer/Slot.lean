import Uki.Timer.Wheel

/-!
# When the turn of a bucket comes

A bucket of `tv1` is run, and a bucket of a higher vector is cascaded, once in
every revolution of its vector. `wait T tv i` is the number of ticks from `T` to
the next turn of bucket `i` of `tv`, and `dueIn` adds what is left of the delay
then. A timer is filed so that this sum is exactly its delay (`dueIn_file`).
-/

namespace Uki

variable {m : LongModel}

/-- The number of bits below the index of a vector. -/
def Tv.shift : Tv → Nat
  | .tv1 => 0
  | .tv2 => TVR_BITS
  | .tv3 => TVR_BITS + TVN_BITS
  | .tv4 => TVR_BITS + 2 * TVN_BITS
  | .tv5 => TVR_BITS + 3 * TVN_BITS

/-- The number of buckets. -/
def Tv.size : Tv → Nat
  | .tv1 => TVR_SIZE
  | _ => TVN_SIZE

/-- The number of ticks in a revolution. -/
def Tv.span (tv : Tv) : Nat := 2 ^ tv.shift * tv.size

def wait (T : ULong m) (tv : Tv) (i : Nat) : Nat :=
  (i * 2 ^ tv.shift + tv.span - T.toNat % tv.span) % tv.span

/-- How long a timer armed at `T` for `e` has to wait. A past expiry is due at
once. -/
def delay (T e : ULong m) : Nat := if ahead T e < half m then ahead T e else 0

/-- In how many ticks from `T` a timer in bucket `i` of `tv` is run. -/
def dueIn (T : ULong m) (tv : Tv) (i : Nat) (e : ULong m) : Nat :=
  match tv with
  | .tv1 => wait T tv i
  | _ => wait T tv i + delay (T + BitVec.ofNat _ (wait T tv i)) e

theorem delay_of_lt {T e : ULong m} (h : ahead T e < half m) : delay T e = ahead T e := if_pos h

theorem delay_of_le {T e : ULong m} (h : half m ≤ ahead T e) : delay T e = 0 :=
  if_neg (Nat.not_lt.mpr h)

/-! ## Masks -/

theorem toNat_and_TVR_MASK (x : ULong m) :
    (x &&& BitVec.ofNat _ TVR_MASK).toNat = x.toNat % 64 := by
  have h : (BitVec.ofNat m.bits TVR_MASK).toNat = 2 ^ 6 - 1 := by cases m <;> rfl
  rw [BitVec.toNat_and, h, Nat.and_two_pow_sub_one_eq_mod]

theorem toNat_and_TVN_MASK (x : ULong m) :
    (x &&& BitVec.ofNat _ TVN_MASK).toNat = x.toNat % 16 := by
  have h : (BitVec.ofNat m.bits TVN_MASK).toNat = 2 ^ 4 - 1 := by cases m <;> rfl
  rw [BitVec.toNat_and, h, Nat.and_two_pow_sub_one_eq_mod]

theorem toNat_shift_TVN_MASK (x : ULong m) (n : Nat) :
    ((x >>> n) &&& BitVec.ofNat _ TVN_MASK).toNat = x.toNat / 2 ^ n % 16 := by
  rw [toNat_and_TVN_MASK, BitVec.toNat_ushiftRight, Nat.shiftRight_eq_div_pow]

theorem lt_ofNat_iff {x : ULong m} {n : Nat} (hn : n < 2 ^ 32) :
    x < BitVec.ofNat _ n ↔ x.toNat < n := by
  rw [BitVec.lt_def, BitVec.toNat_ofNat]
  cases m <;> simp only [LongModel.bits] at * <;> omega

theorem toInt_neg_iff (x : ULong m) : x.toInt < 0 ↔ half m ≤ x.toNat := by
  have h := two_half m
  have hlt := x.isLt
  rw [BitVec.toInt_eq_toNat_cond]
  split <;> omega

/-- `internal_add_timer` in terms of the distance to the expiry. -/
theorem internalAddVec_eq (T e : ULong m) :
    internalAddVec T e =
      if ahead T e < 64 then .vec .tv1 (e.toNat % 64)
      else if ahead T e < 1024 then .vec .tv2 (e.toNat / 2 ^ 6 % 16)
      else if ahead T e < 16384 then .vec .tv3 (e.toNat / 2 ^ 10 % 16)
      else if ahead T e < 262144 then .vec .tv4 (e.toNat / 2 ^ 14 % 16)
      else if half m ≤ ahead T e then .vec .tv1 (T.toNat % 64)
      else if 0xffffffff < ahead T e then
        .vec .tv5 ((T.toNat + 0xffffffff) % 2 ^ m.bits / 2 ^ 18 % 16)
      else .vec .tv5 (e.toNat / 2 ^ 18 % 16) := by
  have hgt : ∀ x : ULong m, x > BitVec.ofNat _ 0xffffffff ↔ 0xffffffff < x.toNat := by
    intro x
    rw [gt_iff_lt, BitVec.lt_def, BitVec.toNat_ofNat]
    cases m <;> rfl
  have hcap : (BitVec.ofNat m.bits 0xffffffff + T).toNat = (T.toNat + 0xffffffff) % 2 ^ m.bits := by
    rw [BitVec.toNat_add, BitVec.toNat_ofNat]
    cases m <;> simp only [LongModel.bits] at * <;> omega
  have ha : (e - T).toNat = ahead T e := rfl
  simp only [internalAddVec, ha, toInt_neg_iff, hgt, toNat_shift_TVN_MASK, toNat_and_TVR_MASK,
    show TVR_SIZE = 64 from rfl, show 1 <<< (TVR_BITS + TVN_BITS) = 1024 from rfl,
    show 1 <<< (TVR_BITS + 2 * TVN_BITS) = 16384 from rfl,
    show 1 <<< (TVR_BITS + 3 * TVN_BITS) = 262144 from rfl,
    lt_ofNat_iff (show 64 < 2 ^ 32 by decide), lt_ofNat_iff (show 1024 < 2 ^ 32 by decide),
    lt_ofNat_iff (show 16384 < 2 ^ 32 by decide), lt_ofNat_iff (show 262144 < 2 ^ 32 by decide)]
  iterate 5 refine if_congr Iff.rfl rfl ?_
  by_cases hd : 0xffffffff < ahead T e
  · simp only [if_pos hd, hcap]
    rfl
  · simp only [if_neg hd]
    rfl

/-- A timer is filed in an existing bucket. -/
theorem internalAddVec_lt (T e : ULong m) :
    ∃ tv i, internalAddVec T e = .vec tv i ∧ i < tv.size := by
  rw [internalAddVec_eq]
  split_ifs <;> exact ⟨_, _, rfl, Nat.mod_lt _ (by decide)⟩

/-! ## Filing -/

theorem wait_lt (T : ULong m) (tv : Tv) (i : Nat) : wait T tv i < tv.span :=
  Nat.mod_lt _ (by cases tv <;> decide)

theorem wait_tv1 (T : ULong m) (i : Nat) : wait T .tv1 i = (i + 64 - T.toNat % 64) % 64 := by
  simp [wait, Tv.span, Tv.size, Tv.shift, TVR_SIZE, TVR_BITS]

/-- The way from `x` on to `p`, around a circle of `n` places. -/
theorem revolution_succ {n p : Nat} (hp : p < n) (x : Nat) :
    (p + n - (x + 1) % n) % n + 1 =
      if (p + n - x % n) % n = 0 then n else (p + n - x % n) % n := by
  have hn : 0 < n := Nat.zero_lt_of_lt hp
  have hx : x % n < n := Nat.mod_lt x hn
  have hway (r : Nat) (hr : r < n) : (p + n - r) % n = if r ≤ p then p - r else p + n - r := by
    split
    · next hle => rw [Nat.sub_add_comm hle, Nat.add_mod_right, Nat.mod_eq_of_lt (by omega)]
    · exact Nat.mod_eq_of_lt (by omega)
  have hsucc : (x + 1) % n = if x % n + 1 = n then 0 else x % n + 1 := by
    rw [← Nat.mod_add_mod]
    split
    · next h => rw [h, Nat.mod_self]
    · exact Nat.mod_eq_of_lt (by omega)
  rw [hway _ (Nat.mod_lt _ hn), hway _ hx, hsucc]
  split_ifs <;> omega

theorem Tv.span_dvd (tv : Tv) (m : LongModel) : tv.span ∣ 2 ^ m.bits := by
  cases tv <;> cases m <;> decide

/-- Once its turn has come, a bucket waits for a whole revolution. -/
theorem wait_succ (T : ULong m) {tv : Tv} {i : Nat} (hi : i < tv.size) :
    wait (T + 1) tv i + 1 = if wait T tv i = 0 then tv.span else wait T tv i := by
  have hp : i * 2 ^ tv.shift < tv.span := by
    rw [Tv.span, Nat.mul_comm]
    exact Nat.mul_lt_mul_of_pos_left hi (Nat.two_pow_pos _)
  unfold wait
  rw [toNat_succ_mod, Nat.mod_mod_of_dvd _ (tv.span_dvd m), revolution_succ hp]

/-- The bucket of `tv1` a timer is filed in is run when the timer is due. -/
theorem wait_file_tv1 {T e : ULong m} {i : Nat} (h : internalAddVec T e = .vec .tv1 i) :
    wait T .tv1 i = delay T e := by
  have he := toNat_of_ahead T e
  have hT := T.isLt
  rw [internalAddVec_eq] at h
  have hw := wait_tv1 T i
  split_ifs at h with h1 h2 h3 h4 h5 <;> cases h
  · rw [delay_of_lt (lt_of_lt_of_le h1 (le_trans (by decide) (le_half m))), hw]
    cases m <;> simp only [LongModel.bits] at * <;> omega
  · rw [delay_of_le h5, hw]
    omega

/-- The bucket of a higher vector a timer is filed in is cascaded before the
timer is due, and not before the next tick is processed. -/
theorem wait_file {T e : ULong m} {tv : Tv} {i : Nat} (h : internalAddVec T e = .vec tv i)
    (htv : tv ≠ .tv1) : wait (T + 1) tv i + 1 ≤ ahead T e ∧ ahead T e < half m := by
  have he := toNat_of_ahead T e
  have hT := T.isLt
  have hT1 := toNat_succ_mod T
  rw [internalAddVec_eq] at h
  split_ifs at h with h1 h2 h3 h4 h5 h6 <;> cases h <;> try contradiction
  all_goals
    simp only [wait, half, Tv.span, Tv.size, Tv.shift, TVN_SIZE, TVR_BITS, TVN_BITS, Nat.shiftLeft_eq]
      at *
    cases m <;> simp only [LongModel.bits] at * <;> omega

theorem Tv.span_of_ne {tv : Tv} (htv : tv ≠ .tv1) : tv.span = 2 ^ tv.shift * 16 := by
  cases tv <;> first | rfl | exact absurd rfl htv

/-- The turn of a bucket is when the clock shows its index. -/
theorem add_wait_mod (T : ULong m) {tv : Tv} {i : Nat} (hi : i < tv.size) :
    (T.toNat + wait T tv i) % tv.span = i * 2 ^ tv.shift := by
  have hp : i * 2 ^ tv.shift < tv.span := by
    rw [Tv.span, Nat.mul_comm]
    exact Nat.mul_lt_mul_of_pos_left hi (Nat.two_pow_pos _)
  have hmod : T.toNat % tv.span < tv.span := Nat.mod_lt _ (Nat.zero_lt_of_lt hp)
  have hT := Nat.div_add_mod T.toNat tv.span
  have hsum : T.toNat + (i * 2 ^ tv.shift + tv.span - T.toNat % tv.span) =
      i * 2 ^ tv.shift + tv.span * (T.toNat / tv.span + 1) := by
    rw [Nat.mul_add, Nat.mul_one]
    omega
  rw [wait, Nat.add_mod_mod, hsum, Nat.add_mul_mod_self_left, Nat.mod_eq_of_lt hp]

/-- An expiry at the turn of the bucket, or a step of its level ahead if that is later,
has the index of the bucket. -/
theorem index_of_wait (T : ULong m) {tv : Tv} {i : Nat} (htv : tv ≠ .tv1) (hi : i < tv.size)
    (hw : wait T tv i ≠ 0) :
    (T + BitVec.ofNat _ (max (wait T tv i) (2 ^ tv.shift))).toNat / 2 ^ tv.shift % 16 = i := by
  have hspan := Tv.span_of_ne htv
  have hp : 0 < 2 ^ tv.shift := Nat.two_pow_pos _
  have hturn := add_wait_mod T hi
  set p := 2 ^ tv.shift
  set k := max (wait T tv i) p with hk
  have hkey : (T + BitVec.ofNat _ k).toNat % tv.span = (T.toNat + k) % tv.span := by
    rw [BitVec.toNat_add, BitVec.toNat_ofNat, Nat.add_mod_mod, Nat.mod_mod_of_dvd _ (tv.span_dvd m)]
  have hlate : (T.toNat + k) % tv.span = i * p + (k - wait T tv i) := by
    have hle : wait T tv i ≤ k := le_max_left _ _
    have hlt : i * p + (k - wait T tv i) < tv.span := by
      have hi16 : i + 1 ≤ 16 := lt_of_lt_of_le hi (by cases tv <;> first | decide | exact absurd rfl htv)
      have := Nat.mul_le_mul_right p hi16
      rw [Nat.add_mul, Nat.one_mul, Nat.mul_comm 16] at this
      rw [hspan]
      omega
    rw [show T.toNat + k = T.toNat + wait T tv i + (k - wait T tv i) by omega, Nat.add_mod, hturn,
      Nat.add_mod_mod, Nat.mod_eq_of_lt hlt]
  rw [← Nat.mod_mul_right_div_self, ← hspan, hkey, hlate, Nat.mul_comm, Nat.mul_add_div hp,
    Nat.div_eq_of_lt (by omega), Nat.add_zero]

/-- A bucket is chosen for some expiry, unless it is cascaded at the next tick. -/
theorem exists_file (T : ULong m) {tv : Tv} {i : Nat} (hi : i < tv.size)
    (hw : tv ≠ .tv1 → wait T tv i ≠ 0) : ∃ key, internalAddVec T key = .vec tv i := by
  have hh := le_half m
  have hlt := wait_lt T tv i
  rcases eq_or_ne tv .tv1 with rfl | htv
  · have h64 : wait T .tv1 i < 64 := hlt
    have he := toNat_of_ahead T (T + BitVec.ofNat _ (wait T .tv1 i))
    have hturn : (T.toNat + wait T .tv1 i) % 64 = i := by
      have := add_wait_mod T hi
      rwa [Tv.shift, Nat.pow_zero, Nat.mul_one] at this
    rw [ahead_self_add (by omega)] at he
    refine ⟨T + BitVec.ofNat _ (wait T .tv1 i), ?_⟩
    rw [internalAddVec_eq, ahead_self_add (by omega), if_pos h64, he,
      Nat.mod_mod_of_dvd _ (show 64 ∣ 2 ^ m.bits from Tv.span_dvd .tv1 m), hturn]
  · have hindex := index_of_wait T htv hi (hw htv)
    set k := max (wait T tv i) (2 ^ tv.shift) with hk
    have hge : 2 ^ tv.shift ≤ k := le_max_right _ _
    have hle : k < 2 ^ tv.shift * 16 := by
      have := Nat.two_pow_pos tv.shift
      rw [Tv.span_of_ne htv] at hlt
      omega
    have hmax : 2 ^ tv.shift * 16 ≤ 2 ^ 22 := by cases tv <;> decide
    refine ⟨T + BitVec.ofNat _ k, ?_⟩
    rw [internalAddVec_eq, ahead_self_add (by omega)]
    cases tv with
    | tv1 => exact absurd rfl htv
    | tv2 =>
      simp only [Tv.shift, TVR_BITS] at hge hle hindex
      rw [if_neg (by omega), if_pos (by omega), hindex]
    | tv3 =>
      simp only [Tv.shift, TVR_BITS, TVN_BITS] at hge hle hindex
      rw [if_neg (by omega), if_neg (by omega), if_pos (by omega), hindex]
    | tv4 =>
      simp only [Tv.shift, TVR_BITS, TVN_BITS] at hge hle hindex
      rw [if_neg (by omega), if_neg (by omega), if_neg (by omega), if_pos (by omega), hindex]
    | tv5 =>
      simp only [Tv.shift, TVR_BITS, TVN_BITS] at hge hle hindex
      rw [if_neg (by omega), if_neg (by omega), if_neg (by omega), if_neg (by omega),
        if_neg (by omega), if_neg (by omega), hindex]

/-! ## The due time of a bucket -/

theorem dueIn_tv1 (T : ULong m) (i : Nat) (e : ULong m) : dueIn T .tv1 i e = wait T .tv1 i := rfl

theorem dueIn_of_ne {tv : Tv} (htv : tv ≠ .tv1) (T : ULong m) (i : Nat) (e : ULong m) :
    dueIn T tv i e = wait T tv i + delay (T + BitVec.ofNat _ (wait T tv i)) e := by
  cases tv <;> first | rfl | exact absurd rfl htv

theorem delay_add {T e : ULong m} {k : Nat} (hk : k ≤ ahead T e) (h : ahead T e < half m) :
    delay (T + BitVec.ofNat _ k) e = ahead T e - k := by
  have ha := ahead_add hk
  rw [delay_of_lt (by omega), ha]

/-- A bucket of a higher vector gives the right due time exactly when it is
cascaded in time. -/
theorem dueIn_eq_delay_iff {tv : Tv} (htv : tv ≠ .tv1) (T : ULong m) (i : Nat) (e : ULong m) :
    dueIn T tv i e = delay T e ↔ wait T tv i ≤ delay T e := by
  rw [dueIn_of_ne htv]
  constructor
  · intro h
    omega
  · intro h
    by_cases hd : ahead T e < half m
    · rw [delay_of_lt hd] at h ⊢
      rw [delay_add h hd]
      omega
    · rw [delay_of_le (Nat.not_lt.mp hd)] at h ⊢
      have h0 : wait T tv i = 0 := by omega
      rw [h0]
      simpa using delay_of_le (Nat.not_lt.mp hd)

/-- A timer is filed where it is run when its delay is over. -/
theorem dueIn_file {T e : ULong m} {tv : Tv} {i : Nat} (h : internalAddVec T e = .vec tv i) :
    dueIn T tv i e = delay T e := by
  rcases eq_or_ne tv .tv1 with rfl | htv
  · rw [dueIn_tv1, wait_file_tv1 h]
  · obtain ⟨hw, hd⟩ := wait_file h htv
    obtain ⟨tv', i', h', hi⟩ := internalAddVec_lt T e
    rw [h] at h'
    cases h'
    have hs := wait_succ T hi
    have hlt := wait_lt T tv i
    rw [dueIn_eq_delay_iff htv, delay_of_lt hd]
    split at hs <;> omega

/-! ## One tick -/

/-- The bucket a timer is in after the cascades at `T`: a bucket of a higher
vector whose turn has come is filed again. -/
def settle (T : ULong m) (tv : Tv) (i : Nat) (e : ULong m) : Head :=
  if tv ≠ .tv1 ∧ wait T tv i = 0 then internalAddVec T e else .vec tv i

theorem dueIn_settle {T e : ULong m} {tv tv' : Tv} {i i' : Nat}
    (h : settle T tv i e = .vec tv' i') : dueIn T tv' i' e = dueIn T tv i e := by
  rw [settle] at h
  split at h
  · next hc =>
    rw [dueIn_file h, dueIn_of_ne hc.1, hc.2]
    simp
  · cases h
    rfl

/-- A timer is run at `T` exactly when the cascades at `T` leave it in the
bucket of `tv1` that `T` selects. -/
theorem dueIn_eq_zero_iff {T : ULong m} {tv : Tv} {i : Nat} (hi : i < tv.size) (e : ULong m) :
    dueIn T tv i e = 0 ↔ settle T tv i e = .vec .tv1 (T.toNat % 64) := by
  have tv1 : ∀ i, i < 64 → (wait T .tv1 i = 0 ↔ i = T.toNat % 64) := by
    intro i hi
    rw [wait_tv1]
    omega
  constructor
  · intro h
    by_cases hc : tv ≠ .tv1 ∧ wait T tv i = 0
    · obtain ⟨tv', i', hf, hi'⟩ := internalAddVec_lt T e
      have hs : settle T tv i e = .vec tv' i' := by rw [settle, if_pos hc, hf]
      have hd := dueIn_settle hs
      rw [h] at hd
      rcases eq_or_ne tv' .tv1 with rfl | htv'
      · rw [hs, (tv1 i' hi').mp hd]
      · have hw := wait_file hf htv'
        rw [dueIn_file hf, delay_of_lt hw.2] at hd
        omega
    · rw [settle, if_neg hc]
      rcases eq_or_ne tv .tv1 with rfl | htv
      · rw [(tv1 i hi).mp h]
      · rw [dueIn_of_ne htv] at h
        exact absurd ⟨htv, by omega⟩ hc
  · intro h
    rw [← dueIn_settle h]
    exact (tv1 _ (Nat.mod_lt _ (by decide))).mpr rfl

/-- A timer that is not run at `T` comes one tick closer. -/
theorem dueIn_succ {T e : ULong m} {tv tv' : Tv} {i i' : Nat} (hi : i < tv.size)
    (hs : settle T tv i e = .vec tv' i') (h : dueIn T tv i e ≠ 0) :
    dueIn (T + 1) tv' i' e + 1 = dueIn T tv i e := by
  have hi' : i' < tv'.size := by
    rw [settle] at hs
    split at hs
    · obtain ⟨tv₁, i₁, hf, hlt⟩ := internalAddVec_lt T e
      rw [hf] at hs
      cases hs
      exact hlt
    · cases hs
      exact hi
  rw [← dueIn_settle hs] at h ⊢
  have hw := wait_succ T hi'
  rcases eq_or_ne tv' .tv1 with rfl | htv'
  · rw [dueIn_tv1] at h ⊢
    rw [dueIn_tv1, hw, if_neg h]
  · rw [dueIn_of_ne htv', dueIn_of_ne htv']
    by_cases h0 : wait T tv' i' = 0
    · -- a bucket whose turn has come holds `t` only if `t` has just been filed in it
      have hf : internalAddVec T e = .vec tv' i' := by
        rw [settle] at hs
        split at hs
        · exact hs
        · next hc =>
          cases hs
          exact absurd ⟨htv', h0⟩ hc
      obtain ⟨hle, hd⟩ := wait_file hf htv'
      have hT : T + 1 + BitVec.ofNat _ (wait (T + 1) tv' i') =
          T + BitVec.ofNat _ (wait (T + 1) tv' i' + 1) := add_one_add T _
      rw [hT, delay_add hle hd, h0]
      have h0' := delay_add (k := 0) (Nat.zero_le _) hd
      rw [h0']
      omega
    · rw [if_neg h0] at hw
      have hT : T + 1 + BitVec.ofNat _ (wait (T + 1) tv' i') =
          T + BitVec.ofNat _ (wait (T + 1) tv' i' + 1) := add_one_add T _
      rw [hT, hw]
      omega

end Uki
