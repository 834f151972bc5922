import Uki.Lib.Cas

/-!
# `set_mask_bits` and `bit_clear_unless`

The two macros of `bitops.h` update a word that other threads may update at the same
time: they load it, compute a new value, and start over when `cmpxchg` finds that the
word has changed. `ACCESS_ONCE` and `cmpxchg` are not part of the sources. They are a
parameter here, of which is assumed that each is one step, and that `cmpxchg` returns the
word it finds and stores exactly when that is the old value (`Primitives.Lawful`).

Results:
1. `mask_updates_atomic`: whatever the threads do, the calls behave as if they were made
   one after another, and a call loops only while other calls store.
2. `mask_updates_not_lost`: every bit of the word is as the last call left it that wrote
   the bit.
-/

namespace Uki

open Cas

variable {w : Nat}

def setMaskBits (mask bits old : BitVec w) : Attempt (BitVec w) (BitVec w) :=
  let new := old &&& ~~~mask ||| bits
  .swap new new

/-- `!(old & test)` is also the value of the macro. -/
def bitClearUnless (clear test old : BitVec w) : Attempt (BitVec w) Bool :=
  let new := old &&& ~~~clear
  if old &&& test = 0 then .swap new true else .quit false

/-- A call of one of the macros. -/
inductive MaskCall (w : Nat) where
  | setMaskBits (mask bits : BitVec w)
  | bitClearUnless (clear test : BitVec w)
deriving DecidableEq

/-- What a call yields: a word, or a truth value. -/
abbrev MaskValue (w : Nat) : Type := BitVec w ⊕ Bool

namespace MaskCall

def attempt (c : MaskCall w) (old : BitVec w) : Attempt (BitVec w) (MaskValue w) :=
  match c with
  | .setMaskBits mask bits => (Uki.setMaskBits mask bits old).map .inl
  | .bitClearUnless clear test => (Uki.bitClearUnless clear test old).map .inr

/-- The call when nobody else touches the word. -/
def alone (v : BitVec w) : MaskCall w → BitVec w × MaskValue w
  | .setMaskBits mask bits => (v &&& ~~~mask ||| bits, .inl (v &&& ~~~mask ||| bits))
  | .bitClearUnless clear test =>
    if v &&& test = 0 then (v &&& ~~~clear, .inr true) else (v, .inr false)

/-- The calls made one after another, with what they yield. -/
def allAlone : BitVec w → List (MaskCall w) → BitVec w × List (MaskValue w)
  | v, [] => (v, [])
  | v, c :: cs =>
    let (v, r) := c.alone v
    let (v, rs) := allAlone v cs
    (v, r :: rs)

theorem effect_attempt (c : MaskCall w) (v : BitVec w) : (c.attempt v).effect v = c.alone v := by
  cases c with
  | setMaskBits mask bits => rfl
  | bitClearUnless clear test =>
    simp only [attempt, Uki.bitClearUnless, alone]
    split
    · rfl
    · rfl

theorem allAlone_of_replays {ι : Type} {a b : BitVec w} {xs : List (ι × MaskCall w × MaskValue w)}
    (h : Replays attempt a xs b) :
    allAlone a (xs.map fun x => x.2.1) = (b, xs.map fun x => x.2.2) := by
  induction xs generalizing a with
  | nil =>
    cases h
    rfl
  | cons x xs ih =>
    obtain ⟨i, c, r⟩ := x
    obtain ⟨hr, h⟩ := h
    rw [effect_attempt] at hr h
    simp only [List.map_cons, allAlone, ih h, hr]

/-- What a call that yielded `r` has written to bit `k`. -/
def wrote (k : Nat) (c : MaskCall w) (r : MaskValue w) : Option Bool :=
  match c, r with
  | .setMaskBits mask bits, _ =>
    if bits.getLsbD k then some true else if mask.getLsbD k then some false else none
  | .bitClearUnless clear _, .inr true => if clear.getLsbD k then some false else none
  | .bitClearUnless _ _, _ => none

theorem getLsbD_alone (c : MaskCall w) (v : BitVec w) (k : Nat) :
    (c.alone v).1.getLsbD k = (c.wrote k (c.alone v).2).getD (v.getLsbD k) := by
  have hlt : v.getLsbD k = true → k < w := BitVec.lt_of_getLsbD
  cases c with
  | setMaskBits mask bits =>
    cases hb : bits.getLsbD k with
    | true => simp [alone, wrote, hb]
    | false =>
      cases hm : mask.getLsbD k with
      | true => simp [alone, wrote, hb, hm]
      | false => simpa [alone, wrote, hb, hm] using hlt
  | bitClearUnless clear test =>
    rw [alone]
    split
    · cases hc : clear.getLsbD k with
      | true => simp [wrote, hc]
      | false => simpa [wrote, hc] using hlt
    · rfl

/-- The last call that wrote the bit decides. -/
theorem getLsbD_of_replays {ι : Type} {a b : BitVec w} {xs : List (ι × MaskCall w × MaskValue w)}
    (h : Replays attempt a xs b) (k : Nat) :
    b.getLsbD k =
      (xs.filterMap fun x => x.2.1.wrote k x.2.2).getLast?.getD (a.getLsbD k) := by
  induction xs generalizing a with
  | nil =>
    cases h
    rfl
  | cons x xs ih =>
    obtain ⟨i, c, r⟩ := x
    obtain ⟨hr, h⟩ := h
    rw [effect_attempt] at hr h
    rw [ih h, getLsbD_alone, hr]
    cases hw : c.wrote k r with
    | none => simp only [List.filterMap_cons, hw, Option.getD_none]
    | some y => simp only [List.filterMap_cons, hw, List.getLast?_cons, Option.getD_some]

end MaskCall

section Threads

variable {ι μ : Type} [DecidableEq ι] {P : Primitives μ (BitVec w)} {mem : μ}
  {as : List (Cas.Act ι (MaskCall w))} {s : State ι (MaskCall w) (BitVec w) μ}
  {ev : List (Cas.Event ι (MaskCall w) (MaskValue w))}

/-- The word and the values that the calls yield are those of the same calls made one
after another in the order of their returns. Every thread gets its values in the order
of its calls, and repeats a call at most once for every store of another thread. -/
theorem mask_updates_atomic (hP : P.Lawful)
    (h : (loops ι P MaskCall.attempt).run (start ι (MaskCall w) (BitVec w) mem) as =
      some (s, ev)) :
    MaskCall.allAlone (P.load mem) ((history ev).map fun x => x.2.1) =
        (P.load s.mem, (history ev).map fun x => x.2.2) ∧
      ∀ i, callsBy i ev = (returnsBy i ev).map Prod.fst ++ (s.pc i).pending ∧
        retries i ev ≤ storesBeside i ev :=
  ⟨MaskCall.allAlone_of_replays (loops_atomic hP h),
    fun i => ⟨loops_answered hP h i, loops_retries hP h i⟩⟩

/-- Two threads load the word before either stores: the second one has to start over. -/
theorem mask_updates_atomic_test1 :
    ∃ (s : State (Fin 2) (MaskCall 8) (BitVec 8) (BitVec 8))
      (ev : List (Cas.Event (Fin 2) (MaskCall 8) (MaskValue 8))),
      (loops (Fin 2) (Primitives.cell _) MaskCall.attempt).run (start _ _ _ 0x0f)
          [.call 0 (.setMaskBits 0xf0 0x10), .call 1 (.bitClearUnless 0x03 0x80), .load 1, .load 0,
            .swap 0, .swap 1, .load 1, .swap 1] = some (s, ev) ∧
        MaskCall.allAlone 0x0f ((history ev).map fun x => x.2.1) =
          (0x1c, (history ev).map fun x => x.2.2) ∧ retries 1 ev = 1 ∧ retries 1 ev ≤ 1 := by
  have h : ((loops (Fin 2) (Primitives.cell _) MaskCall.attempt).run (start _ _ _ 0x0f)
      [.call 0 (.setMaskBits 0xf0 0x10), .call 1 (.bitClearUnless 0x03 0x80), .load 1, .load 0,
        .swap 0, .swap 1, .load 1, .swap 1]).map
      (fun p => (p.1.mem, retries 1 p.2, storesBeside 1 p.2)) = some ((0x1c : BitVec 8), 1, 1) := by
    decide +kernel
  obtain ⟨⟨s, ev⟩, hr, h⟩ := Option.map_eq_some_iff.mp h
  simp only [Prod.mk.injEq] at h
  obtain ⟨hatomic, hthreads⟩ := mask_updates_atomic (Primitives.lawful_cell _) hr
  have hle := (hthreads 1).2
  have hload : (Primitives.cell (BitVec 8)).load s.mem = 0x1c := h.1
  rw [hload] at hatomic
  rw [h.2.2] at hle
  exact ⟨s, ev, hr, hatomic, h.2.1, hle⟩

/-- Every bit is as the last call that wrote it has left it, in the order of returns. -/
theorem mask_updates_not_lost (hP : P.Lawful)
    (h : (loops ι P MaskCall.attempt).run (start ι (MaskCall w) (BitVec w) mem) as =
      some (s, ev)) (k : Nat) :
    (P.load s.mem).getLsbD k =
      ((history ev).filterMap fun x => x.2.1.wrote k x.2.2).getLast?.getD
        ((P.load mem).getLsbD k) :=
  MaskCall.getLsbD_of_replays (loops_atomic hP h) k

/-- The bits of both calls are in the word. -/
theorem mask_updates_not_lost_test1 :
    ∃ (s : State (Fin 2) (MaskCall 8) (BitVec 8) (BitVec 8))
      (ev : List (Cas.Event (Fin 2) (MaskCall 8) (MaskValue 8))),
      (loops (Fin 2) (Primitives.cell _) MaskCall.attempt).run (start _ _ _ 0x0f)
          [.call 0 (.setMaskBits 0xf0 0x10), .call 1 (.bitClearUnless 0x03 0x80), .load 1, .load 0,
            .swap 0, .swap 1, .load 1, .swap 1] = some (s, ev) ∧
        history ev =
          [(0, .setMaskBits 0xf0 0x10, .inl 0x1f), (1, .bitClearUnless 0x03 0x80, .inr true)] ∧
        s.mem.getLsbD 4 = true ∧ s.mem.getLsbD 0 = false ∧ s.mem.getLsbD 2 = true := by
  have h : ((loops (Fin 2) (Primitives.cell _) MaskCall.attempt).run (start _ _ _ 0x0f)
      [.call 0 (.setMaskBits 0xf0 0x10), .call 1 (.bitClearUnless 0x03 0x80), .load 1, .load 0,
        .swap 0, .swap 1, .load 1, .swap 1]).map (fun p => history p.2) =
      some [(0, .setMaskBits 0xf0 0x10, .inl (0x1f : BitVec 8)),
        (1, .bitClearUnless 0x03 0x80, .inr true)] := by
    decide +kernel
  obtain ⟨⟨s, ev⟩, hr, h⟩ := Option.map_eq_some_iff.mp h
  have key (k : Nat) : s.mem.getLsbD k = _ := mask_updates_not_lost (Primitives.lawful_cell _) hr k
  simp only at h
  exact ⟨s, ev, hr, h, by rw [key, h]; rfl, by rw [key, h]; rfl, by rw [key, h]; rfl⟩

end Threads

end Uki
