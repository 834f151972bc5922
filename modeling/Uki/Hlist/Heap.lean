import Uki.Lib.Thread
import Uki.List.Heap
import Mathlib.Logic.Function.Basic

/-!
# The lists with a single-pointer head of `uki/list.h`

Memory is a heap of `struct hlist_head` and `struct hlist_node` objects. A `pprev`
holds the address of a field: the `first` of a head or the `next` of a node. As in
`Uki.List.Heap`, each operation is the source's sequence of reads and writes, and
following a pointer that addresses nothing is a fault (`none`).
-/

set_option linter.style.nameCheck false

namespace Uki.Hlist

/-- The fields a `struct hlist_node **` can address. -/
inductive Field (η ν : Type) where
  | first (hd : η)
  | next (n : ν)
deriving DecidableEq, Repr

/-- `struct hlist_head`. -/
structure HlistHead (ν : Type) where
  first : Ptr ν

/-- `struct hlist_node`. -/
structure HlistNode (η ν : Type) where
  next : Ptr ν
  pprev : Ptr (Field η ν)

structure Heap (η ν : Type) where
  head : η → HlistHead ν
  node : ν → HlistNode η ν

variable {η ν : Type}

namespace Heap

/-- `*f`. -/
def load (h : Heap η ν) : Field η ν → Ptr ν
  | .first hd => (h.head hd).first
  | .next n => (h.node n).next

def pprev (h : Heap η ν) (n : ν) : Ptr (Field η ν) := (h.node n).pprev

theorem ext_fields {h k : Heap η ν} (hl : ∀ f, h.load f = k.load f)
    (hp : ∀ n, h.pprev n = k.pprev n) : h = k := by
  have hh : h.head = k.head := by
    funext hd
    exact congrArg HlistHead.mk (hl (.first hd))
  have hn : h.node = k.node := by
    funext n
    have hnext : (h.node n).next = (k.node n).next := hl (.next n)
    have hpprev : (h.node n).pprev = (k.node n).pprev := hp n
    calc h.node n = ⟨(h.node n).next, (h.node n).pprev⟩ := rfl
      _ = ⟨(k.node n).next, (k.node n).pprev⟩ := by rw [hnext, hpprev]
      _ = k.node n := rfl
  cases h
  cases k
  cases hh
  cases hn
  rfl

variable [DecidableEq ν]

def setPprev (h : Heap η ν) (n : ν) (p : Ptr (Field η ν)) : Heap η ν :=
  { h with node := Function.update h.node n { h.node n with pprev := p } }

/-- `if (p) p->pprev = q`. -/
def setPprevOf (h : Heap η ν) (p : Ptr ν) (q : Ptr (Field η ν)) : Option (Heap η ν) :=
  if p = .null then
    some h
  else do
    let n ← p.deref
    some (h.setPprev n q)

@[simp] theorem load_setPprev (h : Heap η ν) (n : ν) (x : Field η ν) (p : Ptr (Field η ν)) :
    (h.setPprev n p).load x = h.load x := by
  cases x with
  | first hd => rfl
  | next k =>
    simp only [load, setPprev, Function.update_apply]
    split
    · next he => rw [he]
    · rfl

@[simp] theorem pprev_setPprev (h : Heap η ν) (n x : ν) (p : Ptr (Field η ν)) :
    (h.setPprev n p).pprev x = if x = n then p else h.pprev x := by
  simp only [pprev, setPprev, Function.update_apply]
  split <;> rfl

variable [DecidableEq η]

/-- `*f = p`. -/
def store (h : Heap η ν) (f : Field η ν) (p : Ptr ν) : Heap η ν :=
  match f with
  | .first hd => { h with head := Function.update h.head hd ⟨p⟩ }
  | .next n => { h with node := Function.update h.node n { h.node n with next := p } }

@[simp] theorem load_store (h : Heap η ν) (f x : Field η ν) (p : Ptr ν) :
    (h.store f p).load x = if x = f then p else h.load x := by
  cases f <;> cases x <;> simp only [load, store, Function.update_apply, reduceCtorEq,
    Field.first.injEq, Field.next.injEq, if_false] <;> split <;> rfl

@[simp] theorem pprev_store (h : Heap η ν) (f : Field η ν) (n : ν) (p : Ptr ν) :
    (h.store f p).pprev n = h.pprev n := by
  cases f with
  | first hd => rfl
  | next k =>
    simp only [pprev, store, Function.update_apply]
    split
    · next he => rw [he]
    · rfl

end Heap

/-! ## `list.h` -/

section Operations

variable [DecidableEq η] [DecidableEq ν]

def initHlistNode (h : Heap η ν) (n : ν) : Heap η ν :=
  let h := h.store (.next n) .null
  h.setPprev n .null

def hlistUnhashed (h : Heap η ν) (n : ν) : Bool := h.pprev n == .null

def hlistEmpty (h : Heap η ν) (hd : η) : Bool := h.load (.first hd) == .null

def __hlistDel (h : Heap η ν) (n : ν) : Option (Heap η ν) := do
  let next := h.load (.next n)
  let pprev := h.pprev n
  let f ← pprev.deref
  let h := h.store f next
  h.setPprevOf next pprev

def hlistDel (h : Heap η ν) (n : ν) : Option (Heap η ν) := do
  let h ← __hlistDel h n
  let h := h.store (.next n) .listPoison1
  some (h.setPprev n .listPoison2)

def hlistDelInit (h : Heap η ν) (n : ν) : Option (Heap η ν) :=
  if !hlistUnhashed h n then do
    let h ← __hlistDel h n
    some (initHlistNode h n)
  else
    some h

def hlistAddHead (h : Heap η ν) (n : ν) (hd : η) : Option (Heap η ν) := do
  let first := h.load (.first hd)
  let h := h.store (.next n) first
  let h ← h.setPprevOf first (.to (.next n))
  let h := h.store (.first hd) (.to n)
  some (h.setPprev n (.to (.first hd)))

def hlistAddBefore (h : Heap η ν) (n next : ν) : Option (Heap η ν) := do
  let h := h.setPprev n (h.pprev next)
  let h := h.store (.next n) (.to next)
  let h := h.setPprev next (.to (.next n))
  let f ← (h.pprev n).deref
  some (h.store f (.to n))

def hlistAddBehind (h : Heap η ν) (n prev : ν) : Option (Heap η ν) :=
  let h := h.store (.next n) (h.load (.next prev))
  let h := h.store (.next prev) (.to n)
  let h := h.setPprev n (.to (.next prev))
  h.setPprevOf (h.load (.next n)) (.to (.next n))

def hlistAddFake (h : Heap η ν) (n : ν) : Heap η ν := h.setPprev n (.to (.next n))

def hlistFake (h : Heap η ν) (n : ν) : Bool := h.pprev n == .to (.next n)

def hlistIsSingularNode (h : Heap η ν) (n : ν) (hd : η) : Bool :=
  h.load (.next n) == .null && h.pprev n == .to (.first hd)

def hlistMoveList (h : Heap η ν) (old new : η) : Option (Heap η ν) := do
  let h := h.store (.first new) (h.load (.first old))
  let h ← h.setPprevOf (h.load (.first new)) (.to (.first new))
  some (h.store (.first old) .null)

end Operations

end Uki.Hlist
