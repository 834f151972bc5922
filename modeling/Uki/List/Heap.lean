import Uki.Lib.Ring

/-!
# The doubly linked lists of `uki/list.h`

Memory is a heap of `struct list_head` cells. The node type `ν` stands for the
addresses of the program's own list heads and entries. A pointer field holds
such an address or one of the constants below, and dereferencing a constant is
the fault it is in C (`none`).

Each operation is the source's sequence of pointer writes, in the source's
order, with every field read where the source reads it.
-/

set_option linter.style.nameCheck false

namespace Uki

/-- The values a `struct list_head *` takes: `NULL`, the constants of
`poison.h`, or the address of a node. -/
inductive Ptr (ν : Type) where
  | null
  | listPoison1
  | listPoison2
  | timerEntryStatic
  | to (n : ν)
deriving DecidableEq, Repr

/-- `struct list_head`. -/
structure ListHead (ν : Type) where
  next : Ptr ν
  prev : Ptr ν

def Heap (ν : Type) : Type := ν → ListHead ν

variable {ν : Type}

def Ptr.deref : Ptr ν → Option ν
  | .to n => some n
  | _ => none

@[simp] theorem Ptr.deref_to (n : ν) : (Ptr.to n).deref = some n := rfl

namespace Heap

def next (h : Heap ν) (n : ν) : Ptr ν := (h n).next
def prev (h : Heap ν) (n : ν) : Ptr ν := (h n).prev

theorem ext {h k : Heap ν} (hn : ∀ x, h.next x = k.next x) (hp : ∀ x, h.prev x = k.prev x) :
    h = k := by
  funext x
  have hn := hn x
  have hp := hp x
  simp only [next, prev] at hn hp
  cases hx : h x
  cases kx : k x
  simp_all

variable [DecidableEq ν]

def setNext (h : Heap ν) (n : ν) (p : Ptr ν) : Heap ν :=
  fun x => if x = n then { h x with next := p } else h x

def setPrev (h : Heap ν) (n : ν) (p : Ptr ν) : Heap ν :=
  fun x => if x = n then { h x with prev := p } else h x

@[simp] theorem next_setNext (h : Heap ν) (n x : ν) (p : Ptr ν) :
    (h.setNext n p).next x = if x = n then p else h.next x := by
  simp only [next, setNext]
  split <;> rfl

@[simp] theorem prev_setNext (h : Heap ν) (n x : ν) (p : Ptr ν) :
    (h.setNext n p).prev x = h.prev x := by
  simp only [prev, setNext]
  split <;> rfl

@[simp] theorem next_setPrev (h : Heap ν) (n x : ν) (p : Ptr ν) :
    (h.setPrev n p).next x = h.next x := by
  simp only [next, setPrev]
  split <;> rfl

@[simp] theorem prev_setPrev (h : Heap ν) (n x : ν) (p : Ptr ν) :
    (h.setPrev n p).prev x = if x = n then p else h.prev x := by
  simp only [prev, setPrev]
  split <;> rfl

end Heap

/-! ## `list.h` -/

section Operations

variable [DecidableEq ν]

def initListHead (h : Heap ν) (list : ν) : Heap ν :=
  let h := h.setNext list (.to list)
  h.setPrev list (.to list)

/-- `__list_add`. Without `CONFIG_DEBUG_LIST` its validity check is `true`. -/
def __listAdd (h : Heap ν) (new prev next : ν) : Heap ν :=
  let h := h.setPrev next (.to new)
  let h := h.setNext new (.to next)
  let h := h.setPrev new (.to prev)
  h.setNext prev (.to new)

def listAdd (h : Heap ν) (new head : ν) : Option (Heap ν) := do
  let next ← (h.next head).deref
  some (__listAdd h new head next)

def listAddTail (h : Heap ν) (new head : ν) : Option (Heap ν) := do
  let prev ← (h.prev head).deref
  some (__listAdd h new prev head)

def __listDel (h : Heap ν) (prev next : ν) : Heap ν :=
  let h := h.setPrev next (.to prev)
  h.setNext prev (.to next)

def __listDelEntry (h : Heap ν) (entry : ν) : Option (Heap ν) := do
  let prev ← (h.prev entry).deref
  let next ← (h.next entry).deref
  some (__listDel h prev next)

def listDel (h : Heap ν) (entry : ν) : Option (Heap ν) := do
  let h ← __listDelEntry h entry
  let h := h.setNext entry .listPoison1
  some (h.setPrev entry .listPoison2)

def listReplace (h : Heap ν) (old new : ν) : Option (Heap ν) := do
  let h := h.setNext new (h.next old)
  let next ← (h.next new).deref
  let h := h.setPrev next (.to new)
  let h := h.setPrev new (h.prev old)
  let prev ← (h.prev new).deref
  some (h.setNext prev (.to new))

def listReplaceInit (h : Heap ν) (old new : ν) : Option (Heap ν) := do
  let h ← listReplace h old new
  some (initListHead h old)

def listDelInit (h : Heap ν) (entry : ν) : Option (Heap ν) := do
  let h ← __listDelEntry h entry
  some (initListHead h entry)

def listMove (h : Heap ν) (list head : ν) : Option (Heap ν) := do
  let h ← __listDelEntry h list
  listAdd h list head

def listMoveTail (h : Heap ν) (list head : ν) : Option (Heap ν) := do
  let h ← __listDelEntry h list
  listAddTail h list head

def listBulkMoveTail (h : Heap ν) (head first last : ν) : Option (Heap ν) := do
  let firstPrev ← (h.prev first).deref
  let h := h.setNext firstPrev (h.next last)
  let lastNext ← (h.next last).deref
  let h := h.setPrev lastNext (h.prev first)
  let headPrev ← (h.prev head).deref
  let h := h.setNext headPrev (.to first)
  let h := h.setPrev first (h.prev head)
  let h := h.setNext last (.to head)
  some (h.setPrev head (.to last))

def listIsLast (h : Heap ν) (list head : ν) : Bool := h.next list == .to head

def listEmpty (h : Heap ν) (head : ν) : Bool := h.next head == .to head

def listRotateLeft (h : Heap ν) (head : ν) : Option (Heap ν) :=
  if !listEmpty h head then do
    let first ← (h.next head).deref
    listMoveTail h first head
  else
    some h

def listIsSingular (h : Heap ν) (head : ν) : Bool :=
  !listEmpty h head && h.next head == h.prev head

def __listCutPosition (h : Heap ν) (list head entry : ν) : Option (Heap ν) := do
  let newFirst := h.next entry
  let h := h.setNext list (h.next head)
  let listNext ← (h.next list).deref
  let h := h.setPrev listNext (.to list)
  let h := h.setPrev list (.to entry)
  let h := h.setNext entry (.to list)
  let h := h.setNext head newFirst
  let newFirst ← newFirst.deref
  some (h.setPrev newFirst (.to head))

def listCutPosition (h : Heap ν) (list head entry : ν) : Option (Heap ν) :=
  if listEmpty h head then
    some h
  else if listIsSingular h head ∧ h.next head ≠ .to entry ∧ head ≠ entry then
    some h
  else if entry = head then
    some (initListHead h list)
  else
    __listCutPosition h list head entry

def listCutBefore (h : Heap ν) (list head entry : ν) : Option (Heap ν) :=
  if h.next head = .to entry then
    some (initListHead h list)
  else do
    let h := h.setNext list (h.next head)
    let listNext ← (h.next list).deref
    let h := h.setPrev listNext (.to list)
    let h := h.setPrev list (h.prev entry)
    let listPrev ← (h.prev list).deref
    let h := h.setNext listPrev (.to list)
    let h := h.setNext head (.to entry)
    some (h.setPrev entry (.to head))

def __listSplice (h : Heap ν) (list prev next : ν) : Option (Heap ν) := do
  let first ← (h.next list).deref
  let last ← (h.prev list).deref
  let h := h.setPrev first (.to prev)
  let h := h.setNext prev (.to first)
  let h := h.setNext last (.to next)
  some (h.setPrev next (.to last))

def listSplice (h : Heap ν) (list head : ν) : Option (Heap ν) :=
  if !listEmpty h list then do
    let next ← (h.next head).deref
    __listSplice h list head next
  else
    some h

def listSpliceTail (h : Heap ν) (list head : ν) : Option (Heap ν) :=
  if !listEmpty h list then do
    let prev ← (h.prev head).deref
    __listSplice h list prev head
  else
    some h

def listSpliceInit (h : Heap ν) (list head : ν) : Option (Heap ν) :=
  if !listEmpty h list then do
    let next ← (h.next head).deref
    let h ← __listSplice h list head next
    some (initListHead h list)
  else
    some h

def listSpliceTailInit (h : Heap ν) (list head : ν) : Option (Heap ν) :=
  if !listEmpty h list then do
    let prev ← (h.prev head).deref
    let h ← __listSplice h list prev head
    some (initListHead h list)
  else
    some h

end Operations

end Uki
