import Uki.List.Traverse

/-!
# The stack of `list_test.c`

The tests push numbers to a list and pop them again. `list_del(head.list.next)` on an
empty list deletes the head itself, and `kfree` then gets an object that `kmalloc` has not
made. `listtest_is_a_stack` says that the three functions behave in every program as those
of a stack, and abort where it is popped while it is empty.
-/

namespace Uki

variable {ν : Type} [DecidableEq ν]

/-! ## `list_test.c` -/

/-- The list entries of `struct test_data`, with their `no`, and which of them are objects
from `kmalloc` that are not freed yet. -/
structure TestData (ν : Type) where
  list : Heap ν
  no : ν → Int
  live : ν → Bool

/-- `free` aborts on what `malloc` has not made, and on what is freed already. -/
def kfree (s : TestData ν) (ptr : ν) : Option (TestData ν) :=
  if s.live ptr = true then
    some { s with live := Function.update s.live ptr false }
  else
    none

/-- `new` is what `kmalloc` yields, unless it fails. -/
def listtestPushNo (head : ν) (s : TestData ν) (no : Int) (new : Option ν) : Option (TestData ν) :=
  match new with
  | none => some s
  | some new => do
    let s := { s with
      no := Function.update s.no new no, live := Function.update s.live new true }
    let h ← listAdd s.list new head
    some { s with list := h }

def listtestPop (head : ν) (s : TestData ν) : Option (TestData ν) := do
  let ptr ← (s.list.next head).deref
  let h ← listDel s.list ptr
  kfree { s with list := h } ptr

/-- The numbers that are printed. -/
def listtestShowList (head : ν) (fuel : Nat) (s : TestData ν) : Option (List Int) := do
  let (out, _) ← listForEach (fun out h x => some (out ++ [s.no x], h)) fuel [s.no head] s.list head
  some out

inductive ListtestCall (ν : Type) where
  | pushNo (no : Int) (new : Option ν)
  | pop
  | showList

/-- A program, with what it prints. -/
def listtestRun (head : ν) (fuel : Nat) :
    TestData ν → List (ListtestCall ν) → Option (TestData ν × List (List Int))
  | s, [] => some (s, [])
  | s, .pushNo no new :: cs => do
    let s ← listtestPushNo head s no new
    listtestRun head fuel s cs
  | s, .pop :: cs => do
    let s ← listtestPop head s
    listtestRun head fuel s cs
  | s, .showList :: cs => do
    let out ← listtestShowList head fuel s
    let (s, outs) ← listtestRun head fuel s cs
    some (s, out :: outs)

/-! ## A stack -/

/-- The numbers with the objects they are in. -/
abbrev Stack (ν : Type) : Type := List (ν × Int)

/-- What the program prints; `none` when it pops the empty stack. -/
def stackRun (bottom : Int) : Stack ν → List (ListtestCall ν) → Option (List (List Int))
  | _, [] => some []
  | xs, .pushNo _ none :: cs => stackRun bottom xs cs
  | xs, .pushNo no (some new) :: cs => stackRun bottom ((new, no) :: xs) cs
  | [], .pop :: _ => none
  | _ :: xs, .pop :: cs => stackRun bottom xs cs
  | xs, .showList :: cs =>
    (stackRun bottom xs cs).map fun outs => (bottom :: xs.map Prod.snd) :: outs

/-- `kmalloc` does not yield the head nor an object that is in the stack. -/
def FreshPushes (head : ν) : Stack ν → List (ListtestCall ν) → Prop
  | _, [] => True
  | xs, .pushNo _ none :: cs => FreshPushes head xs cs
  | xs, .pushNo no (some new) :: cs =>
    new ≠ head ∧ new ∉ xs.map Prod.fst ∧ FreshPushes head ((new, no) :: xs) cs
  | [], .pop :: _ => True
  | _ :: xs, .pop :: cs => FreshPushes head xs cs
  | xs, .showList :: cs => FreshPushes head xs cs

/-! ## The functions on memory -/

variable {head new : ν} {s : TestData ν} {xs : Stack ν} {bottom : Int} {fuel : Nat}

/-- Memory holds the numbers of the stack, in its order. -/
structure Stacked (head : ν) (bottom : Int) (s : TestData ν) (xs : Stack ν) : Prop where
  list : Represents s.list (Heads.set (fun _ => none) head (some (xs.map Prod.fst)))
  no : ∀ x ∈ xs, s.no x.1 = x.2
  bottom : s.no head = bottom
  live : ∀ x ∈ xs, s.live x.1 = true
  /-- the head is no object from `kmalloc` -/
  static : s.live head = false

theorem listtestPushNo_spec (S : Stacked head bottom s xs) (hne : new ≠ head)
    (hnew : new ∉ xs.map Prod.fst) (no : Int) :
    ∃ s', listtestPushNo head s no (some new) = some s' ∧
      Stacked head bottom s' ((new, no) :: xs) := by
  have hav : (Heads.set (fun _ => none) head (some (xs.map Prod.fst))).Avoids new := by
    refine (avoids_none new).set_some fun hm => ?_
    rcases List.mem_cons.mp hm with hm | hm
    · exact hne hm
    · exact hnew hm
  obtain ⟨k, hk, R⟩ := represents_listAdd S.list (Heads.set_self _ _ _) hav.unlinked hne
  rw [hav.set_none_eq, Heads.set_set] at R
  have hxn {x : ν × Int} (hx : x ∈ xs) : x.1 ≠ new := fun he => hnew (he ▸ List.mem_map_of_mem hx)
  refine ⟨_, by simp [listtestPushNo, hk]; rfl, R, fun x hx => ?_, ?_, fun x hx => ?_, ?_⟩
  · rcases List.mem_cons.mp hx with rfl | hx
    · exact Function.update_self ..
    · exact (Function.update_of_ne (hxn hx) ..).trans (S.no x hx)
  · exact (Function.update_of_ne hne.symm ..).trans S.bottom
  · rcases List.mem_cons.mp hx with rfl | hx
    · exact Function.update_self ..
    · exact (Function.update_of_ne (hxn hx) ..).trans (S.live x hx)
  · exact (Function.update_of_ne hne.symm ..).trans S.static

theorem listtestPop_spec {x : ν × Int} (S : Stacked head bottom s (x :: xs)) :
    ∃ s', listtestPop head s = some s' ∧ Stacked head bottom s' xs := by
  have hx : Heads.set (fun _ => none) head (some ((x :: xs).map Prod.fst)) head =
      some ([] ++ x.1 :: xs.map Prod.fst) := Heads.set_self _ _ _
  have hnext : s.list.next head = .to x.1 := S.list.toward_head (d := .fwd) hx
  have hlive : s.live x.1 = true := S.live x List.mem_cons_self
  obtain ⟨k, hk, R⟩ := represents_listDel S.list hx
  rw [Heads.set_set] at R
  have hnd := (List.nodup_cons.mp (S.list.ring head _ hx).nodup).2
  have hxn {y : ν × Int} (hy : y ∈ xs) : y.1 ≠ x.1 := fun he =>
    (List.nodup_cons.mp hnd).1 (he ▸ List.mem_map_of_mem hy)
  refine ⟨{ list := k, no := s.no, live := Function.update s.live x.1 false },
    by simp [listtestPop, kfree, hnext, hk, hlive], R, fun y hy => ?_, S.bottom, fun y hy => ?_, ?_⟩
  · exact S.no y (List.mem_cons_of_mem _ hy)
  · exact (Function.update_of_ne (hxn hy) ..).trans (S.live y (List.mem_cons_of_mem _ hy))
  · have hxh : head ≠ x.1 := fun he => by
      rw [← he, S.static] at hlive
      cases hlive
    exact (Function.update_of_ne hxh ..).trans S.static

/-- The head is its own successor, so it is deleted and handed to `kfree`. -/
theorem listtestPop_empty (S : Stacked head bottom s []) : listtestPop head s = none := by
  have hl := S.list.link_of_nil (Heads.set_self _ _ _)
  have hd : __listDelEntry s.list head = some (__listDel s.list head head) := by
    simp [__listDelEntry, hl.1, hl.2]
  simp [listtestPop, hl.1, listDel, hd, kfree, S.static]

omit [DecidableEq ν] in
theorem foldlM_note (no : ν → Int) (h : Heap ν) (ns : List ν) (out : List Int) :
    ns.foldlM (fun (s : List Int × Heap ν) y => some (s.1 ++ [no y], s.2)) (out, h) =
      some (out ++ ns.map no, h) := by
  induction ns generalizing out with
  | nil => simp
  | cons n ns ih => simp [ih]

theorem listtestShowList_spec (S : Stacked head bottom s xs) (hf : xs.length < fuel) :
    listtestShowList head fuel s = some (bottom :: xs.map Prod.snd) := by
  have hleaves : LeavesRing (fun (out : List Int) (h : Heap ν) x => some (out ++ [s.no x], h)) head
      (xs.map Prod.fst) := by
    intro out h x out' h' he y _
    cases he
    rfl
  have hno : (xs.map Prod.fst).map s.no = xs.map Prod.snd := by
    rw [List.map_map]
    exact List.map_congr_left S.no
  rw [listtestShowList, listForEach_eq S.list (Heads.set_self _ _ _) hleaves (by simpa using hf),
    foldlM_note, hno, S.bottom]
  rfl

/-! ## Programs -/

theorem listtestRun_eq {prog : List (ListtestCall ν)} (S : Stacked head bottom s xs)
    (hfresh : FreshPushes head xs prog) (hf : xs.length + prog.length < fuel) :
    (listtestRun head fuel s prog).map Prod.snd = stackRun bottom xs prog := by
  induction prog generalizing s xs with
  | nil => cases xs <;> rfl
  | cons c cs ih =>
    rw [List.length_cons] at hf
    cases c with
    | pushNo no new =>
      cases new with
      | none =>
        have hstack : stackRun bottom xs (.pushNo no none :: cs) = stackRun bottom xs cs := by
          cases xs <;> rfl
        rw [hstack]
        exact ih S (by cases xs <;> exact hfresh) (by omega)
      | some new =>
        have hfresh : new ≠ head ∧ new ∉ xs.map Prod.fst ∧
            FreshPushes head ((new, no) :: xs) cs := by
          cases xs <;> exact hfresh
        obtain ⟨hne, hnew, hfresh⟩ := hfresh
        obtain ⟨s', hs', S'⟩ := listtestPushNo_spec S hne hnew no
        have hstack : stackRun bottom xs (.pushNo no (some new) :: cs) =
            stackRun bottom ((new, no) :: xs) cs := by
          cases xs <;> rfl
        simp only [listtestRun, hs', hstack]
        exact ih S' hfresh (by rw [List.length_cons]; omega)
    | pop =>
      cases xs with
      | nil =>
        simp only [listtestRun, listtestPop_empty S]
        rfl
      | cons x xs =>
        obtain ⟨s', hs', S'⟩ := listtestPop_spec S
        rw [List.length_cons] at hf
        simp only [listtestRun, hs', stackRun]
        exact ih S' hfresh (by omega)
    | showList =>
      have hrest := ih S (by cases xs <;> exact hfresh) (by omega)
      have hshow := listtestShowList_spec S (show xs.length < fuel by omega)
      have hstack : stackRun bottom xs (.showList :: cs) =
          (stackRun bottom xs cs).map fun outs => (bottom :: xs.map Prod.snd) :: outs := by
        cases xs <;> rfl
      rw [hstack, ← hrest]
      cases hr : listtestRun head fuel s cs with
      | none => simp [listtestRun, hshow, hr]
      | some r => simp [listtestRun, hshow, hr]

/-- After `INIT_LIST_HEAD` on the static head, every program of pushes, pops and prints
prints what a stack holds at these points, and it aborts exactly when it pops the stack
while that is empty. -/
theorem listtest_is_a_stack (memory : TestData ν) (head : ν) (prog : List (ListtestCall ν))
    (hstatic : memory.live head = false) (hfresh : FreshPushes head [] prog)
    (hf : prog.length < fuel) :
    (listtestRun head fuel { memory with list := initListHead memory.list head } prog).map
        Prod.snd =
      stackRun (memory.no head) [] prog := by
  have R := represents_init (represents_none memory.list) (n := head) fun _ _ hx => nomatch hx
  refine listtestRun_eq ⟨R, by simp, rfl, by simp, hstatic⟩ hfresh ?_
  rwa [List.length_nil, Nat.zero_add]

/-- `test2` of `list_test.c` with a print between its pops, where `kmalloc` yields a freed
object again, and the same with one pop more. -/
theorem listtest_is_a_stack_test1 :
    let memory : TestData Nat := ⟨fun _ => ⟨.null, .null⟩, fun _ => -1, fun _ => false⟩
    let start := { memory with list := initListHead memory.list 0 }
    let test2 : List (ListtestCall Nat) := [.pushNo 0 (some 1), .pushNo 1 (some 2), .showList,
      .pop, .showList, .pushNo 2 (some 2), .showList, .pop, .pop, .showList]
    (listtestRun 0 12 start test2).map Prod.snd = some [[-1, 1, 0], [-1, 0], [-1, 2, 0], [-1]] ∧
      (listtestRun 0 12 start (test2 ++ [.pop])).map Prod.snd = none := by
  constructor
  · exact listtest_is_a_stack ⟨fun _ => ⟨.null, .null⟩, fun _ => -1, fun _ => false⟩ 0 _ rfl
      (by simp [FreshPushes]) (by decide)
  · exact listtest_is_a_stack ⟨fun _ => ⟨.null, .null⟩, fun _ => -1, fun _ => false⟩ 0 _ rfl
      (by simp [FreshPushes]) (by decide)

end Uki
