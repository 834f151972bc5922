import Uki.Hlist.Heap
import Mathlib.Data.List.Basic

/-!
# What the hlist operations do to the lists of a heap

`IsList h hd xs` says that in the heap `h` the head `hd` represents the sequence `xs`,
`Represents h L` that every head `hd` represents `L hd` and that no node is in two
lists. All operations are made of one write, `Heap.tie`, which sets a field and the
`pprev` of the node it then points at; `OnlyWrites` names the objects a call may write.
-/

set_option linter.style.nameCheck false

namespace Uki.Hlist

open TieThread

variable {η ν : Type} {h k l : Heap η ν} {hd : η} {hds : List η} {n : ν} {xs ns A B : List ν}

/-- The pointer to the node `p`, or `NULL`. -/
def ptr : Option ν → Ptr ν
  | none => .null
  | some n => .to n

/-- The field `f` is `NULL`, or points at the node whose `next` is given and whose
`pprev` is the address of `f`. -/
def Heap.Tied (h : Heap η ν) (f : Field η ν) : Option (Field η ν) → Prop
  | none => h.load f = .null
  | some (.next n) => h.load f = .to n ∧ h.pprev n = .to f
  | some (.first _) => False

/-- `first` and `next` visit exactly `xs` and end in `NULL`, the nodes are distinct, and
each `pprev` is the address of the field that points at its node. -/
structure IsList (h : Heap η ν) (hd : η) (xs : List ν) : Prop where
  nodup : xs.Nodup
  thread : Thread h.Tied (.first hd) (xs.map .next)

structure Represents (h : Heap η ν) (L : η → List ν) : Prop where
  list : ∀ hd, IsList h hd (L hd)
  disjoint : ∀ hd hd', hd ≠ hd' → List.Disjoint (L hd) (L hd')

/-- The field that points at what follows the prefix `A`. -/
def fieldAfter (hd : η) (A : List ν) : Field η ν := (A.map .next).getLastD (.first hd)

theorem fieldAfter_mem (hA : ∀ x ∈ A, x ∈ ns) :
    fieldAfter hd A ∈ [hd].map Field.first ++ ns.map Field.next := by
  have hm : fieldAfter hd A ∈ .first hd :: A.map Field.next := List.getLastD_mem_cons
  rcases List.mem_cons.mp hm with he | hm
  · simp [he]
  · obtain ⟨x, hx, he⟩ := List.mem_map.mp hm
    simp [← he, hA x hx]

theorem Heap.Tied.load_eq {f : Field η ν} {p : Option ν} (ht : h.Tied f (p.map .next)) :
    h.load f = ptr p := by
  cases p with
  | none => exact ht
  | some n => exact ht.1

namespace IsList

theorem nodup_fields (hl : IsList h hd xs) : (.first hd :: xs.map Field.next).Nodup := by
  rw [List.nodup_cons]
  refine ⟨by simp, hl.nodup.map fun x y he => ?_⟩
  cases he
  rfl

theorem notMem_fields (hn : n ∉ xs) : Field.next n ∉ .first hd :: xs.map Field.next := by
  simpa using hn

/-- What the field before a position points at. -/
theorem tied_at (hl : IsList h hd (A ++ B)) : h.Tied (fieldAfter hd A) (B.head?.map .next) := by
  have ht := hl.thread
  rw [List.map_append] at ht
  have hh := ht.drop.head
  rwa [List.head?_map] at hh

theorem load_at (hl : IsList h hd (A ++ B)) : h.load (fieldAfter hd A) = ptr B.head? :=
  hl.tied_at.load_eq

theorem pprev_at (hl : IsList h hd (A ++ n :: B)) : h.pprev n = .to (fieldAfter hd A) :=
  hl.tied_at.2

theorem load_next (hl : IsList h hd (A ++ n :: B)) : h.load (.next n) = ptr B.head? := by
  have hl' : IsList h hd ((A ++ [n]) ++ B) := by simpa using hl
  have he : fieldAfter hd (A ++ [n]) = .next n := by
    rw [fieldAfter, List.map_append]
    exact List.getLastD_concat
  rw [← he]
  exact hl'.load_at

/-- A listed node is tied to the field before it. -/
theorem pprev_ne_null (hl : IsList h hd xs) (hn : n ∈ xs) : h.pprev n ≠ .null := by
  obtain ⟨A, B, rfl⟩ := List.append_of_mem hn
  rw [hl.pprev_at]
  exact fun he => nomatch he

end IsList

/-! ## Frames -/

/-- `k` differs from `h` at most in the given heads and nodes. -/
structure OnlyWrites (h k : Heap η ν) (hds : List η) (ns : List ν) : Prop where
  head : ∀ hd, hd ∉ hds → k.head hd = h.head hd
  node : ∀ n, n ∉ ns → k.node n = h.node n

theorem OnlyWrites.refl (h : Heap η ν) (hds : List η) (ns : List ν) : OnlyWrites h h hds ns :=
  ⟨fun _ _ => rfl, fun _ _ => rfl⟩

theorem OnlyWrites.trans (hw : OnlyWrites h k hds ns) (hw' : OnlyWrites k l hds ns) :
    OnlyWrites h l hds ns :=
  ⟨fun hd hm => (hw'.head hd hm).trans (hw.head hd hm),
    fun n hm => (hw'.node n hm).trans (hw.node n hm)⟩

/-- A list that holds none of the written objects is untouched. -/
theorem IsList.frame (hl : IsList h hd xs) (hw : OnlyWrites h k hds ns) (hh : hd ∉ hds)
    (hn : ∀ x ∈ xs, x ∉ ns) : IsList k hd xs := by
  refine ⟨hl.nodup, hl.thread.mono fun f q hf hq ht => ?_⟩
  have hload : k.load f = h.load f := by
    rcases List.mem_cons.mp hf with rfl | hf
    · exact congrArg HlistHead.first (hw.head hd hh)
    · obtain ⟨x, hx, rfl⟩ := List.mem_map.mp hf
      exact congrArg HlistNode.next (hw.node x (hn x hx))
  cases q with
  | none => exact hload.trans ht
  | some q =>
    cases q with
    | first _ => exact ht
    | next x =>
      obtain ⟨y, hy, he⟩ := List.mem_map.mp (hq _ rfl)
      cases he
      exact ⟨hload.trans ht.1, (congrArg HlistNode.pprev (hw.node x (hn x hy))).trans ht.2⟩

/-- A heap represents the new family when the written heads represent their new
sequences and nobody else's nodes were written. -/
theorem Represents.of_writes {L L' : η → List ν} (R : Represents h L)
    (hw : OnlyWrites h k hds ns) (hin : ∀ hd ∈ hds, IsList k hd (L' hd))
    (hout : ∀ hd, hd ∉ hds → L' hd = L hd ∧ ∀ x ∈ L hd, x ∉ ns)
    (hdis : ∀ hd hd', hd ≠ hd' → List.Disjoint (L' hd) (L' hd')) : Represents k L' := by
  refine ⟨fun hd => ?_, hdis⟩
  by_cases hm : hd ∈ hds
  · exact hin hd hm
  · rw [(hout hd hm).1]
    exact (R.list hd).frame hw hm (hout hd hm).2

section Ties

variable [DecidableEq η] [DecidableEq ν]

/-- `*f = p` and `p->pprev = f`. -/
def Heap.tie (h : Heap η ν) (f : Field η ν) : Option ν → Heap η ν
  | none => h.store f .null
  | some n => (h.store f (.to n)).setPprev n (.to f)

theorem pprev_tie_of_ne {f : Field η ν} {p : Option ν} (hn : p ≠ some n) :
    (h.tie f p).pprev n = h.pprev n := by
  cases p with
  | none => exact Heap.pprev_store h f n .null
  | some m =>
    have hne : n ≠ m := fun he => hn (congrArg some he.symm)
    simp [Heap.tie, hne]

theorem setPprevOf_store (h : Heap η ν) (f : Field η ν) (p : Option ν) :
    (h.store f (ptr p)).setPprevOf (ptr p) (.to f) = some (h.tie f p) := by
  cases p <;> rfl

theorem tied_tie {f x : Field η ν} {p : Option ν} {y : Option (Field η ν)}
    (ht : retie h.Tied f (p.map .next) x y) : (h.tie f p).Tied x y := by
  rcases ht with ⟨rfl, rfl⟩ | ⟨hx, hy, ht⟩
  · cases p with
    | none => simp [Heap.tie, Heap.Tied]
    | some n => simp [Heap.tie, Heap.Tied]
  · cases y with
    | none => cases p <;> simpa [Heap.tie, Heap.Tied, hx] using ht
    | some y =>
      cases y with
      | first _ => exact ht
      | next m =>
        cases p with
        | none => simpa [Heap.tie, Heap.Tied, hx] using ht
        | some n =>
          have hne : m ≠ n := by
            rintro rfl
            exact (hy.resolve_left (fun he => nomatch he)) rfl
          simpa [Heap.tie, Heap.Tied, hx, hne] using ht

theorem thread_tie {f a : Field η ν} {p : Option ν} {fs : List (Field η ν)}
    (ht : Thread (retie h.Tied f (p.map .next)) a fs) : Thread (h.tie f p).Tied a fs :=
  ht.mono fun _ _ _ _ hxy => tied_tie hxy

theorem thread_tie_tie {f g a : Field η ν} {p q : Option ν} {fs : List (Field η ν)}
    (ht : Thread (retie (retie h.Tied f (p.map .next)) g (q.map .next)) a fs) :
    Thread ((h.tie f p).tie g q).Tied a fs :=
  thread_tie (ht.mono fun _ _ _ _ hxy => retie_mono (fun _ _ => tied_tie) hxy)

theorem onlyWrites_store {f : Field η ν} (p : Ptr ν)
    (hf : f ∈ hds.map Field.first ++ ns.map Field.next) : OnlyWrites h (h.store f p) hds ns := by
  cases f with
  | first hd =>
    refine ⟨fun x hx => Function.update_of_ne ?_ _ _, fun _ _ => rfl⟩
    rintro rfl
    exact hx (by simpa using hf)
  | next n =>
    refine ⟨fun _ _ => rfl, fun x hx => Function.update_of_ne ?_ _ _⟩
    rintro rfl
    exact hx (by simpa using hf)

omit [DecidableEq η] in
theorem onlyWrites_setPprev (p : Ptr (Field η ν)) (hn : n ∈ ns) :
    OnlyWrites h (h.setPprev n p) hds ns := by
  refine ⟨fun _ _ => rfl, fun x hx => Function.update_of_ne ?_ _ _⟩
  rintro rfl
  exact hx hn

theorem onlyWrites_tie {f : Field η ν} {p : Option ν}
    (hf : f ∈ hds.map Field.first ++ ns.map Field.next) (hp : ∀ m, p = some m → m ∈ ns) :
    OnlyWrites h (h.tie f p) hds ns := by
  cases p with
  | none => exact onlyWrites_store _ hf
  | some m => exact (onlyWrites_store _ hf).trans (onlyWrites_setPprev _ (hp m rfl))

/-! ## Surgeries on the heap -/

theorem IsList.insert (hl : IsList h hd (A ++ B)) (hn : n ∉ A ++ B) :
    IsList ((h.tie (.next n) B.head?).tie (fieldAfter hd A) (some n)) hd (A ++ n :: B) := by
  have ht := hl.thread
  have hf := hl.nodup_fields
  have hm : Field.next n ∉ .first hd :: (A ++ B).map Field.next := IsList.notMem_fields hn
  rw [List.map_append] at ht hf hm
  refine ⟨List.nodup_middle.mpr (List.nodup_cons.mpr ⟨hn, hl.nodup⟩), ?_⟩
  rw [List.map_append, List.map_cons]
  refine thread_tie_tie ?_
  rw [← List.head?_map]
  exact ht.insert hf hm

theorem onlyWrites_insert : OnlyWrites h ((h.tie (.next n) B.head?).tie (fieldAfter hd A) (some n))
    [hd] (n :: (A ++ B)) := by
  refine (onlyWrites_tie (by simp) fun m hm => ?_).trans (onlyWrites_tie ?_ fun m hm => ?_)
  · exact List.mem_cons_of_mem _ (List.mem_append_right _ (List.mem_of_mem_head? hm))
  · exact fieldAfter_mem fun x hx => List.mem_cons_of_mem _ (List.mem_append_left _ hx)
  · cases hm
    exact List.mem_cons_self

theorem IsList.cut (hl : IsList h hd (A ++ n :: B)) :
    IsList (h.tie (fieldAfter hd A) B.head?) hd (A ++ B) := by
  have ht := hl.thread
  have hf := hl.nodup_fields
  rw [List.map_append] at ht hf
  refine ⟨(List.nodup_cons.mp (List.nodup_middle.mp hl.nodup)).2, ?_⟩
  rw [List.map_append]
  refine thread_tie ?_
  rw [← List.head?_map]
  exact ht.cut hf

theorem onlyWrites_cut :
    OnlyWrites h (h.tie (fieldAfter hd A) B.head?) [hd] (A ++ n :: B) := by
  refine onlyWrites_tie (fieldAfter_mem fun x hx => List.mem_append_left _ hx) fun m hm => ?_
  exact List.mem_append_right _ (List.mem_cons_of_mem _ (List.mem_of_mem_head? hm))

theorem IsList.move {new : η} (hl : IsList h hd xs) (hne : new ≠ hd) :
    IsList ((h.tie (.first new) xs.head?).tie (.first hd) none) new xs ∧
      IsList ((h.tie (.first new) xs.head?).tie (.first hd) none) hd [] := by
  have hm := hl.thread.move (b := .first new) hl.nodup_fields (by simpa using hne)
  rw [List.head?_map] at hm
  exact ⟨⟨hl.nodup, thread_tie_tie (q := none) hm.1⟩, ⟨.nil, thread_tie_tie (q := none) hm.2⟩⟩

theorem onlyWrites_move {new : η} :
    OnlyWrites h ((h.tie (.first new) xs.head?).tie (.first hd) none) [hd, new] xs :=
  (onlyWrites_tie (by simp) fun _ hm => List.mem_of_mem_head? hm).trans
    (onlyWrites_tie (by simp) fun _ hm => nomatch hm)

/-! ## The operations as surgeries -/

theorem hlistAddHead_eq (hl : IsList h hd xs) :
    hlistAddHead h n hd = some ((h.tie (.next n) xs.head?).tie (.first hd) (some n)) := by
  have hload : h.load (.first hd) = ptr xs.head? := hl.load_at (A := [])
  unfold hlistAddHead
  simp only [hload, setPprevOf_store]
  rfl

theorem hlistAddBefore_eq {next : ν} (hl : IsList h hd (A ++ next :: B)) (hn : n ≠ next) :
    hlistAddBefore h n next =
      some ((h.tie (.next n) (some next)).tie (fieldAfter hd A) (some n)) := by
  unfold hlistAddBefore
  simp only [hl.pprev_at, Heap.pprev_setPprev, Heap.pprev_store, if_neg hn, if_true]
  -- the source writes the back link of the new node first, the surgery last
  refine congrArg some (Heap.ext_fields (fun x => ?_) fun x => ?_)
  · simp [Heap.tie]
  · simp only [Heap.tie, Heap.pprev_store, Heap.pprev_setPprev]
    split
    · next he => rw [if_neg (by rintro rfl; exact hn he)]
    · rfl

theorem hlistAddBehind_eq {prev : ν} (hl : IsList h hd (A ++ prev :: B))
    (hn : n ∉ A ++ prev :: B) :
    hlistAddBehind h n prev = some ((h.tie (.next n) B.head?).tie (.next prev) (some n)) := by
  have hne : n ≠ prev := by
    rintro rfl
    exact hn (List.mem_append_right _ List.mem_cons_self)
  unfold hlistAddBehind
  simp only [hl.load_next, Heap.load_setPprev, Heap.load_store, Field.next.injEq, if_neg hne,
    if_true]
  cases B with
  | nil => rfl
  | cons m B =>
    have hm : m ≠ n := by
      rintro rfl
      exact hn (by simp)
    refine congrArg some (Heap.ext_fields (fun x => ?_) fun x => ?_)
    · simp [Heap.tie, ptr]
    · simp only [Heap.tie, List.head?_cons, Heap.pprev_store, Heap.pprev_setPprev]
      split
      · next he => rw [if_neg (by rintro rfl; exact hm he.symm)]
      · rfl

theorem __hlistDel_eq (hl : IsList h hd (A ++ n :: B)) :
    __hlistDel h n = some (h.tie (fieldAfter hd A) B.head?) := by
  unfold __hlistDel
  simp only [hl.pprev_at, hl.load_next]
  exact setPprevOf_store _ _ _

theorem hlistDel_eq (hl : IsList h hd (A ++ n :: B)) :
    hlistDel h n = some (((h.tie (fieldAfter hd A) B.head?).store (.next n) .listPoison1).setPprev n
      .listPoison2) := by
  unfold hlistDel
  rw [__hlistDel_eq hl]
  rfl

theorem hlistDelInit_eq (hl : IsList h hd (A ++ n :: B)) :
    hlistDelInit h n = some (initHlistNode (h.tie (fieldAfter hd A) B.head?) n) := by
  have hu : hlistUnhashed h n = false :=
    beq_eq_false_iff_ne.mpr (hl.pprev_ne_null (List.mem_append_right _ List.mem_cons_self))
  unfold hlistDelInit
  rw [hu, __hlistDel_eq hl]
  rfl

theorem hlistMoveList_eq {new : η} (hl : IsList h hd xs) :
    hlistMoveList h hd new = some ((h.tie (.first new) xs.head?).tie (.first hd) none) := by
  have hload : h.load (.first hd) = ptr xs.head? := hl.load_at (A := [])
  unfold hlistMoveList
  simp only [hload, Heap.load_store, if_true, setPprevOf_store]
  rfl

end Ties

end Uki.Hlist
