import Uki.List.Segment
import Mathlib.Data.Fintype.Basic
import Mathlib.Data.List.Rotate

/-!
# Programs of list operations refine programs on sequences

`ListOp` is one call of a `list.h` operation. `exec` runs it on the heap,
`apply` is the functional list operation it stands for, and `Pre` is what its
comment asks of the caller. The run theorem says that a program of calls, each
within its precondition, keeps every head in use in step with its sequence, and
that the query functions then answer about that sequence.
-/

namespace Uki

variable {ν : Type} [DecidableEq ν]

/-- A call of a list operation, with the source's parameter names. -/
inductive ListOp (ν : Type) where
  | initListHead (list : ν)
  | listAdd (new head : ν)
  | listAddTail (new head : ν)
  | listDel (entry : ν)
  | listDelInit (entry : ν)
  | listReplace (old new : ν)
  | listReplaceInit (old new : ν)
  | listMove (list head : ν)
  | listMoveTail (list head : ν)
  | listBulkMoveTail (head first last : ν)
  | listRotateLeft (head : ν)
  | listCutBefore (list head entry : ν)
  | listSplice (list head : ν)
  | listSpliceTail (list head : ν)
  | listSpliceInit (list head : ν)
  | listSpliceTailInit (list head : ν)

namespace ListOp

def exec (h : Heap ν) : ListOp ν → Option (Heap ν)
  | initListHead list => some (Uki.initListHead h list)
  | listAdd new head => Uki.listAdd h new head
  | listAddTail new head => Uki.listAddTail h new head
  | listDel entry => Uki.listDel h entry
  | listDelInit entry => Uki.listDelInit h entry
  | listReplace old new => Uki.listReplace h old new
  | listReplaceInit old new => Uki.listReplaceInit h old new
  | listMove list head => Uki.listMove h list head
  | listMoveTail list head => Uki.listMoveTail h list head
  | listBulkMoveTail head first last => Uki.listBulkMoveTail h head first last
  | listRotateLeft head => Uki.listRotateLeft h head
  | listCutBefore list head entry => Uki.listCutBefore h list head entry
  | listSplice list head => Uki.listSplice h list head
  | listSpliceTail list head => Uki.listSpliceTail h list head
  | listSpliceInit list head => Uki.listSpliceInit h list head
  | listSpliceTailInit list head => Uki.listSpliceTailInit h list head

/-- What the comment of the operation asks for. A node that is added, or that
takes another one's place, is unlinked; `listBulkMoveTail` gets a contiguous
segment; the list that receives a cut may hold anything, which is lost. -/
def Pre (H : Heads ν) : ListOp ν → Prop
  | initListHead list => H.Unlinked list
  | listAdd new head | listAddTail new head => H.Unlinked new ∧ new ≠ head ∧ (H head).isSome
  | listDel entry | listDelInit entry => H.IsEntry entry
  | listReplace old new | listReplaceInit old new =>
      H.Unlinked new ∧ old ≠ new ∧ ((H old).isSome ∨ H.IsEntry old)
  | listMove list head | listMoveTail list head => H.IsEntry list ∧ (H head).isSome
  | listBulkMoveTail head first last => ∃ A L B, H head = some (A ++ L ++ B) ∧
      L.head? = some first ∧ L.getLast? = some last
  | listRotateLeft head => (H head).isSome
  | listCutBefore list head entry => list ≠ head ∧ ¬ H.IsEntry list ∧
      ∃ xs, H head = some xs ∧ (entry = head ∨ entry ∈ xs)
  | listSplice list head | listSpliceTail list head | listSpliceInit list head
  | listSpliceTailInit list head => list ≠ head ∧ (H list).isSome ∧ (H head).isSome

/-- The entries of a head in use. -/
def entries (H : Heads ν) (head : ν) : List ν := (H head).getD []

/-- The segment from `first` to `last` goes to the end. -/
def moveSegment (xs : List ν) (first last : ν) : List ν :=
  let i := xs.idxOf first
  let j := xs.idxOf last + 1
  xs.take i ++ xs.drop j ++ (xs.drop i).take (j - i)

/-- The functional list operation each call stands for. -/
def apply (H : Heads ν) : ListOp ν → Heads ν
  | initListHead list => H.set list (some [])
  | listAdd new head => (H.set new none).modify head (new :: ·)
  | listAddTail new head => (H.set new none).modify head (· ++ [new])
  | listDel entry => H.mapAll (·.erase entry)
  | listDelInit entry => (H.mapAll (·.erase entry)).set entry (some [])
  | listReplace old new =>
      if (H old).isSome then (H.set old none).set new (H old)
      else (H.set new none).mapAll (·.replace old new)
  | listReplaceInit old new =>
      if (H old).isSome then (H.set old (some [])).set new (H old)
      else ((H.set new none).mapAll (·.replace old new)).set old (some [])
  | listMove list head => (H.mapAll (·.erase list)).modify head (list :: ·)
  | listMoveTail list head => (H.mapAll (·.erase list)).modify head (· ++ [list])
  | listBulkMoveTail head first last => H.modify head (moveSegment · first last)
  | listRotateLeft head => H.modify head (·.rotate 1)
  | listCutBefore list head entry =>
      let xs := entries H head
      (H.set list (some (xs.take (xs.idxOf entry)))).set head (some (xs.drop (xs.idxOf entry)))
  | listSplice list head =>
      if entries H list = [] then H else (H.set list none).modify head (entries H list ++ ·)
  | listSpliceTail list head =>
      if entries H list = [] then H else (H.set list none).modify head (· ++ entries H list)
  | listSpliceInit list head => (H.set list (some [])).modify head (entries H list ++ ·)
  | listSpliceTailInit list head => (H.set list (some [])).modify head (· ++ entries H list)

end ListOp

/-! ## The functional operations at the list they change -/

section Functional

variable {h : Heap ν} {H : Heads ν} {hd e : ν} {A L B : List ν}

/-- An operation on all lists that only changes the list holding `e`. -/
theorem Represents.mapAll_eq_set (R : Represents h H) (hx : H hd = some (A ++ e :: B))
    {f : List ν → List ν} (hf : ∀ ys, e ∉ ys → f ys = ys) :
    H.mapAll f = H.set hd (some (f (A ++ e :: B))) := by
  funext x
  simp only [Heads.mapAll, Heads.set]
  split
  · next he => simp [he, hx]
  · next hne =>
    cases hy : H x with
    | none => rfl
    | some ys =>
      have hm : e ∉ ys := fun hm => hne (R.entry_unique hy hx hm (by simp))
      simp [hf ys hm]

theorem Represents.mapAll_erase (R : Represents h H) (hx : H hd = some (A ++ e :: B)) :
    H.mapAll (·.erase e) = H.set hd (some (A ++ B)) := by
  have hn := (R.ring hd _ hx).nodup
  rw [R.mapAll_eq_set hx fun ys hy => List.erase_of_not_mem hy,
    List.erase_append_right _ (by grind), List.erase_cons_head]

theorem Represents.mapAll_replace {new : ν} (R : Represents h H) (hx : H hd = some (A ++ e :: B)) :
    H.mapAll (·.replace e new) = H.set hd (some (A ++ new :: B)) := by
  have hn := (R.ring hd _ hx).nodup
  rw [R.mapAll_eq_set hx fun ys hy => List.replace_of_not_mem hy,
    List.replace_append_right (by grind), List.replace_cons_self]

omit [DecidableEq ν] in
theorem Represents.not_head_of_entry (R : Represents h H) (hx : H hd = some (A ++ e :: B)) :
    H e = none := by
  have hn := (R.ring hd _ hx).nodup
  by_contra hc
  obtain ⟨ys, hy⟩ := Option.ne_none_iff_exists'.mp hc
  exact R.disjoint e hd ys _ hy hx (by grind) e (by simp) (by simp)

omit [DecidableEq ν] in
theorem Heads.IsEntry.split (he : H.IsEntry e) : ∃ hd A B, H hd = some (A ++ e :: B) := by
  obtain ⟨hd, xs, hx, hm⟩ := he
  obtain ⟨A, B, rfl⟩ := List.append_of_mem hm
  exact ⟨hd, A, B, hx⟩

theorem idxOf_append_head (hn : (A ++ B).Nodup) {e : ν} (he : B.head? = some e) :
    (A ++ B).idxOf e = A.length := by
  have hm := List.mem_of_head? he
  obtain ⟨B', rfl⟩ := List.head?_eq_some_iff.mp he
  rw [List.idxOf_append_of_notMem (by rw [List.nodup_append] at hn; grind)]
  simp

theorem moveSegment_eq (hn : (A ++ L ++ B).Nodup) {first last : ν} (hf : L.head? = some first)
    (hl : L.getLast? = some last) :
    ListOp.moveSegment (A ++ L ++ B) first last = A ++ B ++ L := by
  have hi : (A ++ L ++ B).idxOf first = A.length := by
    rw [List.append_assoc] at hn ⊢
    refine idxOf_append_head hn ?_
    rw [List.head?_append, hf]
    rfl
  have hj : (A ++ L ++ B).idxOf last + 1 = A.length + L.length := by
    obtain ⟨L', rfl⟩ := List.getLast?_eq_some_iff.mp hl
    rw [show A ++ (L' ++ [last]) ++ B = (A ++ L') ++ ([last] ++ B) by simp] at hn ⊢
    rw [idxOf_append_head hn rfl]
    simp
    omega
  simp only [ListOp.moveSegment, hi, hj]
  rw [Nat.add_sub_cancel_left, ← List.length_append, List.drop_left, List.append_assoc A L B,
    List.take_left, List.drop_left, List.take_left]

end Functional

/-! ## One step -/

section Step

variable {h : Heap ν} {H : Heads ν}

omit [DecidableEq ν] in
theorem Heads.Unlinked.ne_of_entry {e new hd : ν} {A B : List ν} (hn : H.Unlinked new)
    (hx : H hd = some (A ++ e :: B)) : new ≠ hd := by
  rintro rfl
  have := hn.head _ hx
  simp at this

/-- Replacing the entry `old`, read off the family as a whole. -/
theorem Represents.replace_entry {old new : ν} (R : Represents h H) (hn : H.Unlinked new)
    (ho : H.IsEntry old) :
    ∃ hd A B, H hd = some (A ++ old :: B) ∧ new ≠ hd ∧ (H old).isSome = false ∧
      (H.set new none).mapAll (·.replace old new) =
        (H.set new none).set hd (some (A ++ new :: B)) := by
  obtain ⟨hd, A, B, hx⟩ := ho.split
  have hne := hn.ne_of_entry hx
  refine ⟨hd, A, B, hx, hne, by simp [R.not_head_of_entry hx], ?_⟩
  exact (R.drop new).mapAll_replace (by rw [Heads.set_of_ne _ _ hne.symm, hx])

section Join

variable {list head : ν} {xs ys : List ν}

theorem represents_splice_first (R : Represents h H) (hx : H list = some xs) (hxs : xs ≠ [])
    (hy : H head = some ys) (hne : list ≠ head) :
    ∃ q k, (h.next head).deref = some q ∧ __listSplice h list head q = some k ∧
      Represents k ((H.set list none).set head (some (xs ++ ys))) := by
  obtain ⟨q, hq⟩ : ∃ q, (ys ++ [head]).head? = some q := ⟨_, List.head?_eq_some_head (by simp)⟩
  have hl := (R.ring head _ hy).link_first hq
  obtain ⟨k, hk, R'⟩ :=
    represents_splice (A := []) (p := head) R hx hxs (by simpa using hy) hne rfl hq
  exact ⟨q, k, Represents.next_of_link hl, hk, by simpa using R'⟩

theorem represents_splice_last (R : Represents h H) (hx : H list = some xs) (hxs : xs ≠ [])
    (hy : H head = some ys) (hne : list ≠ head) :
    ∃ p k, (h.prev head).deref = some p ∧ __listSplice h list p head = some k ∧
      Represents k ((H.set list none).set head (some (ys ++ xs))) := by
  obtain ⟨p, hp⟩ : ∃ p, (head :: ys).getLast? = some p :=
    ⟨_, List.getLast?_eq_some_getLast (by simp)⟩
  have hl := (R.ring head _ hy).link_last hp
  obtain ⟨k, hk, R'⟩ :=
    represents_splice (B := []) (q := head) R hx hxs (by simpa using hy) hne hp rfl
  exact ⟨p, k, Represents.prev_of_link hl, hk, by simpa using R'⟩

/-- The head of a list that was joined to another one is in neither, so it can
be reinitialised. -/
theorem represents_init_joined {k : Heap ν} {zs : List ν} (R : Represents h H)
    (hx : H list = some xs) (hy : H head = some ys) (hne : list ≠ head)
    (hz : ∀ z ∈ zs, z ∈ xs ∨ z ∈ ys)
    (R' : Represents k ((H.set list none).set head (some zs))) :
    Represents (initListHead k list) ((H.set list (some [])).set head (some zs)) := by
  have ha : (H.set list none).Avoids list := R.avoids_of_mem hx (by simp)
  have hd₁ := (List.nodup_cons.mp (R.ring list _ hx).nodup).1
  have hd₂ := R.disjoint list head xs ys hx hy hne list (by simp)
  have hn : list ∉ head :: zs := by grind
  have K := represents_init R' (n := list) fun hd ws hw hm =>
    ha.set_some hn hd ws hw (List.mem_cons_of_mem _ hm)
  rwa [Heads.set_comm _ _ _ hne.symm, Heads.set_set] at K

theorem represents_listSplice (R : Represents h H) (hx : H list = some xs) (hy : H head = some ys)
    (hne : list ≠ head) :
    ∃ k, listSplice h list head = some k ∧
      Represents k (if xs = [] then H else (H.set list none).set head (some (xs ++ ys))) := by
  by_cases hxs : xs = []
  · rw [if_pos hxs]
    exact ⟨h, by simp [listSplice, (R.listEmpty_iff hx).mpr hxs], R⟩
  · obtain ⟨q, k, hq, hk, R'⟩ := represents_splice_first R hx hxs hy hne
    rw [if_neg hxs]
    exact ⟨k, by simp [listSplice, R.listEmpty_eq_false hx hxs, hq, hk], R'⟩

theorem represents_listSpliceTail (R : Represents h H) (hx : H list = some xs)
    (hy : H head = some ys) (hne : list ≠ head) :
    ∃ k, listSpliceTail h list head = some k ∧
      Represents k (if xs = [] then H else (H.set list none).set head (some (ys ++ xs))) := by
  by_cases hxs : xs = []
  · rw [if_pos hxs]
    exact ⟨h, by simp [listSpliceTail, (R.listEmpty_iff hx).mpr hxs], R⟩
  · obtain ⟨p, k, hp, hk, R'⟩ := represents_splice_last R hx hxs hy hne
    rw [if_neg hxs]
    exact ⟨k, by simp [listSpliceTail, R.listEmpty_eq_false hx hxs, hp, hk], R'⟩

/-- Nothing changes when an empty list is joined. -/
theorem set_nil_set (hx : H list = some []) (hy : H head = some ys) :
    (H.set list (some [])).set head (some ys) = H := by
  rw [Heads.set_eq_self hx, Heads.set_eq_self hy]

theorem represents_listSpliceInit (R : Represents h H) (hx : H list = some xs)
    (hy : H head = some ys) (hne : list ≠ head) :
    ∃ k, listSpliceInit h list head = some k ∧
      Represents k ((H.set list (some [])).set head (some (xs ++ ys))) := by
  rcases eq_or_ne xs [] with rfl | hxs
  · rw [List.nil_append, set_nil_set hx hy]
    exact ⟨h, by simp [listSpliceInit, (R.listEmpty_iff hx).mpr rfl], R⟩
  · obtain ⟨q, k, hq, hk, R'⟩ := represents_splice_first R hx hxs hy hne
    refine ⟨initListHead k list, ?_, represents_init_joined R hx hy hne (by simp) R'⟩
    simp [listSpliceInit, R.listEmpty_eq_false hx hxs, hq, hk]

theorem represents_listSpliceTailInit (R : Represents h H) (hx : H list = some xs)
    (hy : H head = some ys) (hne : list ≠ head) :
    ∃ k, listSpliceTailInit h list head = some k ∧
      Represents k ((H.set list (some [])).set head (some (ys ++ xs))) := by
  rcases eq_or_ne xs [] with rfl | hxs
  · rw [List.append_nil, set_nil_set hx hy]
    exact ⟨h, by simp [listSpliceTailInit, (R.listEmpty_iff hx).mpr rfl], R⟩
  · obtain ⟨p, k, hp, hk, R'⟩ := represents_splice_last R hx hxs hy hne
    refine ⟨initListHead k list, ?_, represents_init_joined R hx hy hne ?_ R'⟩
    · simp [listSpliceTailInit, R.listEmpty_eq_false hx hxs, hp, hk]
    · exact fun z hz => (List.mem_append.mp hz).symm

end Join

theorem represents_listRotateLeft {head : ν} {xs : List ν} (R : Represents h H)
    (hx : H head = some xs) :
    ∃ k, listRotateLeft h head = some k ∧ Represents k (H.set head (some (xs.rotate 1))) := by
  cases xs with
  | nil =>
    rw [List.rotate_nil, Heads.set_eq_self hx]
    exact ⟨h, by simp [listRotateLeft, (R.listEmpty_iff hx).mpr rfl], R⟩
  | cons f ys =>
    have he := R.listEmpty_eq_false hx (by simp)
    have hl := (R.ring head _ hx).link_first (y := f) rfl
    have hne : f ≠ head := R.ne_head hx List.mem_cons_self
    obtain ⟨k, hk, R'⟩ := represents_listMoveTail (A := []) (B := ys) R
      (by simpa using hx) (Heads.set_self _ head _) hne
    refine ⟨k, by simp [listRotateLeft, he, Represents.next_of_link hl, hk], ?_⟩
    simpa [Heads.set_set] using R'

/-- Where a list is cut. -/
theorem head?_drop_idxOf {head entry : ν} {xs : List ν} (hh : head ∉ xs)
    (he : entry = head ∨ entry ∈ xs) :
    (xs.drop (xs.idxOf entry) ++ [head]).head? = some entry := by
  rcases he with rfl | hm
  · rw [List.idxOf_of_notMem hh]
    simp
  · rw [List.drop_eq_getElem_cons (List.idxOf_lt_length_iff.mpr hm)]
    simp

/-- Moving the entry `list`, read off the family as a whole. -/
theorem Represents.move_entry {list head : ν} (R : Represents h H) (he : H.IsEntry list)
    (hs : (H head).isSome) :
    ∃ src A B ys, H src = some (A ++ list :: B) ∧ H.set src (some (A ++ B)) head = some ys ∧
      list ≠ head := by
  obtain ⟨src, A, B, hx⟩ := he.split
  obtain ⟨ys, hy⟩ : ∃ ys, H.set src (some (A ++ B)) head = some ys := by
    simp only [Heads.set]
    split
    · exact ⟨_, rfl⟩
    · exact Option.isSome_iff_exists.mp hs
  refine ⟨src, A, B, ys, hx, hy, ?_⟩
  rintro rfl
  rw [R.not_head_of_entry hx] at hs
  cases hs

open ListOp in
/-- A call within its precondition ends without a fault, in a heap that
represents the sequences the functional operation gives. -/
theorem represents_step (R : Represents h H) (op : ListOp ν) (hp : op.Pre H) :
    ∃ k, op.exec h = some k ∧ Represents k (op.apply H) := by
  have joined {list head : ν} (hp : list ≠ head ∧ (H list).isSome ∧ (H head).isSome) :
      list ≠ head ∧ ∃ xs ys, H list = some xs ∧ H head = some ys ∧
        ∀ v, H.set list v head = some ys := by
    obtain ⟨hne, hs, hs'⟩ := hp
    obtain ⟨xs, hx⟩ := Option.isSome_iff_exists.mp hs
    obtain ⟨ys, hy⟩ := Option.isSome_iff_exists.mp hs'
    exact ⟨hne, xs, ys, hx, hy, fun v => (Heads.set_of_ne _ _ hne.symm).trans hy⟩
  cases op with
  | initListHead list => exact ⟨_, rfl, represents_init R hp.entry⟩
  | listAdd new head =>
    obtain ⟨hn, hne, hs⟩ := hp
    obtain ⟨xs, hx⟩ := Option.isSome_iff_exists.mp hs
    have hx' : H.set new none head = some xs := by rw [Heads.set_of_ne _ _ hne.symm, hx]
    simpa only [exec, apply, Heads.modify_eq_set hx'] using represents_listAdd R hx hn hne
  | listAddTail new head =>
    obtain ⟨hn, hne, hs⟩ := hp
    obtain ⟨xs, hx⟩ := Option.isSome_iff_exists.mp hs
    have hx' : H.set new none head = some xs := by rw [Heads.set_of_ne _ _ hne.symm, hx]
    obtain ⟨k, hk, R', -⟩ := represents_listAddTail R hx hn hne
    refine ⟨k, hk, ?_⟩
    simpa only [apply, Heads.modify_eq_set hx'] using R'
  | listDel entry =>
    obtain ⟨hd, A, B, hx⟩ := hp.split
    simpa only [exec, apply, R.mapAll_erase hx] using represents_listDel R hx
  | listDelInit entry =>
    obtain ⟨hd, A, B, hx⟩ := hp.split
    simpa only [exec, apply, R.mapAll_erase hx] using represents_listDelInit R hx
  | listReplace old new =>
    obtain ⟨hn, hne, hs | ho⟩ := hp
    · obtain ⟨xs, hx⟩ := Option.isSome_iff_exists.mp hs
      obtain ⟨k, hk, R', -⟩ := represents_listReplace R hx hn hne
      exact ⟨k, hk, by simpa [apply, hx] using R'⟩
    · obtain ⟨hd, A, B, hx, hnh, hs, he⟩ := R.replace_entry hn ho
      obtain ⟨k, hk, R'⟩ := represents_listReplace_entry R hx hn hnh hne
      exact ⟨k, hk, by simpa [apply, hs, he] using R'⟩
  | listReplaceInit old new =>
    obtain ⟨hn, hne, hs | ho⟩ := hp
    · obtain ⟨xs, hx⟩ := Option.isSome_iff_exists.mp hs
      obtain ⟨k, hk, R', -⟩ := represents_listReplaceInit R hx hn hne
      exact ⟨k, hk, by simpa [apply, hx] using R'⟩
    · obtain ⟨hd, A, B, hx, hnh, hs, he⟩ := R.replace_entry hn ho
      obtain ⟨k, hk, R'⟩ := represents_listReplaceInit_entry R hx hn hnh hne
      exact ⟨k, hk, by simpa [apply, hs, he] using R'⟩
  | listMove list head =>
    obtain ⟨src, A, B, ys, hx, hy, hne⟩ := R.move_entry hp.1 hp.2
    simpa only [exec, apply, R.mapAll_erase hx, Heads.modify_eq_set hy] using
      represents_listMove R hx hy hne
  | listMoveTail list head =>
    obtain ⟨src, A, B, ys, hx, hy, hne⟩ := R.move_entry hp.1 hp.2
    simpa only [exec, apply, R.mapAll_erase hx, Heads.modify_eq_set hy] using
      represents_listMoveTail R hx hy hne
  | listBulkMoveTail head first last =>
    obtain ⟨A, L, B, hx, hf, hl⟩ := hp
    have hn := (List.nodup_cons.mp (R.ring head _ hx).nodup).2
    simpa only [exec, apply, Heads.modify_eq_set hx, moveSegment_eq hn hf hl] using
      represents_listBulkMoveTail R hx hf hl
  | listRotateLeft head =>
    obtain ⟨xs, hx⟩ := Option.isSome_iff_exists.mp hp
    simpa only [exec, apply, Heads.modify_eq_set hx] using represents_listRotateLeft R hx
  | listCutBefore list head entry =>
    obtain ⟨hne, hnl, xs, hx, he⟩ := hp
    have hh := (List.nodup_cons.mp (R.ring head _ hx).nodup).1
    have hsplit : xs = xs.take (xs.idxOf entry) ++ xs.drop (xs.idxOf entry) :=
      (List.take_append_drop _ _).symm
    obtain ⟨k, hk, R'⟩ := represents_listCutBefore R (hx.trans (congrArg some hsplit))
      (head?_drop_idxOf hh he) hne (fun hd ys hy hm => hnl ⟨hd, ys, hy, hm⟩)
    exact ⟨k, hk, by simpa only [apply, entries, hx, Option.getD_some] using R'⟩
  | listSplice list head =>
    obtain ⟨hne, xs, ys, hx, hy, hy'⟩ := joined hp
    simpa only [exec, apply, entries, hx, Option.getD_some, Heads.modify_eq_set (hy' none)] using
      represents_listSplice R hx hy hne
  | listSpliceTail list head =>
    obtain ⟨hne, xs, ys, hx, hy, hy'⟩ := joined hp
    simpa only [exec, apply, entries, hx, Option.getD_some, Heads.modify_eq_set (hy' none)] using
      represents_listSpliceTail R hx hy hne
  | listSpliceInit list head =>
    obtain ⟨hne, xs, ys, hx, hy, hy'⟩ := joined hp
    simpa only [exec, apply, entries, hx, Option.getD_some, Heads.modify_eq_set (hy' _)] using
      represents_listSpliceInit R hx hy hne
  | listSpliceTailInit list head =>
    obtain ⟨hne, xs, ys, hx, hy, hy'⟩ := joined hp
    simpa only [exec, apply, entries, hx, Option.getD_some, Heads.modify_eq_set (hy' _)] using
      represents_listSpliceTailInit R hx hy hne

end Step

/-! ## Programs -/

def execAll : Heap ν → List (ListOp ν) → Option (Heap ν)
  | h, [] => some h
  | h, op :: prog => do
      let h ← op.exec h
      execAll h prog

def applyAll : Heads ν → List (ListOp ν) → Heads ν
  | H, [] => H
  | H, op :: prog => applyAll (op.apply H) prog

/-- Each call of the program meets its precondition when it is made. -/
def Admissible : Heads ν → List (ListOp ν) → Prop
  | _, [] => True
  | H, op :: prog => op.Pre H ∧ Admissible (op.apply H) prog

theorem represents_run {h : Heap ν} {H : Heads ν} (R : Represents h H) {prog : List (ListOp ν)}
    (hp : Admissible H prog) :
    ∃ k, execAll h prog = some k ∧ Represents k (applyAll H prog) := by
  induction prog generalizing h H with
  | nil => exact ⟨h, rfl, R⟩
  | cons op prog ih =>
    obtain ⟨k, hk, R'⟩ := represents_step R op hp.1
    obtain ⟨l, hl, R''⟩ := ih R' hp.2
    exact ⟨l, by simp [execAll, hk, hl], R''⟩

theorem Admissible.take {H : Heads ν} {prog : List (ListOp ν)} (hp : Admissible H prog) (n : Nat) :
    Admissible H (prog.take n) := by
  induction prog generalizing H n with
  | nil => simpa using hp
  | cons op prog ih =>
    cases n with
    | zero => exact trivial
    | succ n => exact ⟨hp.1, ih hp.2 n⟩

/-- Every program of list operations, run within their preconditions on a heap
that represents disjoint sequences, keeps every head in use in step with its
sequence after every call. The query functions answer about that sequence. -/
theorem list_programs_refine_sequences {h : Heap ν} {H : Heads ν} (R : Represents h H)
    (prog : List (ListOp ν)) (hp : Admissible H prog) (n : Nat) :
    ∃ k, execAll h (prog.take n) = some k ∧ Represents k (applyAll H (prog.take n)) ∧
      ∀ hd xs, applyAll H (prog.take n) hd = some xs →
        (listEmpty k hd = true ↔ xs = []) ∧
        (listIsSingular k hd = true ↔ xs.length = 1) ∧
        ∀ e ∈ xs, (listIsLast k e hd = true ↔ xs.getLast? = some e) := by
  obtain ⟨k, hk, R'⟩ := represents_run R (hp.take n)
  exact ⟨k, hk, R', fun hd xs hx =>
    ⟨R'.listEmpty_iff hx, R'.listIsSingular_iff hx, fun e he => R'.listIsLast_iff hx he⟩⟩

section Finite

variable [Fintype ν] (H : Heads ν) (n : ν)

instance : Decidable (H.Unlinked n) :=
  decidable_of_iff ((∀ xs ∈ H n, xs = []) ∧ ∀ hd, ∀ xs ∈ H hd, n ∉ xs)
    ⟨fun h => ⟨h.1, h.2⟩, fun h => ⟨h.1, h.2⟩⟩

instance : Decidable (H.IsEntry n) :=
  decidable_of_iff (∃ hd, ∃ xs ∈ H hd, n ∈ xs) (by simp [Heads.IsEntry])

end Finite

/-- Two heads with three entries, one of which moves over and another one to the end, and
then all of them into one list. -/
theorem list_programs_refine_sequences_test1 :
    let prog : List (ListOp (Fin 6)) := [.initListHead 0, .initListHead 5, .listAddTail 1 0,
      .listAddTail 2 0, .listAdd 3 5, .listAdd 4 0, .listMove 2 5, .listMoveTail 4 0,
      .listSpliceInit 5 0]
    (applyAll (fun _ => none) (prog.take 8) 0 = some [1, 4] ∧
      applyAll (fun _ => none) (prog.take 8) 5 = some [2, 3]) ∧
    ∃ k, execAll (fun _ => ⟨.null, .null⟩ : Heap (Fin 6)) prog = some k ∧
      Represents k (applyAll (fun _ => none) prog) ∧
      applyAll (fun _ => none) prog 0 = some [2, 3, 1, 4] ∧ listIsLast k 4 0 = true ∧
      applyAll (fun _ => none) prog 5 = some [] ∧ listEmpty k 5 = true := by
  intro prog
  have hp : Admissible (fun _ => none) prog := by
    refine ⟨?_, ?_, ?_, ?_, ?_, ?_, ?_, ?_, ?_, trivial⟩
    all_goals
      simp only [ListOp.Pre]
      decide +kernel
  have h₀ : applyAll (fun _ => none) prog 0 = some [2, 3, 1, 4] := by decide +kernel
  have h₅ : applyAll (fun _ => none) prog 5 = some [] := by decide +kernel
  obtain ⟨k, hk, R, hquery⟩ :=
    list_programs_refine_sequences (h := fun _ => ⟨.null, .null⟩) ⟨by simp, by simp⟩ prog hp 9
  exact ⟨by decide +kernel, k, hk, R, h₀, ((hquery 0 _ h₀).2.2 4 (by decide)).mpr rfl, h₅,
    (hquery 5 _ h₅).1.mpr rfl⟩

end Uki
