import Uki.Hlist.Spec

/-!
# Programs of hlist operations refine programs on sequences

`HlistOp` is one call of an hlist operation, `exec` runs it on the heap and `apply` on
the abstract state: the sequence of every head and, for every node, the call that set
it last. The run theorem keeps the two in step, and the query functions then answer
about the abstract state.
-/

set_option linter.style.nameCheck false

namespace Uki.Hlist

variable {η ν : Type}

/-- The calls that leave a node outside all lists. -/
inductive SetBy where
  | initHlistNode
  | hlistDel
  | hlistDelInit
deriving DecidableEq, Repr

structure State (η ν : Type) where
  lists : η → List ν
  setBy : ν → Option SetBy

namespace State

def Linked (S : State η ν) (n : ν) : Prop := ∃ hd, n ∈ S.lists hd

/-- In no list and last set by `INIT_HLIST_NODE` or `hlist_del_init`. -/
def Unhashed (S : State η ν) (n : ν) : Prop :=
  ¬ S.Linked n ∧ (S.setBy n = some .initHlistNode ∨ S.setBy n = some .hlistDelInit)

end State

/-- A call, with the source's parameter names. -/
inductive HlistOp (η ν : Type) where
  | initHlistNode (h : ν)
  | hlistAddHead (n : ν) (h : η)
  | hlistAddBefore (n next : ν)
  | hlistAddBehind (n prev : ν)
  | hlistDel (n : ν)
  | hlistDelInit (n : ν)
  | hlistMoveList (old new : η)

namespace HlistOp

variable [DecidableEq η] [DecidableEq ν]

def exec (h : Heap η ν) : HlistOp η ν → Option (Heap η ν)
  | initHlistNode n => some (Hlist.initHlistNode h n)
  | hlistAddHead n hd => Hlist.hlistAddHead h n hd
  | hlistAddBefore n next => Hlist.hlistAddBefore h n next
  | hlistAddBehind n prev => Hlist.hlistAddBehind h n prev
  | hlistDel n => Hlist.hlistDel h n
  | hlistDelInit n => Hlist.hlistDelInit h n
  | hlistMoveList old new => Hlist.hlistMoveList h old new

/-- What the caller owes: nodes that are initialised or added are unlinked, their
neighbours and the nodes to delete are linked, and a list is moved onto an empty head. -/
def Pre (S : State η ν) : HlistOp η ν → Prop
  | initHlistNode n | hlistAddHead n _ => ¬ S.Linked n
  | hlistAddBefore n next => ¬ S.Linked n ∧ S.Linked next
  | hlistAddBehind n prev => ¬ S.Linked n ∧ S.Linked prev
  | hlistDel n => S.Linked n
  | hlistDelInit n => S.Linked n ∨ S.Unhashed n
  | hlistMoveList _ new => S.lists new = []

def insertBefore (n next : ν) (xs : List ν) : List ν :=
  xs.flatMap fun x => if x = next then [n, next] else [x]

def insertBehind (n prev : ν) (xs : List ν) : List ν :=
  xs.flatMap fun x => if x = prev then [prev, n] else [x]

/-- The functional operation each call stands for. -/
def apply (S : State η ν) : HlistOp η ν → State η ν
  | initHlistNode n => { S with setBy := Function.update S.setBy n (some .initHlistNode) }
  | hlistAddHead n hd => { S with lists := Function.update S.lists hd (n :: S.lists hd) }
  | hlistAddBefore n next => { S with lists := fun hd => insertBefore n next (S.lists hd) }
  | hlistAddBehind n prev => { S with lists := fun hd => insertBehind n prev (S.lists hd) }
  | hlistDel n =>
      { lists := fun hd => (S.lists hd).erase n
        setBy := Function.update S.setBy n (some .hlistDel) }
  | hlistDelInit n =>
      { lists := fun hd => (S.lists hd).erase n
        setBy := Function.update S.setBy n (some .hlistDelInit) }
  | hlistMoveList old new =>
      { S with lists := Function.update (Function.update S.lists new (S.lists old)) old [] }

/-- The heads whose list the call is about. -/
def Touches (S : State η ν) (hd : η) : HlistOp η ν → Prop
  | initHlistNode _ => False
  | hlistAddHead _ h => hd = h
  | hlistAddBefore _ n | hlistAddBehind _ n | hlistDel n | hlistDelInit n => n ∈ S.lists hd
  | hlistMoveList old new => hd = old ∨ hd = new

end HlistOp

/-- The heap and the abstract state agree. -/
structure Refines (h : Heap η ν) (S : State η ν) [DecidableEq η] [DecidableEq ν] : Prop where
  lists : Represents h S.lists
  unhashed : ∀ n, hlistUnhashed h n = true ↔ S.Unhashed n

/-- The list of `hd`, its head and its nodes are as they were. -/
structure Untouched (h k : Heap η ν) (S S' : State η ν) (hd : η) : Prop where
  list : S'.lists hd = S.lists hd
  head : k.head hd = h.head hd
  node : ∀ x ∈ S.lists hd, k.node x = h.node x

theorem Untouched.trans {h k l : Heap η ν} {S S' S'' : State η ν} {hd : η}
    (hu : Untouched h k S S' hd) (hu' : Untouched k l S' S'' hd) : Untouched h l S S'' hd where
  list := hu'.list.trans hu.list
  head := hu'.head.trans hu.head
  node x hx := (hu'.node x (hu.list ▸ hx)).trans (hu.node x hx)

section Step

variable [DecidableEq η] [DecidableEq ν] {h k : Heap η ν} {S S' : State η ν} {hd : η}
  {hds : List η} {n : ν} {xs ns A B : List ν}

theorem Represents.unhashed_eq_false {L : η → List ν} (R : Represents h L) (hn : n ∈ L hd) :
    hlistUnhashed h n = false :=
  beq_eq_false_iff_ne.mpr ((R.list hd).pprev_ne_null hn)

/-- The common part of all steps: the written heads represent their new sequences, no
other list holds a written node, and the written nodes that are in no list have the
back pointer their last call leaves. -/
theorem Refines.of_writes (hR : Refines h S) (S' : State η ν) (hw : OnlyWrites h k hds ns)
    (hin : ∀ hd ∈ hds, IsList k hd (S'.lists hd))
    (hout : ∀ hd, hd ∉ hds → S'.lists hd = S.lists hd ∧ ∀ x ∈ S.lists hd, x ∉ ns)
    (hsub : ∀ hd ∈ hds, ∀ x ∈ S.lists hd, x ∈ ns)
    (hdis : ∀ hd hd', hd ≠ hd' → List.Disjoint (S'.lists hd) (S'.lists hd'))
    (hset : ∀ x, x ∉ ns → S'.setBy x = S.setBy x)
    (hback : ∀ x ∈ ns, ¬ S'.Linked x → (hlistUnhashed k x = true ↔
      S'.setBy x = some .initHlistNode ∨ S'.setBy x = some .hlistDelInit)) :
    Refines k S' ∧ ∀ hd, hd ∉ hds → Untouched h k S S' hd := by
  have R := hR.lists.of_writes hw hin hout hdis
  refine ⟨⟨R, fun x => ?_⟩, fun hd hm => ⟨(hout hd hm).1, hw.head hd hm, fun x hx => ?_⟩⟩
  · by_cases hL : S'.Linked x
    · obtain ⟨hd, hx⟩ := hL
      rw [R.unhashed_eq_false hx]
      exact iff_of_false Bool.false_ne_true fun hu => hu.1 ⟨hd, hx⟩
    by_cases hx : x ∈ ns
    · rw [hback x hx hL]
      exact ⟨fun hs => ⟨hL, hs⟩, fun hu => hu.2⟩
    · -- the cell of `x` was not written, and `x` was in no list before either
      have hcell : hlistUnhashed k x = hlistUnhashed h x := by
        unfold hlistUnhashed Heap.pprev
        rw [hw.node x hx]
      have hL' : ¬ S.Linked x := by
        rintro ⟨hd, hm⟩
        by_cases hhd : hd ∈ hds
        · exact hx (hsub hd hhd x hm)
        · exact hL ⟨hd, (hout hd hhd).1 ▸ hm⟩
      rw [hcell, hR.unhashed x]
      unfold State.Unhashed
      rw [hset x hx]
      exact and_congr_left fun _ => iff_of_true hL' hL
  · exact hw.node x ((hout hd hm).2 x hx)

omit [DecidableEq ν] in
/-- Changing one list keeps the lists disjoint as long as its new nodes come from no
other list. -/
theorem Represents.disjoint_update {L : η → List ν} (R : Represents h L)
    (hx : ∀ x ∈ xs, x ∈ L hd ∨ ∀ hd', x ∉ L hd') (a b : η) (hab : a ≠ b) :
    List.Disjoint (Function.update L hd xs a) (Function.update L hd xs b) := by
  -- the two cases with `hd` on one side are the same up to symmetry
  have one (b : η) (hb : hd ≠ b) : List.Disjoint xs (L b) := by
    intro x hm hmb
    rcases hx x hm with h | h
    · exact R.disjoint hd b hb h hmb
    · exact h b hmb
  rw [Function.update_apply, Function.update_apply]
  split
  · next ha =>
    subst ha
    rw [if_neg hab.symm]
    exact one b hab
  · split
    · next hb =>
      subst hb
      exact fun x hx hy => one a (Ne.symm hab) hy hx
    · exact R.disjoint a b hab

omit [DecidableEq ν] in
/-- A call that acts on the list of one node only changes the list of that node. -/
theorem Represents.map_eq_update {L : η → List ν} (R : Represents h L) (hn : n ∈ L hd)
    {f : List ν → List ν} (hf : ∀ xs, n ∉ xs → f xs = xs) :
    (fun hd => f (L hd)) = Function.update L hd (f (L hd)) := by
  funext x
  rw [Function.update_apply]
  split
  · next he => rw [he]
  · next hne => exact hf _ fun hm => R.disjoint x hd hne hm hn

/-! ## One call -/

/-- A node outside all lists is written, and its back pointer left as `s` says. -/
theorem Refines.write_unlinked (hR : Refines h S) (hw : OnlyWrites h k [] [n])
    (hn : ¬ S.Linked n) {s : SetBy}
    (hu : hlistUnhashed k n = true ↔ s = .initHlistNode ∨ s = .hlistDelInit) :
    Refines k { S with setBy := Function.update S.setBy n (some s) } ∧
      ∀ hd, Untouched h k S { S with setBy := Function.update S.setBy n (some s) } hd := by
  have hU := hR.of_writes { S with setBy := Function.update S.setBy n (some s) } hw
    (fun _ hm => nomatch hm) (fun hd _ => ⟨rfl, fun x hx hm => ?_⟩) (fun _ hm => nomatch hm)
    hR.lists.disjoint (fun x hx => Function.update_of_ne ?_ _ _) fun x hx _ => ?_
  · exact ⟨hU.1, fun hd => hU.2 hd List.not_mem_nil⟩
  · cases List.mem_singleton.mp hm
    exact hn ⟨hd, hx⟩
  · exact fun he => hx (List.mem_singleton.mpr he)
  · cases List.mem_singleton.mp hx
    simpa using hu

theorem Refines.insert (hR : Refines h S) (hL : S.lists hd = A ++ B) (hn : ¬ S.Linked n) :
    Refines ((h.tie (.next n) B.head?).tie (fieldAfter hd A) (some n))
        { S with lists := Function.update S.lists hd (A ++ n :: B) } ∧
      ∀ hd', hd' ≠ hd → Untouched h ((h.tie (.next n) B.head?).tie (fieldAfter hd A) (some n)) S
        { S with lists := Function.update S.lists hd (A ++ n :: B) } hd' := by
  have hl : IsList h hd (A ++ B) := hL ▸ hR.lists.list hd
  have hn' : n ∉ A ++ B := fun hm => hn ⟨hd, hL ▸ hm⟩
  have hw : OnlyWrites h _ [hd] (n :: (A ++ B)) := onlyWrites_insert
  have hU := hR.of_writes { S with lists := Function.update S.lists hd (A ++ n :: B) } hw
    (fun x hx => ?_)
    (fun x hx => ?_) (fun x hx y hy => ?_) (hR.lists.disjoint_update fun x hx => ?_)
    (fun _ _ => rfl) fun x hx hnl => ?_
  · exact ⟨hU.1, fun hd' hne => hU.2 hd' (by simpa using hne)⟩
  · cases List.mem_singleton.mp hx
    simp only [Function.update_self]
    exact hl.insert hn'
  · have hne : x ≠ hd := fun he => hx (List.mem_singleton.mpr he)
    refine ⟨Function.update_of_ne hne _ _, fun y hy hm => ?_⟩
    rcases List.mem_cons.mp hm with rfl | hm
    · exact hn ⟨x, hy⟩
    · exact hR.lists.disjoint x hd hne hy (hL ▸ hm)
  · cases List.mem_singleton.mp hx
    exact List.mem_cons_of_mem _ (hL ▸ hy)
  · rcases List.mem_cons.mp (List.perm_middle.mem_iff.mp hx) with rfl | hm
    · exact .inr fun hd' hm => hn ⟨hd', hm⟩
    · exact .inl (hL ▸ hm)
  · refine absurd ⟨hd, ?_⟩ hnl
    simp only [Function.update_self]
    exact List.perm_middle.mem_iff.mpr hx

theorem Refines.cut (hR : Refines h S) (hL : S.lists hd = A ++ n :: B) :
    Refines (h.tie (fieldAfter hd A) B.head?)
        ⟨Function.update S.lists hd (A ++ B), Function.update S.setBy n (some .hlistDel)⟩ ∧
      ∀ hd', hd' ≠ hd → Untouched h (h.tie (fieldAfter hd A) B.head?) S
        ⟨Function.update S.lists hd (A ++ B), Function.update S.setBy n (some .hlistDel)⟩ hd' := by
  have hl : IsList h hd (A ++ n :: B) := hL ▸ hR.lists.list hd
  have hn : n ∉ A ++ B := (List.nodup_cons.mp (List.nodup_middle.mp hl.nodup)).1
  have hw : OnlyWrites h _ [hd] (A ++ n :: B) := onlyWrites_cut
  have hU := hR.of_writes
    ⟨Function.update S.lists hd (A ++ B), Function.update S.setBy n (some .hlistDel)⟩ hw
    (fun x hx => ?_)
    (fun x hx => ?_) (fun x hx y hy => ?_) (hR.lists.disjoint_update fun x hx => ?_)
    (fun x hx => Function.update_of_ne ?_ _ _) fun x hx hnl => ?_
  · exact ⟨hU.1, fun hd' hne => hU.2 hd' (by simpa using hne)⟩
  · cases List.mem_singleton.mp hx
    simp only [Function.update_self]
    exact hl.cut
  · have hne : x ≠ hd := fun he => hx (List.mem_singleton.mpr he)
    exact ⟨Function.update_of_ne hne _ _, fun y hy hm => hR.lists.disjoint x hd hne hy (hL ▸ hm)⟩
  · cases List.mem_singleton.mp hx
    exact hL ▸ hy
  · exact .inl (hL ▸ List.perm_middle.mem_iff.mpr (List.mem_cons_of_mem _ hx))
  · rintro rfl
    exact hx (List.mem_append_right _ List.mem_cons_self)
  · rcases List.mem_cons.mp (List.perm_middle.mem_iff.mp hx) with rfl | hm
    · -- the removed node still holds its stale back pointer
      have hB : B.head? ≠ some x := fun he => hn (List.mem_append_right _ (List.mem_of_mem_head? he))
      have hx' : x ∈ S.lists hd := hL ▸ List.mem_append_right _ List.mem_cons_self
      rw [hlistUnhashed, pprev_tie_of_ne hB, ← hlistUnhashed, hR.lists.unhashed_eq_false hx']
      simp
    · refine absurd ⟨hd, ?_⟩ hnl
      simp only [Function.update_self]
      exact hm

theorem Refines.move {old new : η} (hR : Refines h S) (hnew : S.lists new = []) :
    let k := (h.tie (.first new) (S.lists old).head?).tie (.first old) none
    Refines k (HlistOp.apply S (.hlistMoveList old new)) ∧
      ∀ hd, ¬ (hd = old ∨ hd = new) →
        Untouched h k S (HlistOp.apply S (.hlistMoveList old new)) hd := by
  intro k
  have hl := hR.lists.list old
  have hmem (x : η) : x ∈ [old, new] ↔ x = old ∨ x = new := by simp
  have hlists (x : η) : (HlistOp.apply S (.hlistMoveList old new)).lists x =
      if x = old then [] else if x = new then S.lists old else S.lists x := by
    simp only [HlistOp.apply, Function.update_apply]
  have hw : OnlyWrites h k [old, new] (S.lists old) := onlyWrites_move
  have hU := hR.of_writes (HlistOp.apply S (.hlistMoveList old new)) hw (fun x hx => ?_)
    (fun x hx => ?_) (fun x hx y hy => ?_) (fun a b hab x ha hb => ?_) (fun _ _ => rfl)
    fun x hx hnl => ?_
  · exact ⟨hU.1, fun hd hm => hU.2 hd fun hm' => hm ((hmem hd).mp hm')⟩
  · rw [hlists]
    split
    · next he =>
      -- the emptied head, whether or not it is the same as the new one
      subst he
      exact ⟨.nil, by simp [TieThread.Thread, Heap.tie, Heap.Tied, k]⟩
    · next hne =>
      have he := ((hmem x).mp hx).resolve_left hne
      subst he
      rw [if_pos rfl]
      exact (hl.move hne).1
  · rw [hmem, not_or] at hx
    rw [hlists, if_neg hx.1, if_neg hx.2]
    exact ⟨rfl, fun y hy => hR.lists.disjoint x old hx.1 hy⟩
  · rcases (hmem x).mp hx with rfl | rfl
    · exact hy
    · rw [hnew] at hy
      cases hy
  · rw [hlists] at ha hb
    split at ha
    · cases ha
    split at hb
    · cases hb
    next hao hbo =>
      split at ha
      · next han =>
        rw [if_neg (fun hbn => hab (han.trans hbn.symm))] at hb
        exact hR.lists.disjoint old b (Ne.symm hbo) ha hb
      · split at hb
        · exact hR.lists.disjoint a old hao ha hb
        · exact hR.lists.disjoint a b hab ha hb
  · refine absurd ?_ hnl
    rcases eq_or_ne old new with rfl | hne
    · rw [hnew] at hx
      cases hx
    · exact ⟨new, by rw [hlists, if_neg hne.symm, if_pos rfl]; exact hx⟩

/-- `n` is unlinked by `__hlist_del` and its own fields are written. -/
theorem Refines.remove (hR : Refines h S) (hL : S.lists hd = A ++ n :: B) {s : SetBy}
    (hw : OnlyWrites (h.tie (fieldAfter hd A) B.head?) k [] [n])
    (hu : hlistUnhashed k n = true ↔ s = .initHlistNode ∨ s = .hlistDelInit) :
    Refines k ⟨fun hd => (S.lists hd).erase n, Function.update S.setBy n (some s)⟩ ∧
      ∀ hd', n ∉ S.lists hd' →
        Untouched h k S ⟨fun hd => (S.lists hd).erase n, Function.update S.setBy n (some s)⟩ hd' := by
  have hmem : n ∈ S.lists hd := hL ▸ List.mem_append_right _ List.mem_cons_self
  have hnd := (hR.lists.list hd).nodup
  have herase : (S.lists hd).erase n = A ++ B := by
    rw [hL] at hnd ⊢
    have hnA : n ∉ A := fun hm =>
      (List.nodup_cons.mp (List.nodup_middle.mp hnd)).1 (List.mem_append_left _ hm)
    rw [List.erase_append_right _ hnA, List.erase_cons_head]
  have hlists : (fun hd => (S.lists hd).erase n) = Function.update S.lists hd (A ++ B) := by
    rw [← herase]
    exact hR.lists.map_eq_update hmem fun xs hm => List.erase_of_not_mem hm
  have hn : n ∉ A ++ B := herase ▸ fun hm => (hnd.mem_erase_iff.mp hm).1 rfl
  obtain ⟨hC, hCU⟩ := hR.cut hL
  have hunl : ¬ State.Linked
      ⟨Function.update S.lists hd (A ++ B), Function.update S.setBy n (some .hlistDel)⟩ n := by
    rintro ⟨hd', hm⟩
    dsimp only at hm
    rw [Function.update_apply] at hm
    split at hm
    · exact hn hm
    · next hne => exact hR.lists.disjoint hd' hd hne hm hmem
  obtain ⟨hW, hWU⟩ := hC.write_unlinked hw hunl hu
  rw [hlists]
  simp only [Function.update_idem] at hW hWU
  refine ⟨hW, fun hd' hm => (hCU hd' ?_).trans (hWU hd')⟩
  rintro rfl
  exact hm hmem

omit [DecidableEq ν] in
/-- Lists without the node before which, or behind which, is inserted stay as they are. -/
theorem flatMap_eq_self {g : ν → List ν} (hg : ∀ x ∈ xs, g x = [x]) : xs.flatMap g = xs := by
  induction xs with
  | nil => rfl
  | cons x xs ih =>
    rw [List.flatMap_cons, hg x List.mem_cons_self, ih fun y hy => hg y (List.mem_cons_of_mem _ hy)]
    rfl

/-- The function that changes the list with `m` only. -/
theorem Represents.flatMap_eq_update {L : η → List ν} (R : Represents h L) {m : ν}
    (hL : L hd = A ++ m :: B) (ys : List ν) :
    (fun hd => (L hd).flatMap fun x => if x = m then ys else [x]) =
      Function.update L hd (A ++ ys ++ B) := by
  have hmem : m ∈ L hd := hL ▸ List.mem_append_right _ List.mem_cons_self
  have hnd := List.nodup_middle.mp (hL ▸ (R.list hd).nodup)
  have hm := (List.nodup_cons.mp hnd).1
  have hself {zs : List ν} (hz : m ∉ zs) :
      (zs.flatMap fun x => if x = m then ys else [x]) = zs :=
    flatMap_eq_self fun x hx => if_neg (by rintro rfl; exact hz hx)
  rw [R.map_eq_update hmem fun zs hz => hself hz, hL, List.flatMap_append, List.flatMap_cons,
    hself fun h => hm (List.mem_append_left _ h), hself fun h => hm (List.mem_append_right _ h),
    if_pos rfl, List.append_assoc]

open HlistOp in
/-- A call within its precondition ends without a fault, in a heap that agrees with the
abstract state after the functional operation. -/
theorem refines_step (hR : Refines h S) (op : HlistOp η ν) (hp : op.Pre S) :
    ∃ k, op.exec h = some k ∧ Refines k (op.apply S) ∧
      ∀ hd, ¬ op.Touches S hd → Untouched h k S (op.apply S) hd := by
  cases op with
  | initHlistNode n =>
    have hw : OnlyWrites h (Hlist.initHlistNode h n) [] [n] :=
      (onlyWrites_store _ (by simp)).trans (onlyWrites_setPprev _ (by simp))
    have hU := hR.write_unlinked (s := .initHlistNode) hw hp
      (by simp [hlistUnhashed, Hlist.initHlistNode])
    exact ⟨_, rfl, hU.1, fun hd _ => hU.2 hd⟩
  | hlistAddHead n hd =>
    have hL : S.lists hd = [] ++ S.lists hd := rfl
    exact ⟨_, hlistAddHead_eq (hR.lists.list hd), hR.insert hL hp⟩
  | hlistAddBefore n next =>
    obtain ⟨hn, hd, hm⟩ := hp
    obtain ⟨A, B, hL⟩ := List.append_of_mem hm
    have hl : IsList h hd (A ++ next :: B) := hL ▸ hR.lists.list hd
    have hne : n ≠ next := by
      rintro rfl
      exact hn ⟨hd, hm⟩
    have hU := hR.insert (B := next :: B) hL hn
    have ha := hR.lists.flatMap_eq_update hL [n, next]
    rw [List.append_assoc] at ha
    simp only [apply, insertBefore, ha]
    exact ⟨_, hlistAddBefore_eq hl hne, hU.1, fun x hx => hU.2 x (by rintro rfl; exact hx hm)⟩
  | hlistAddBehind n prev =>
    obtain ⟨hn, hd, hm⟩ := hp
    obtain ⟨A, B, hL⟩ := List.append_of_mem hm
    have hl : IsList h hd (A ++ prev :: B) := hL ▸ hR.lists.list hd
    have hn' : n ∉ A ++ prev :: B := fun h => hn ⟨hd, hL ▸ h⟩
    have hL' : S.lists hd = (A ++ [prev]) ++ B := by rw [hL, List.append_assoc]; rfl
    have hU := hR.insert hL' hn
    have he : fieldAfter hd (A ++ [prev]) = .next prev := by
      rw [fieldAfter, List.map_append]
      exact List.getLastD_concat
    rw [he, List.append_assoc] at hU
    have ha := hR.lists.flatMap_eq_update hL [prev, n]
    rw [List.append_assoc] at ha
    simp only [apply, insertBehind, ha]
    exact ⟨_, hlistAddBehind_eq hl hn', hU.1, fun x hx => hU.2 x (by rintro rfl; exact hx hm)⟩
  | hlistDel n =>
    obtain ⟨hd, hm⟩ := hp
    obtain ⟨A, B, hL⟩ := List.append_of_mem hm
    refine ⟨_, hlistDel_eq (hL ▸ hR.lists.list hd), hR.remove (s := .hlistDel) hL ?_ ?_⟩
    · exact (onlyWrites_store _ (by simp)).trans (onlyWrites_setPprev _ (by simp))
    · simp [hlistUnhashed]
  | hlistDelInit n =>
    rcases hp with ⟨hd, hm⟩ | hun
    · obtain ⟨A, B, hL⟩ := List.append_of_mem hm
      refine ⟨_, hlistDelInit_eq (hL ▸ hR.lists.list hd), hR.remove (s := .hlistDelInit) hL ?_ ?_⟩
      · exact (onlyWrites_store _ (by simp)).trans (onlyWrites_setPprev _ (by simp))
      · simp [hlistUnhashed, Hlist.initHlistNode]
    · -- an unhashed node is left alone
      have hu := (hR.unhashed n).mpr hun
      have hlists : (fun hd => (S.lists hd).erase n) = S.lists := by
        funext hd
        exact List.erase_of_not_mem fun hm => hun.1 ⟨hd, hm⟩
      have hU := hR.write_unlinked (s := .hlistDelInit) (OnlyWrites.refl h [] [n]) hun.1 (by simp [hu])
      simp only [exec, apply, hlists, Hlist.hlistDelInit, hu]
      exact ⟨h, rfl, hU.1, fun hd _ => hU.2 hd⟩
  | hlistMoveList old new =>
    exact ⟨_, hlistMoveList_eq (hR.lists.list old), hR.move hp⟩

/-! ## Queries -/

omit [DecidableEq η] in
theorem IsList.hlistEmpty_iff (hl : IsList h hd xs) : hlistEmpty h hd = true ↔ xs = [] := by
  have hload : h.load (.first hd) = ptr xs.head? := hl.load_at (A := [])
  rw [hlistEmpty, hload, beq_iff_eq]
  cases xs <;> simp [ptr]

theorem Represents.hlistIsSingularNode_iff {L : η → List ν} (R : Represents h L) {hd' : η}
    (hn : n ∈ L hd') : hlistIsSingularNode h n hd = true ↔ L hd = [n] := by
  obtain ⟨A, B, hL⟩ := List.append_of_mem hn
  have hl : IsList h hd' (A ++ n :: B) := hL ▸ R.list hd'
  rw [hlistIsSingularNode, hl.load_next, hl.pprev_at, Bool.and_eq_true, beq_iff_eq, beq_iff_eq]
  constructor
  · rintro ⟨hB, hA⟩
    have hf : fieldAfter hd' A = .first hd := Ptr.to.inj hA
    have hB' : B = [] := by
      cases B with
      | nil => rfl
      | cons b B => cases hB
    -- the field before `n` is a head's only at the front
    have hA' : A = [] := by
      rcases List.eq_nil_or_concat A with rfl | ⟨A', x, rfl⟩
      · rfl
      · rw [fieldAfter, List.concat_eq_append, List.map_append, List.map_singleton,
          List.getLastD_concat] at hf
        cases hf
    subst hA' hB'
    cases hf
    exact hL
  · intro he
    have hhd : hd' = hd := by
      by_contra hne
      exact R.disjoint hd' hd hne hn (he ▸ List.mem_singleton_self n)
    subst hhd
    rw [he] at hL
    obtain ⟨rfl, rfl⟩ : A = [] ∧ B = [] := by
      have hlen := congrArg List.length hL
      simp only [List.length_append, List.length_cons, List.length_nil] at hlen
      exact ⟨List.length_eq_zero_iff.mp (by omega), List.length_eq_zero_iff.mp (by omega)⟩
    exact ⟨rfl, rfl⟩

end Step

/-! ## Programs -/

variable [DecidableEq η] [DecidableEq ν]

def execAll : Heap η ν → List (HlistOp η ν) → Option (Heap η ν)
  | h, [] => some h
  | h, op :: prog => do
      let h ← op.exec h
      execAll h prog

def applyAll : State η ν → List (HlistOp η ν) → State η ν
  | S, [] => S
  | S, op :: prog => applyAll (op.apply S) prog

/-- Each call of the program meets its precondition when it is made. -/
def Admissible : State η ν → List (HlistOp η ν) → Prop
  | _, [] => True
  | S, op :: prog => op.Pre S ∧ Admissible (op.apply S) prog

/-- The abstract state before the first call: a node found unhashed counts as
initialised. -/
def State.start (h : Heap η ν) (L : η → List ν) : State η ν where
  lists := L
  setBy n := if hlistUnhashed h n then some .initHlistNode else none

theorem refines_start {h : Heap η ν} {L : η → List ν} (R : Represents h L) :
    Refines h (State.start h L) := by
  refine ⟨R, fun n => ?_⟩
  unfold State.Unhashed State.start
  constructor
  · intro hu
    refine ⟨?_, by simp [hu]⟩
    rintro ⟨hd, hm⟩
    rw [R.unhashed_eq_false hm] at hu
    cases hu
  · rintro ⟨-, hs⟩
    by_contra hu
    simp [hu] at hs

theorem refines_run {h : Heap η ν} {S : State η ν} (hR : Refines h S) {prog : List (HlistOp η ν)}
    (hp : Admissible S prog) (i : Nat) :
    ∃ k, execAll h (prog.take i) = some k ∧ Refines k (applyAll S (prog.take i)) ∧
      ∀ op, prog[i]? = some op → op.Pre (applyAll S (prog.take i)) := by
  induction prog generalizing h S i with
  | nil =>
    rw [List.take_nil]
    exact ⟨h, rfl, hR, fun op he => by simp at he⟩
  | cons op prog ih =>
    cases i with
    | zero =>
      refine ⟨h, rfl, hR, fun op' he => ?_⟩
      cases he
      exact hp.1
    | succ i =>
      obtain ⟨k, hk, hR', -⟩ := refines_step hR op hp.1
      obtain ⟨l, hl, hR'', hpre⟩ := ih hR' hp.2 i
      exact ⟨l, by simpa [execAll, hk] using hl, hR'', fun op' he => hpre op' (by simpa using he)⟩

/-- Every program of hlist calls, run within their preconditions on a heap that
represents disjoint sequences, is after every call in step with the functional
operations, and the next call leaves alone every list it is not about. The query
functions answer about the abstract state. -/
theorem hlist_programs_refine_sequences {h : Heap η ν} {L : η → List ν} (R : Represents h L)
    (prog : List (HlistOp η ν)) (hp : Admissible (State.start h L) prog) (i : Nat) :
    ∃ k S, execAll h (prog.take i) = some k ∧ S = applyAll (State.start h L) (prog.take i) ∧
      Represents k S.lists ∧
      (∀ n, hlistUnhashed k n = true ↔ S.Unhashed n) ∧
      (∀ n hd, S.Linked n → (hlistIsSingularNode k n hd = true ↔ S.lists hd = [n])) ∧
      (∀ hd, hlistEmpty k hd = true ↔ S.lists hd = []) ∧
      ∀ op, prog[i]? = some op → ∃ l, op.exec k = some l ∧
        ∀ hd, ¬ op.Touches S hd → Untouched k l S (op.apply S) hd := by
  obtain ⟨k, hk, hR, hpre⟩ := refines_run (refines_start R) hp i
  refine ⟨k, _, hk, rfl, hR.lists, hR.unhashed, ?_, fun hd => (hR.lists.list hd).hlistEmpty_iff,
    fun op he => ?_⟩
  · rintro n hd ⟨hd', hm⟩
    exact hR.lists.hlistIsSingularNode_iff hm
  · obtain ⟨l, hl, -, hu⟩ := refines_step hR op (hpre op he)
    exact ⟨l, hl, hu⟩

/-- On fresh heads and nodes: a list of two is built, one entry goes, the rest moves. -/
theorem hlist_programs_refine_sequences_test1 :
    ∃ k S, execAll (⟨fun _ => ⟨.null⟩, fun _ => ⟨.null, .listPoison2⟩⟩ : Heap Bool Nat)
        [.hlistAddHead 1 false, .hlistAddBehind 2 1, .hlistDelInit 1] = some k ∧
      S = applyAll ⟨fun _ => [], fun _ => none⟩
        [.hlistAddHead 1 false, .hlistAddBehind 2 1, .hlistDelInit 1] ∧
      Represents k S.lists ∧
      (∀ n, hlistUnhashed k n = true ↔ S.Unhashed n) ∧
      (∀ n hd, S.Linked n → (hlistIsSingularNode k n hd = true ↔ S.lists hd = [n])) ∧
      (∀ hd, hlistEmpty k hd = true ↔ S.lists hd = []) ∧
      ∀ op, some (.hlistMoveList false true) = some op → ∃ l, HlistOp.exec k op = some l ∧
        ∀ hd, ¬ op.Touches S hd → Untouched k l S (op.apply S) hd := by
  refine hlist_programs_refine_sequences
    (h := (⟨fun _ => ⟨.null⟩, fun _ => ⟨.null, .listPoison2⟩⟩ : Heap Bool Nat))
    (L := fun _ => []) ⟨fun hd => ⟨.nil, rfl⟩, fun _ _ _ _ hm => nomatch hm⟩
    [.hlistAddHead 1 false, .hlistAddBehind 2 1, .hlistDelInit 1, .hlistMoveList false true] ?_ 3
  refine ⟨?_, ⟨?_, false, by decide⟩, .inl ⟨false, by decide⟩, rfl, trivial⟩
  · rintro ⟨hd, hm⟩
    cases hm
  · rintro ⟨hd, hm⟩
    cases hd <;> revert hm <;> decide

end Uki.Hlist
