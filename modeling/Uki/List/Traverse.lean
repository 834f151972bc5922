import Uki.Lib.Walk
import Uki.List.Cut

/-!
# The loops of `list.h`

A `list_for_each` macro is a `for` statement around a body that the caller writes. The
body of the `_safe` forms may unlink the entry it is run on; the plain forms follow a
field of this entry after the body has run. `list_entry` computes the address of the
object from that of its `struct list_head`, so the `_entry` forms are the same loops.

Results:
1. `list_loops_visit_in_order`: the plain forms run the body on each entry from where
   they start, in their order.
2. `list_safe_loops_delete`: the `_safe` forms may delete entries on their way.
3. `list_loops_delete_iff`: the plain forms may not; after `list_del` they follow the
   poison, after `list_del_init` they never end.
4. `list_safe_loops_move`: the `_safe` forms may move entries to another list.
-/

set_option linter.style.nameCheck false

namespace Uki

open Walk

variable {ν σ : Type}

/-! ## Directions -/

/-- The two fields that loops follow. -/
inductive Dir where
  | fwd
  | bwd
deriving DecidableEq

/-- The pointer that a loop follows from `n`. -/
def Heap.toward (h : Heap ν) (d : Dir) (n : ν) : Ptr ν :=
  match d with
  | .fwd => h.next n
  | .bwd => h.prev n

/-- The order in which a list is met. -/
def Dir.order (d : Dir) (xs : List ν) : List ν :=
  match d with
  | .fwd => xs
  | .bwd => xs.reverse

/-- Loops around the ring of `head`. -/
def ringLinks (d : Dir) (head : ν) : Links (Heap ν) ν (Ptr ν) where
  stop := .to head
  addr := Ptr.deref
  field h n := h.toward d n

/-! ## The macros -/

section Macros

variable [DecidableEq ν] (body : σ → Heap ν → ν → Option (σ × Heap ν)) (fuel : Nat) (e : σ)
  (h : Heap ν)

def listForEach (head : ν) : Option (σ × Heap ν) :=
  (ringLinks .fwd head).loop body fuel e h (h.next head)

def listForEachPrev (head : ν) : Option (σ × Heap ν) :=
  (ringLinks .bwd head).loop body fuel e h (h.prev head)

def listForEachSafe (head : ν) : Option (σ × Heap ν) :=
  (ringLinks .fwd head).safeLoop body fuel e h (h.next head)

def listForEachPrevSafe (head : ν) : Option (σ × Heap ν) :=
  (ringLinks .bwd head).safeLoop body fuel e h (h.prev head)

def listForEachEntry (head : ν) : Option (σ × Heap ν) := listForEach body fuel e h head

def listForEachEntryReverse (head : ν) : Option (σ × Heap ν) := listForEachPrev body fuel e h head

/-- `list_prepare_entry(pos, head)`, where `pos` may be `NULL`. -/
def listPrepareEntry (pos : Option ν) (head : ν) : ν := pos.getD head

def listForEachEntryContinue (pos head : ν) : Option (σ × Heap ν) :=
  (ringLinks .fwd head).loop body fuel e h (h.next pos)

def listForEachEntryContinueReverse (pos head : ν) : Option (σ × Heap ν) :=
  (ringLinks .bwd head).loop body fuel e h (h.prev pos)

def listForEachEntryFrom (pos head : ν) : Option (σ × Heap ν) :=
  (ringLinks .fwd head).loop body fuel e h (.to pos)

def listForEachEntryFromReverse (pos head : ν) : Option (σ × Heap ν) :=
  (ringLinks .bwd head).loop body fuel e h (.to pos)

def listForEachEntrySafe (head : ν) : Option (σ × Heap ν) := listForEachSafe body fuel e h head

def listForEachEntrySafeReverse (head : ν) : Option (σ × Heap ν) :=
  listForEachPrevSafe body fuel e h head

def listForEachEntrySafeContinue (pos head : ν) : Option (σ × Heap ν) :=
  (ringLinks .fwd head).safeLoop body fuel e h (h.next pos)

def listForEachEntrySafeFrom (pos head : ν) : Option (σ × Heap ν) :=
  (ringLinks .fwd head).safeLoop body fuel e h (.to pos)

end Macros

/-! ## A list read backwards -/

/-- The heap with `next` and `prev` exchanged. -/
def Heap.flip (h : Heap ν) : Heap ν := fun n => ⟨h.prev n, h.next n⟩

theorem Represents.flip {h : Heap ν} {H : Heads ν} (R : Represents h H) :
    Represents h.flip (H.mapAll List.reverse) where
  ring hd ys hy := by
    obtain ⟨xs, hx, rfl⟩ := Option.map_eq_some_iff.mp hy
    exact (R.ring hd xs hx).reverse.frame fun x y _ _ hxy => ⟨hxy.2, hxy.1⟩
  disjoint hd hd' ys ys' hy hy' hne n hn hn' := by
    obtain ⟨xs, hx, rfl⟩ := Option.map_eq_some_iff.mp hy
    obtain ⟨xs', hx', rfl⟩ := Option.map_eq_some_iff.mp hy'
    refine R.disjoint hd hd' xs xs' hx hx' hne n ?_ ?_
    · simpa using hn
    · simpa using hn'

/-! ## Paths along a ring -/

section Paths

variable {h : Heap ν} {H : Heads ν} {hd x : ν} {A B xs : List ν}

/-- Where the field of the head or of an entry leads. -/
theorem Represents.toward_eq (R : Represents h H) {d : Dir} (hx : H hd = some (d.order (A ++ B))) :
    h.toward d (A.getLastD hd) = .to (B.headD hd) := by
  have next_eq {k : Heap ν} {K : Heads ν} (R : Represents k K) (hx : K hd = some (A ++ B)) :
      k.next (A.getLastD hd) = .to (B.headD hd) := by
    have hp : (hd :: A).getLast? = some (A.getLastD hd) := by
      rw [List.getLast?_cons, List.getLastD_eq_getLast?]
    have hq : (B ++ [hd]).head? = some (B.headD hd) := by
      cases B with
      | nil => rfl
      | cons b B => rfl
    exact ((R.ring hd _ hx).link_between hp hq).1
  cases d with
  | fwd => exact next_eq R hx
  | bwd =>
    refine next_eq R.flip ?_
    rw [Heads.mapAll, hx]
    exact congrArg some (List.reverse_reverse _)

theorem Represents.toward_head (R : Represents h H) {d : Dir} (hx : H hd = some (d.order xs)) :
    h.toward d hd = .to (xs.headD hd) := R.toward_eq (A := []) hx

theorem Represents.toward_entry (R : Represents h H) {d : Dir}
    (hx : H hd = some (d.order (A ++ x :: B))) : h.toward d x = .to (B.headD hd) := by
  have hx' : H hd = some (d.order ((A ++ [x]) ++ B)) := by rw [hx, List.append_assoc]; rfl
  have h := R.toward_eq hx'
  rwa [List.getLastD_concat] at h

theorem Dir.mem_order {d : Dir} : x ∈ d.order xs ↔ x ∈ xs := by
  cases d with
  | fwd => rfl
  | bwd => exact List.mem_reverse

/-- The rest of a ring, after the part that has been met. -/
theorem Represents.path (R : Represents h H) {d : Dir} (hx : H hd = some (d.order (A ++ B))) :
    (ringLinks d hd).Path h (.to (B.headD hd)) B := by
  induction B generalizing A with
  | nil => rfl
  | cons x B ih =>
    have hm : x ∈ d.order (A ++ x :: B) := Dir.mem_order.mpr (by simp)
    refine ⟨fun he => R.ne_head hx hm (Ptr.to.inj he), rfl, ?_⟩
    have hx' : H hd = some (d.order ((A ++ [x]) ++ B)) := by rw [hx, List.append_assoc]; rfl
    have hnext : (ringLinks d hd).field h x = .to (B.headD hd) := R.toward_entry hx
    rw [hnext]
    exact ih hx'

end Paths

/-! ## Visits -/

section Visit

variable [DecidableEq ν] {h : Heap ν} {H : Heads ν} {hd : ν} {xs : List ν} {fuel : Nat} {e : σ}
  {body : σ → Heap ν → ν → Option (σ × Heap ν)}

/-- The body leaves the nodes of the ring alone. -/
def LeavesRing (body : σ → Heap ν → ν → Option (σ × Heap ν)) (hd : ν) (xs : List ν) : Prop :=
  ∀ e h x e' h', body e h x = some (e', h') → ∀ y ∈ hd :: xs, h' y = h y

theorem loop_visits (R : Represents h H) (hbody : LeavesRing body hd xs) (hf : xs.length < fuel)
    {d : Dir} {A B : List ν} (hx : H hd = some xs) (ho : d.order xs = A ++ B) :
    (ringLinks d hd).loop body fuel e h (.to (B.headD hd)) =
      B.foldlM (fun s x => body s.1 s.2 x) (e, h) := by
  have hx' : H hd = some (d.order (A ++ B)) := by
    rw [hx, ← ho]
    cases d with
    | fwd => rfl
    | bwd => exact congrArg some (List.reverse_reverse _).symm
  have hmem (y : ν) (hy : y ∈ B) : y ∈ xs := by
    have hm : y ∈ d.order xs := ho ▸ List.mem_append_right A hy
    exact Dir.mem_order.mp hm
  have hlen : B.length < fuel := by
    have hl : (d.order xs).length = xs.length := by
      cases d with
      | fwd => rfl
      | bwd => exact List.length_reverse
    rw [ho, List.length_append] at hl
    omega
  refine Links.loop_eq_foldlM (fun e h x e' h' hb y hy => ?_) (R.path hx') hlen
  have hcell := hbody e h x e' h' hb y (List.mem_cons_of_mem _ (hmem y hy))
  cases d with
  | fwd => exact congrArg ListHead.next hcell
  | bwd => exact congrArg ListHead.prev hcell

theorem listForEach_eq (R : Represents h H) (hx : H hd = some xs) (hbody : LeavesRing body hd xs)
    (hf : xs.length < fuel) :
    listForEach body fuel e h hd = xs.foldlM (fun s y => body s.1 s.2 y) (e, h) := by
  have hnext : h.next hd = .to (xs.headD hd) := R.toward_head (d := .fwd) hx
  rw [listForEach, hnext]
  exact loop_visits R hbody hf (A := []) hx rfl

/-- `list_for_each` and its relatives are folds over the part of the list that they
are for, in the order they are for. -/
theorem list_loops_visit_in_order (R : Represents h H) (hx : H hd = some xs)
    (hbody : LeavesRing body hd xs) (hf : xs.length < fuel) :
    let visit := fun ys : List ν => ys.foldlM (fun s y => body s.1 s.2 y) (e, h)
    listForEach body fuel e h hd = visit xs ∧
      listForEachPrev body fuel e h hd = visit xs.reverse ∧
      listForEachEntryContinue body fuel e h (listPrepareEntry none hd) hd = visit xs ∧
      ∀ A x B, xs = A ++ x :: B →
        listForEachEntryContinue body fuel e h x hd = visit B ∧
        listForEachEntryContinueReverse body fuel e h x hd = visit A.reverse ∧
        listForEachEntryFrom body fuel e h x hd = visit (x :: B) ∧
        listForEachEntryFromReverse body fuel e h x hd = visit (x :: A.reverse) := by
  intro visit
  have hnext : h.next hd = .to (xs.headD hd) := R.toward_head (d := .fwd) hx
  have hprev : h.prev hd = .to (xs.reverse.headD hd) :=
    R.toward_head (d := .bwd) (by rw [hx]; exact congrArg some (List.reverse_reverse xs).symm)
  refine ⟨listForEach_eq R hx hbody hf, ?_, ?_, fun A x B hxs => ⟨?_, ?_, ?_, ?_⟩⟩
  · rw [listForEachPrev, hprev]
    exact loop_visits R hbody hf (A := []) hx rfl
  · rw [listForEachEntryContinue, listPrepareEntry, Option.getD_none, hnext]
    exact loop_visits R hbody hf (A := []) hx rfl
  · have hn : h.next x = .to (B.headD hd) := R.toward_entry (d := .fwd) (hxs ▸ hx)
    rw [listForEachEntryContinue, hn]
    exact loop_visits R hbody hf (d := .fwd) (A := A ++ [x]) hx (by simp [Dir.order, hxs])
  · have hp : h.prev x = .to (A.reverse.headD hd) :=
      R.toward_entry (d := .bwd) (A := B.reverse) (by simp [Dir.order, hx, hxs])
    rw [listForEachEntryContinueReverse, hp]
    exact loop_visits R hbody hf (d := .bwd) (A := B.reverse ++ [x]) hx (by simp [Dir.order, hxs])
  · exact loop_visits R hbody hf (d := .fwd) (A := A) (B := x :: B) hx hxs
  · exact loop_visits R hbody hf (d := .bwd) (A := B.reverse) (B := x :: A.reverse) hx
      (by simp [Dir.order, hxs])

end Visit

/-- The head 0 with the entries 1, 2, 3, and the empty head 4. -/
def fiveNodes : Heap Nat := fun n =>
  if n = 4 then ⟨.to 4, .to 4⟩ else ⟨.to ((n + 1) % 4), .to ((n + 3) % 4)⟩

def threeEntries : Heads Nat := (Heads.set (fun _ => none) 4 (some [])).set 0 (some [1, 2, 3])

theorem represents_threeEntries : Represents fiveNodes threeEntries := by
  refine ((represents_none _).put ⟨by decide, ?_⟩ fun n _ => avoids_none n).put ⟨by decide, ?_⟩
    fun n hn => (avoids_none n).set_some ?_
  · simp [Heap.Link, Heap.next, Heap.prev, fiveNodes]
  · simp [Heap.Link, Heap.next, Heap.prev, fiveNodes]
  · rintro hm
    cases List.mem_singleton.mp hm
    exact absurd hn (by decide)

/-- A body that notes the entries, from the entry 2 on. -/
theorem list_loops_visit_in_order_test1 :
    (listForEachEntryFrom (fun e h x => some (e ++ [x], h)) 4 [] fiveNodes 2 0).map Prod.fst =
        some [2, 3] ∧
      (listForEachEntryFromReverse (fun e h x => some (e ++ [x], h)) 4 [] fiveNodes 2 0).map
        Prod.fst = some [2, 1] := by
  have hbody :
      LeavesRing (fun (e : List Nat) (h : Heap Nat) x => some (e ++ [x], h)) 0 [1, 2, 3] := by
    intro e h x e' h' he y _
    cases he
    rfl
  have hx : threeEntries 0 = some [1, 2, 3] := rfl
  have hf : [1, 2, 3].length < 4 := by decide
  obtain ⟨-, -, -, hparts⟩ :=
    list_loops_visit_in_order (e := []) represents_threeEntries hx hbody hf
  obtain ⟨-, -, hfrom, hreverse⟩ := hparts [1] 2 [3] rfl
  rw [hfrom, hreverse]
  exact ⟨rfl, rfl⟩

/-! ## Deleting on the way -/

section Delete

variable [DecidableEq ν]

variable {h k : Heap ν} {H : Heads ν} {hd x : ν} {A B xs : List ν} {d : Dir} {p : ν → Bool}
  {del : Heap ν → ν → Option (Heap ν)} {fuel : Nat}

omit [DecidableEq ν] in
/-- An entry in the middle of a list that is met in either direction. -/
theorem Dir.order_split (d : Dir) (A : List ν) (x : ν) (B : List ν) :
    ∃ A' B', d.order (A ++ x :: B) = A' ++ x :: B' ∧ d.order (A ++ B) = A' ++ B' := by
  cases d with
  | fwd => exact ⟨A, B, rfl, rfl⟩
  | bwd => exact ⟨B.reverse, A.reverse, by simp [Dir.order], by simp [Dir.order]⟩

theorem represents_del (hdel : del = listDel ∨ del = listDelInit) (R : Represents h H)
    (hx : H hd = some (d.order (A ++ x :: B))) :
    ∃ k, del h x = some k ∧ Represents k (H.set hd (some (d.order (A ++ B)))) := by
  obtain ⟨A', B', hsplit, hjoin⟩ := d.order_split A x B
  rw [hsplit] at hx
  rw [hjoin]
  rcases hdel with rfl | rfl
  · exact represents_listDel R hx
  · obtain ⟨k, hk, R'⟩ := represents_listDelInit R hx
    have R' := R'.drop x
    rw [Heads.set_set, (R.avoids_removed hx).set_none_eq] at R'
    exact ⟨k, hk, R'⟩

theorem safeLoop_deletes (hdel : del = listDel ∨ del = listDelInit) (R : Represents h H)
    (hx : H hd = some (d.order (A ++ B))) (hf : B.length < fuel) :
    ∃ k, (ringLinks d hd).safeLoop (deleteIf p del) fuel [] h (.to (B.headD hd)) =
        some (B.filter p, k) ∧
      Represents k (H.set hd (some (d.order (A ++ B.filter fun x => !p x)))) := by
  let Rep (A B : List ν) (k : Heap ν) : Prop :=
    Represents k (H.set hd (some (d.order (A ++ B))))
  have hat (ys : List ν) : (H.set hd (some (d.order ys))) hd = some (d.order ys) :=
    Heads.set_self _ _ _
  have h0 : Rep A B h := by
    simp only [Rep]
    rwa [Heads.set_eq_self hx]
  have hdel' (A : List ν) (x : ν) (B : List ν) (k : Heap ν) (hR : Rep A (x :: B) k) :
      ∃ k', del k x = some k' ∧ Rep A B k' := by
    obtain ⟨k', hk', R'⟩ := represents_del hdel hR (hat _)
    rw [Heads.set_set] at R'
    exact ⟨k', hk', R'⟩
  obtain ⟨k, hrun, R'⟩ := safeLoop_deleteIf (L := ringLinks d hd) (p := p)
    (c := fun B => .to (B.headD hd)) (J := Rep) (fun A B k hR => hR.path (hat _))
    (fun A x B k hR => hR.toward_entry (hat _))
    (fun A x B k hR => by simpa [Rep] using hR) hdel' h0 hf
  exact ⟨k, hrun, by simpa [Rep] using R'⟩

/-- The `_safe` forms reach every entry although entries are deleted on the way. The
others stay in the list, in their order. -/
theorem list_safe_loops_delete (hdel : del = listDel ∨ del = listDelInit) (R : Represents h H)
    (hx : H hd = some xs) (hf : xs.length < fuel) (p : ν → Bool) :
    (∃ k, listForEachSafe (deleteIf p del) fuel [] h hd = some (xs.filter p, k) ∧
      Represents k (H.set hd (some (xs.filter fun x => !p x)))) ∧
    (∃ k, listForEachPrevSafe (deleteIf p del) fuel [] h hd = some ((xs.filter p).reverse, k) ∧
      Represents k (H.set hd (some (xs.filter fun x => !p x)))) ∧
    ∀ A x B, xs = A ++ x :: B →
      (∃ k, listForEachEntrySafeContinue (deleteIf p del) fuel [] h x hd = some (B.filter p, k) ∧
        Represents k (H.set hd (some (A ++ x :: B.filter fun x => !p x)))) ∧
      ∃ k, listForEachEntrySafeFrom (deleteIf p del) fuel [] h x hd =
          some ((x :: B).filter p, k) ∧
        Represents k (H.set hd (some (A ++ (x :: B).filter fun x => !p x))) := by
  have hbwd : H hd = some (Dir.bwd.order xs.reverse) := by
    rw [hx]
    exact congrArg some (List.reverse_reverse xs).symm
  refine ⟨?_, ?_, fun A x B hxs => ⟨?_, ?_⟩⟩
  · have hnext : h.next hd = .to (xs.headD hd) := R.toward_head (d := .fwd) hx
    rw [listForEachSafe, hnext]
    exact safeLoop_deletes (A := []) (d := .fwd) hdel R hx hf
  · have hprev : h.prev hd = .to (xs.reverse.headD hd) := R.toward_head (d := .bwd) hbwd
    obtain ⟨k, hk, R'⟩ := safeLoop_deletes (p := p) (A := []) (B := xs.reverse) hdel R hbwd
      (by rw [List.length_reverse]; exact hf)
    rw [listForEachPrevSafe, hprev]
    refine ⟨k, by rw [hk, List.filter_reverse], ?_⟩
    simpa [Dir.order, List.filter_reverse] using R'
  · have hn : h.next x = .to (B.headD hd) := R.toward_entry (d := .fwd) (hxs ▸ hx)
    have hx' : H hd = some (Dir.fwd.order (A ++ [x] ++ B)) := by simp [Dir.order, hx, hxs]
    have hB : B.length < fuel := by
      simp [hxs] at hf
      omega
    obtain ⟨k, hk, R'⟩ := safeLoop_deletes (p := p) hdel R hx' hB
    rw [listForEachEntrySafeContinue, hn]
    refine ⟨k, hk, ?_⟩
    simpa [Dir.order] using R'
  · exact safeLoop_deletes (A := A) (B := x :: B) (d := .fwd) hdel R (hxs ▸ hx)
      (by simp [hxs] at hf ⊢; omega)

/-- The odd entries are deleted. -/
theorem list_safe_loops_delete_test1 :
    ∃ k, listForEachSafe (deleteIf (fun x => x % 2 == 1) listDel) 4 [] fiveNodes 0 =
        some ([1, 3], k) ∧
      Represents k (threeEntries.set 0 (some [2])) :=
  (list_safe_loops_delete (.inl rfl) represents_threeEntries (h := fiveNodes)
    (show threeEntries 0 = some [1, 2, 3] from rfl) (by decide) fun x => x % 2 == 1).1

/-- After `list_del` the fields of the entry are poison. -/
theorem toward_listDel (hd : ν) (hk : listDel h x = some k) (d : Dir) :
    k.toward d x ≠ .to hd ∧ (k.toward d x).deref = none := by
  obtain ⟨k₀, -, hk⟩ := Option.bind_eq_some_iff.mp hk
  cases hk
  cases d with
  | fwd => simp [Heap.toward, Ptr.deref]
  | bwd => simp [Heap.toward, Ptr.deref]

/-- After `list_del_init` they lead back to the entry. -/
theorem toward_listDelInit (hk : listDelInit h x = some k) (d : Dir) : k.toward d x = .to x := by
  obtain ⟨k₀, -, hk⟩ := Option.bind_eq_some_iff.mp hk
  cases hk
  cases d with
  | fwd => simp [Heap.toward, initListHead]
  | bwd => simp [Heap.toward, initListHead]

/-- A loop whose cursor stays on an entry that is linked to itself. -/
theorem loop_stuck (hne : x ≠ hd) (hp : p x = true) (fuel : Nat) {deleted : List ν}
    (hk : ∀ d, k.toward d x = .to x) :
    (ringLinks d hd).loop (deleteIf p listDelInit) fuel deleted k (.to x) = none := by
  induction fuel generalizing deleted k with
  | zero => rfl
  | succ fuel ih =>
    have hn : k.next x = .to x := hk .fwd
    have hv : k.prev x = .to x := hk .bwd
    have hk' : listDelInit k x = some (initListHead (__listDel k x x) x) := by
      simp [listDelInit, __listDelEntry, hn, hv]
    have hself := toward_listDelInit hk'
    have hbody : deleteIf p listDelInit deleted k x =
        some (deleted ++ [x], initListHead (__listDel k x x) x) := deleteIf_of_true hp hk' _
    have hfield : (ringLinks d hd).field (initListHead (__listDel k x x) x) x = .to x := hself d
    rw [Links.loop_turn (x := x) (fun he => hne (Ptr.to.inj he)) rfl, hbody, Option.bind_some,
      hfield]
    exact ih hself

/-- A plain loop does not get past the first entry that it deletes. -/
theorem loop_delete_iff (hdel : del = listDel ∨ del = listDelInit) (R : Represents h H)
    (hx : H hd = some (d.order B)) :
    (∃ fuel r, (ringLinks d hd).loop (deleteIf p del) fuel [] h (.to (B.headD hd)) = some r) ↔
      ∀ x ∈ B, p x = false := by
  have hpath : (ringLinks d hd).Path h (.to (B.headD hd)) B := R.path (A := []) hx
  constructor
  · rintro ⟨fuel, r, hr⟩
    cases hfind : B.find? p with
    | none => exact fun x hm => by simpa using List.find?_eq_none.mp hfind x hm
    | some x =>
      exfalso
      obtain ⟨hp, A, C, rfl, hA⟩ := List.find?_eq_some_iff_append.mp hfind
      obtain ⟨k, hk, -⟩ := represents_del hdel R hx
      have hne : x ≠ hd := R.ne_head hx (Dir.mem_order.mpr (by simp))
      have hfirst := loop_deleteIf_first hpath (fun y hy => by simpa using hA y hy) hp hk [] fuel
      have hmore := Links.loop_add_fuel hr (A.length + 1)
      rw [Nat.add_assoc, Nat.add_comm 1, hfirst] at hmore
      rcases hdel with rfl | rfl
      · obtain ⟨hstop, hpoison⟩ := toward_listDel hd hk d
        rw [Links.loop_fault hstop hpoison] at hmore
        cases hmore
      · have hself := toward_listDelInit hk
        have hfield : (ringLinks d hd).field k x = .to x := hself d
        rw [hfield, loop_stuck hne hp fuel hself] at hmore
        cases hmore
  · intro hp
    exact ⟨_, _, loop_deleteIf_none hpath hp (Nat.lt_succ_self _)⟩

/-- The plain forms return only when there is nothing to delete. -/
theorem list_loops_delete_iff (hdel : del = listDel ∨ del = listDelInit) (R : Represents h H)
    (hx : H hd = some xs) (p : ν → Bool) :
    ((∃ fuel r, listForEach (deleteIf p del) fuel [] h hd = some r) ↔ ∀ x ∈ xs, p x = false) ∧
      ((∃ fuel r, listForEachPrev (deleteIf p del) fuel [] h hd = some r) ↔
        ∀ x ∈ xs, p x = false) := by
  have hbwd : H hd = some (Dir.bwd.order xs.reverse) := by
    rw [hx]
    exact congrArg some (List.reverse_reverse xs).symm
  have hnext : h.next hd = .to (xs.headD hd) := R.toward_head (d := .fwd) hx
  have hprev : h.prev hd = .to (xs.reverse.headD hd) := R.toward_head (d := .bwd) hbwd
  have hrev := loop_delete_iff (p := p) hdel R hbwd
  simp only [List.mem_reverse] at hrev
  simp only [listForEach, listForEachPrev, hnext, hprev]
  exact ⟨loop_delete_iff (d := .fwd) hdel R hx, hrev⟩

/-- A loop that deletes the last entry does not return. -/
theorem list_loops_delete_iff_test1 :
    ¬ ∃ fuel r,
      listForEach (deleteIf (fun x => x == 3) listDelInit) fuel [] fiveNodes 0 = some r := by
  have hx : threeEntries 0 = some [1, 2, 3] := rfl
  rw [(list_loops_delete_iff (.inr rfl) represents_threeEntries hx fun x => x == 3).1]
  exact fun h => absurd (h 3 (by decide)) (by decide)

end Delete

/-! ## Moving on the way -/

section Move

variable [DecidableEq ν] {h : Heap ν} {H : Heads ν} {hd dst x : ν} {A B xs ys : List ν} {d : Dir}
  {fuel : Nat}

/-- `list_move_tail` or `list_move`. -/
def moveTo (tail : Bool) (h : Heap ν) (x dst : ν) : Option (Heap ν) :=
  if tail then listMoveTail h x dst else listMove h x dst

/-- `if (p(pos)) list_move_tail(pos, dst);`, or `list_move`. -/
def moveIf (tail : Bool) (p : ν → Bool) (dst : ν) (_ : Unit) (h : Heap ν) (x : ν) :
    Option (Unit × Heap ν) :=
  if p x then do
    let h ← moveTo tail h x dst
    some ((), h)
  else
    some ((), h)

/-- Where the moved entries end up. -/
def joined (tail : Bool) (moved ys : List ν) : List ν :=
  if tail then ys ++ moved else moved.reverse ++ ys

theorem represents_moveTo (tail : Bool) (R : Represents h H) (hne : hd ≠ dst)
    (hx : H hd = some (d.order (A ++ x :: B))) (hy : H dst = some ys) :
    ∃ k, moveTo tail h x dst = some k ∧
      Represents k ((H.set hd (some (d.order (A ++ B)))).set dst (some (joined tail [x] ys))) := by
  obtain ⟨A', B', hsplit, hjoin⟩ := d.order_split A x B
  rw [hsplit] at hx
  rw [hjoin]
  have hm : x ∈ A' ++ x :: B' := by simp
  have hdst : x ≠ dst := fun he => R.disjoint hd dst _ _ hx hy hne x (List.mem_cons_of_mem _ hm)
    (he ▸ List.mem_cons_self)
  have hy' : H.set hd (some (A' ++ B')) dst = some ys := by rw [Heads.set_of_ne _ _ hne.symm, hy]
  cases tail with
  | true => exact represents_listMoveTail R hx hy' hdst
  | false => exact represents_listMove R hx hy' hdst

theorem safeLoop_moves (tail : Bool) (p : ν → Bool) (R : Represents h H) (hne : hd ≠ dst)
    (hx : H hd = some (d.order B)) (hy : H dst = some ys) (hf : B.length < fuel) :
    ∃ k, (ringLinks d hd).safeLoop (moveIf tail p dst) fuel () h (.to (B.headD hd)) =
        some ((), k) ∧
      Represents k ((H.set hd (some (d.order (B.filter fun x => !p x)))).set dst
        (some (joined tail (B.filter p) ys))) := by
  let I (rest : List ν) (_ : Unit) (k : Heap ν) : Prop :=
    ∃ kept moved, moved ++ rest.filter p = B.filter p ∧
      kept ++ rest.filter (fun x => !p x) = B.filter (fun x => !p x) ∧
      Represents k ((H.set hd (some (d.order (kept ++ rest)))).set dst
        (some (joined tail moved ys)))
  have h0 : I B () h := by
    refine ⟨[], [], rfl, rfl, ?_⟩
    have hj : joined tail [] ys = ys := by
      cases tail with
      | true => exact List.append_nil ys
      | false => rfl
    rw [hj, List.nil_append, Heads.set_eq_self hx, Heads.set_eq_self hy]
    exact R
  have hstep (x : ν) (rest : List ν) (u : Unit) (k : Heap ν) (hI : I (x :: rest) u k) :
      ∃ u' k', moveIf tail p dst u k x = some (u', k') ∧
        (ringLinks d hd).Path k' ((ringLinks d hd).field k x) rest ∧ I rest u' k' := by
    obtain ⟨kept, moved, hmoved, hkept, R'⟩ := hI
    have hat : ((H.set hd (some (d.order (kept ++ x :: rest)))).set dst
        (some (joined tail moved ys))) hd = some (d.order (kept ++ x :: rest)) := by
      rw [Heads.set_of_ne _ _ hne, Heads.set_self]
    have hnext : (ringLinks d hd).field k x = .to (rest.headD hd) := R'.toward_entry hat
    rw [hnext]
    cases hp : p x with
    | true =>
      obtain ⟨k', hk', R''⟩ := represents_moveTo tail R' hne hat (Heads.set_self _ _ _)
      have hjoin : joined tail [x] (joined tail moved ys) = joined tail (moved ++ [x]) ys := by
        cases tail with
        | true => exact List.append_assoc _ _ _
        | false => simp [joined]
      rw [Heads.set_comm _ (n := dst) (k := hd) _ _ hne.symm, Heads.set_set, Heads.set_set,
        hjoin] at R''
      refine ⟨(), k', by simp [moveIf, hp, hk'], ?_, kept, moved ++ [x], ?_, ?_, R''⟩
      · exact R''.path (by rw [Heads.set_of_ne _ _ hne, Heads.set_self])
      · simpa [hp] using hmoved
      · simpa [hp] using hkept
    | false =>
      have hmove : kept ++ x :: rest = (kept ++ [x]) ++ rest := by simp
      rw [hmove] at R'
      refine ⟨(), k, by simp [moveIf, hp], ?_, kept ++ [x], moved, ?_, ?_, R'⟩
      · exact R'.path (by rw [Heads.set_of_ne _ _ hne, Heads.set_self])
      · simpa [hp] using hmoved
      · simpa [hp] using hkept
  obtain ⟨u, k, hrun, kept, moved, hmoved, hkept, R'⟩ :=
    Links.safeLoop_rule hstep (R.path (A := []) hx) h0 hf
  refine ⟨k, hrun, ?_⟩
  rw [← hkept, ← hmoved]
  simpa using R'

/-- The `_safe` forms may move entries to another list. With `list_move_tail` they
arrive in the order in which they are met, with `list_move` in the opposite order. -/
theorem list_safe_loops_move (tail : Bool) (p : ν → Bool) (R : Represents h H) (hne : hd ≠ dst)
    (hx : H hd = some xs) (hy : H dst = some ys) (hf : xs.length < fuel) :
    (∃ k, listForEachSafe (moveIf tail p dst) fuel () h hd = some ((), k) ∧
      Represents k ((H.set hd (some (xs.filter fun x => !p x))).set dst
        (some (joined tail (xs.filter p) ys)))) ∧
    ∃ k, listForEachPrevSafe (moveIf tail p dst) fuel () h hd = some ((), k) ∧
      Represents k ((H.set hd (some (xs.filter fun x => !p x))).set dst
        (some (joined tail (xs.filter p).reverse ys))) := by
  have hbwd : H hd = some (Dir.bwd.order xs.reverse) := by
    rw [hx]
    exact congrArg some (List.reverse_reverse xs).symm
  constructor
  · have hnext : h.next hd = .to (xs.headD hd) := R.toward_head (d := .fwd) hx
    rw [listForEachSafe, hnext]
    exact safeLoop_moves (d := .fwd) tail p R hne hx hy hf
  · have hprev : h.prev hd = .to (xs.reverse.headD hd) := R.toward_head (d := .bwd) hbwd
    have hf' : xs.reverse.length < fuel := by rwa [List.length_reverse]
    obtain ⟨k, hk, R'⟩ := safeLoop_moves tail p R hne hbwd hy hf'
    rw [listForEachPrevSafe, hprev]
    refine ⟨k, hk, ?_⟩
    simpa [Dir.order, List.filter_reverse] using R'

/-- The odd entries are moved, from the last to the first. -/
theorem list_safe_loops_move_test1 :
    ∃ k, listForEachPrevSafe (moveIf true (fun x => x % 2 == 1) 4) 4 () fiveNodes 0 =
        some ((), k) ∧
      Represents k ((threeEntries.set 0 (some [2])).set 4 (some [3, 1])) :=
  (list_safe_loops_move true (fun x => x % 2 == 1) represents_threeEntries
    (show 0 ≠ 4 by decide) (show threeEntries 0 = some [1, 2, 3] from rfl)
    (show threeEntries 4 = some [] from rfl) (by decide)).2

end Move

end Uki
