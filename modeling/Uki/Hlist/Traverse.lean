import Uki.Lib.Walk
import Uki.Hlist.Program

/-!
# The loops over an hlist

The `hlist_for_each` macros follow `next` from a `first` to `NULL`. The plain forms read
`next` of a node after the body has run on it, the `_safe` forms before.

Results:
1. `hlist_loops_visit_in_order`: the plain forms run the body on each node from where
   they start.
2. `hlist_safe_loops_delete`: the `_safe` forms may delete nodes on their way.
3. `hlist_loops_delete_iff`: after `hlist_del` a plain form follows the poison.
4. `hlist_loop_deletes_first`: after `hlist_del_init` it takes the list for finished.
-/

set_option linter.style.nameCheck false

namespace Uki.Hlist

open Walk

variable {η ν σ : Type}

/-! ## The macros -/

/-- Loops to the end of a list. -/
def nextLinks : Links (Heap η ν) ν (Ptr ν) where
  stop := .null
  addr := Ptr.deref
  field h n := h.load (.next n)

section Macros

variable [DecidableEq ν] (body : σ → Heap η ν → ν → Option (σ × Heap η ν)) (fuel : Nat) (e : σ)
  (h : Heap η ν)

def hlistForEach (head : η) : Option (σ × Heap η ν) :=
  nextLinks.loop body fuel e h (h.load (.first head))

def hlistForEachSafe (head : η) : Option (σ × Heap η ν) :=
  nextLinks.safeLoop body fuel e h (h.load (.first head))

def hlistForEachEntry (head : η) : Option (σ × Heap η ν) := hlistForEach body fuel e h head

def hlistForEachEntryContinue (pos : ν) : Option (σ × Heap η ν) :=
  nextLinks.loop body fuel e h (h.load (.next pos))

/-- `pos` may be `NULL`. -/
def hlistForEachEntryFrom (pos : Ptr ν) : Option (σ × Heap η ν) :=
  nextLinks.loop body fuel e h pos

def hlistForEachEntrySafe (head : η) : Option (σ × Heap η ν) := hlistForEachSafe body fuel e h head

end Macros

/-! ## Paths along a list -/

section Paths

variable {h : Heap η ν} {hd : η} {A B : List ν}

/-- The rest of a list, after the part that has been met. -/
theorem IsList.path (hl : IsList h hd (A ++ B)) : nextLinks.Path h (ptr B.head?) B := by
  induction B generalizing A with
  | nil => rfl
  | cons x B ih =>
    have hne : ptr (some x) ≠ .null := fun he => nomatch he
    refine ⟨hne, rfl, ?_⟩
    have hl' : IsList h hd ((A ++ [x]) ++ B) := by simpa using hl
    have hnext : nextLinks.field h x = ptr B.head? := hl.load_next
    rw [hnext]
    exact ih hl'

end Paths

/-! ## Visits -/

section Visit

variable [DecidableEq ν] {h : Heap η ν} {hd : η} {xs : List ν} {fuel : Nat} {e : σ}
  {body : σ → Heap η ν → ν → Option (σ × Heap η ν)}

/-- The body leaves the `next` fields of the nodes alone. -/
def LeavesNext (body : σ → Heap η ν → ν → Option (σ × Heap η ν)) (xs : List ν) : Prop :=
  ∀ e h x e' h', body e h x = some (e', h') → ∀ y ∈ xs, h'.load (.next y) = h.load (.next y)

theorem loop_visits (hl : IsList h hd xs) (hbody : LeavesNext body xs) (hf : xs.length < fuel)
    {A B : List ν} (hx : xs = A ++ B) :
    nextLinks.loop body fuel e h (ptr B.head?) =
      B.foldlM (fun s x => body s.1 s.2 x) (e, h) := by
  have hlen : B.length < fuel := by
    rw [hx, List.length_append] at hf
    omega
  refine Links.loop_eq_foldlM (fun e h x e' h' hb y hy => ?_) (hx ▸ hl).path hlen
  exact hbody e h x e' h' hb y (hx ▸ List.mem_append_right A hy)

/-- `hlist_for_each` and its relatives are folds over the part of the list that they
are for. -/
theorem hlist_loops_visit_in_order (hl : IsList h hd xs) (hbody : LeavesNext body xs)
    (hf : xs.length < fuel) :
    let visit := fun ys : List ν => ys.foldlM (fun s y => body s.1 s.2 y) (e, h)
    hlistForEach body fuel e h hd = visit xs ∧
      hlistForEachEntryFrom body fuel e h .null = visit [] ∧
      ∀ A x B, xs = A ++ x :: B →
        hlistForEachEntryContinue body fuel e h x = visit B ∧
        hlistForEachEntryFrom body fuel e h (.to x) = visit (x :: B) := by
  intro visit
  have hfirst : h.load (.first hd) = ptr xs.head? := hl.load_at (A := [])
  refine ⟨?_, ?_, fun A x B hx => ⟨?_, ?_⟩⟩
  · rw [hlistForEach, hfirst]
    exact loop_visits hl hbody hf (A := []) rfl
  · exact loop_visits hl hbody hf (A := xs) (B := []) (by simp)
  · have hnext : h.load (.next x) = ptr B.head? := (hx ▸ hl).load_next
    rw [hlistForEachEntryContinue, hnext]
    exact loop_visits hl hbody hf (A := A ++ [x]) (by simp [hx])
  · exact loop_visits hl hbody hf (A := A) (B := x :: B) hx

end Visit

/-- The nodes 1, 2, 3 in the list of the head `false`. -/
def threeNodes : Heap Bool Nat where
  head b := if b then ⟨.null⟩ else ⟨.to 1⟩
  node n :=
    ⟨if n < 3 then .to (n + 1) else .null, .to (if n = 1 then .first false else .next (n - 1))⟩

theorem represents_threeNodes :
    Represents threeNodes fun b => if b then [] else [1, 2, 3] where
  list hd := by
    cases hd with
    | false =>
      refine ⟨by decide, ?_⟩
      simp [TieThread.Thread, Heap.Tied, Heap.load, Heap.pprev, threeNodes]
    | true =>
      refine ⟨by decide, ?_⟩
      simp [TieThread.Thread, Heap.Tied, Heap.load, threeNodes]
  disjoint hd hd' hne := by
    cases hd with
    | false =>
      cases hd' with
      | false => exact absurd rfl hne
      | true => exact fun x _ hm => absurd hm List.not_mem_nil
    | true => exact fun x hm _ => absurd hm List.not_mem_nil

/-- A body that notes the nodes. -/
theorem hlist_loops_visit_in_order_test1 :
    (hlistForEachEntryContinue (fun e h x => some (e ++ [x], h)) 4 [] threeNodes 1).map Prod.fst =
      some [2, 3] := by
  have hbody : LeavesNext (fun (e : List Nat) (h : Heap Bool Nat) x => some (e ++ [x], h))
      [1, 2, 3] := by
    intro e h x e' h' he y _
    cases he
    rfl
  have hf : [1, 2, 3].length < 4 := by decide
  obtain ⟨-, -, hparts⟩ := hlist_loops_visit_in_order (e := []) (represents_threeNodes.list false)
    hbody hf
  rw [(hparts [] 1 [2, 3] rfl).1]
  rfl

/-! ## Deleting on the way -/

section Delete

variable [DecidableEq η] [DecidableEq ν] {h k : Heap η ν} {L : η → List ν} {hd : η} {x : ν}
  {A B xs : List ν} {p : ν → Bool} {del : Heap η ν → ν → Option (Heap η ν)} {fuel : Nat}

theorem represents_del (hdel : del = hlistDel ∨ del = hlistDelInit) (R : Represents h L)
    (hx : L hd = A ++ x :: B) :
    ∃ k, del h x = some k ∧ Represents k (Function.update L hd (A ++ B)) := by
  have hm : (State.start h L).Linked x := ⟨hd, by simp [State.start, hx]⟩
  have herase : (fun hd => (L hd).erase x) = Function.update L hd (A ++ B) := by
    have hA : x ∉ A := fun hA => by
      have hnd := List.nodup_middle.mp (hx ▸ (R.list hd).nodup)
      exact (List.nodup_cons.mp hnd).1 (List.mem_append_left _ hA)
    have hmem : x ∈ L hd := hx ▸ List.mem_append_right _ List.mem_cons_self
    rw [R.map_eq_update hmem fun xs hn => List.erase_of_not_mem hn, hx,
      List.erase_append_right _ hA, List.erase_cons_head]
  rcases hdel with rfl | rfl
  · obtain ⟨k, hk, hR, -⟩ := refines_step (refines_start R) (.hlistDel x) hm
    exact ⟨k, hk, herase ▸ hR.lists⟩
  · obtain ⟨k, hk, hR, -⟩ := refines_step (refines_start R) (.hlistDelInit x) (.inl hm)
    exact ⟨k, hk, herase ▸ hR.lists⟩

/-- The `_safe` forms reach every node although nodes are deleted on the way. The others
stay in the list, in their order. -/
theorem hlist_safe_loops_delete (hdel : del = hlistDel ∨ del = hlistDelInit)
    (R : Represents h L) (hd : η) (hf : (L hd).length < fuel) (p : ν → Bool) :
    ∃ k, hlistForEachSafe (deleteIf p del) fuel [] h hd = some ((L hd).filter p, k) ∧
      Represents k (Function.update L hd ((L hd).filter fun x => !p x)) := by
  let J (A B : List ν) (k : Heap η ν) : Prop := Represents k (Function.update L hd (A ++ B))
  have hat (ys : List ν) : Function.update L hd ys hd = ys := Function.update_self ..
  have hlist {A B : List ν} {k : Heap η ν} (hR : J A B k) : IsList k hd (A ++ B) :=
    hat (A ++ B) ▸ hR.list hd
  have hdel' (A : List ν) (x : ν) (B : List ν) (k : Heap η ν) (hR : J A (x :: B) k) :
      ∃ k', del k x = some k' ∧ J A B k' := by
    obtain ⟨k', hk', R'⟩ := represents_del hdel hR (hat _)
    rw [Function.update_idem] at R'
    exact ⟨k', hk', R'⟩
  have h0 : J [] (L hd) h := by
    simp only [J, List.nil_append]
    rwa [Function.update_eq_self]
  have hfirst : h.load (.first hd) = ptr (L hd).head? := (R.list hd).load_at (A := [])
  obtain ⟨k, hrun, R'⟩ := safeLoop_deleteIf (L := nextLinks) (p := p)
    (c := fun B => ptr B.head?) (J := J) (fun A B k hR => (hlist hR).path)
    (fun A x B k hR => (hlist hR).load_next) (fun A x B k hR => by simpa [J] using hR) hdel' h0 hf
  rw [hlistForEachSafe, hfirst]
  exact ⟨k, hrun, by simpa [J] using R'⟩

/-- The even nodes are deleted. -/
theorem hlist_safe_loops_delete_test1 :
    ∃ k, hlistForEachSafe (deleteIf (fun x => x % 2 == 0) hlistDel) 4 [] threeNodes false =
        some ([2], k) ∧
      Represents k (Function.update (fun b => if b then [] else [1, 2, 3]) false [1, 3]) :=
  hlist_safe_loops_delete (.inl rfl) represents_threeNodes false (by decide) fun x => x % 2 == 0

omit [DecidableEq η] [DecidableEq ν] in
theorem Represents.path_first (R : Represents h L) (hd : η) :
    nextLinks.Path h (h.load (.first hd)) (L hd) := by
  have hfirst : h.load (.first hd) = ptr (L hd).head? := (R.list hd).load_at (A := [])
  rw [hfirst]
  exact (R.list hd).path (A := [])

/-- After `hlist_del` the `next` of the node is poison. -/
theorem next_hlistDel (hk : hlistDel h x = some k) : k.load (.next x) = .listPoison1 := by
  obtain ⟨k₀, -, hk⟩ := Option.bind_eq_some_iff.mp hk
  cases hk
  simp

/-- After `hlist_del_init` it is `NULL`. -/
theorem next_hlistDelInit (hl : IsList h hd (A ++ x :: B)) (hk : hlistDelInit h x = some k) :
    k.load (.next x) = .null := by
  rw [hlistDelInit_eq hl] at hk
  cases hk
  simp [initHlistNode]

/-- With `hlist_del` the plain form returns only when there is nothing to delete. -/
theorem hlist_loops_delete_iff (R : Represents h L) (hd : η) (p : ν → Bool) :
    (∃ fuel r, hlistForEach (deleteIf p hlistDel) fuel [] h hd = some r) ↔
      ∀ x ∈ L hd, p x = false := by
  have hpath := R.path_first hd
  constructor
  · rintro ⟨fuel, r, hr⟩
    cases hfind : (L hd).find? p with
    | none => exact fun x hm => by simpa using List.find?_eq_none.mp hfind x hm
    | some x =>
      exfalso
      obtain ⟨hp, A, B, hx, hA⟩ := List.find?_eq_some_iff_append.mp hfind
      obtain ⟨k, hk, -⟩ := represents_del (.inl rfl) R hx
      have hpoison : nextLinks.field k x = .listPoison1 := next_hlistDel hk
      have hA' (y : ν) (hy : y ∈ A) : p y = false := by simpa using hA y hy
      rw [hx] at hpath
      have hstop : .listPoison1 ≠ (nextLinks : Links (Heap η ν) ν (Ptr ν)).stop :=
        fun he => nomatch he
      have hmore := Links.loop_add_fuel hr (A.length + 1)
      rw [Nat.add_assoc, Nat.add_comm 1, loop_deleteIf_first hpath hA' hp hk, hpoison,
        Links.loop_fault hstop rfl] at hmore
      cases hmore
  · intro hp
    exact ⟨_, _, loop_deleteIf_none hpath hp (Nat.lt_succ_self _)⟩

/-- Even the deletion of the last node is not survived. -/
theorem hlist_loops_delete_iff_test1 :
    ¬ ∃ fuel r, hlistForEach (deleteIf (fun x => x == 3) hlistDel) fuel [] threeNodes false =
      some r := by
  rw [hlist_loops_delete_iff represents_threeNodes false fun x => x == 3]
  exact fun h => absurd (h 3 (by decide)) (by decide)

/-- With `hlist_del_init` the plain form ends after the first deletion, as if the list
ended there. -/
theorem hlist_loop_deletes_first (R : Represents h L) (hd : η) (p : ν → Bool)
    (hf : (L hd).length < fuel) :
    ∃ k, hlistForEach (deleteIf p hlistDelInit) fuel [] h hd =
        some (((L hd).find? p).toList, k) ∧
      Represents k (Function.update L hd ((L hd).eraseP p)) := by
  have hpath := R.path_first hd
  cases hfind : (L hd).find? p with
  | none =>
    have hkept (x : ν) (hm : x ∈ L hd) : p x = false := by
      simpa using List.find?_eq_none.mp hfind x hm
    refine ⟨h, loop_deleteIf_none hpath hkept hf, ?_⟩
    rw [List.eraseP_of_forall_not fun x hm => by simp [hkept x hm], Function.update_eq_self]
    exact R
  | some x =>
    obtain ⟨hp, A, B, hx, hA⟩ := List.find?_eq_some_iff_append.mp hfind
    obtain ⟨k, hk, R'⟩ := represents_del (.inr rfl) R hx
    have hA' (y : ν) (hy : y ∈ A) : p y = false := by simpa using hA y hy
    have hend : nextLinks.field k x = .null := next_hlistDelInit (hx ▸ R.list hd) hk
    -- the turns before `x`, the turn of `x`, and the one that sees the end
    have hlen : ∃ f, fuel = A.length + ((f + 1) + 1) := by
      rw [hx, List.length_append, List.length_cons] at hf
      exact ⟨fuel - A.length - 2, by omega⟩
    obtain ⟨f, rfl⟩ := hlen
    refine ⟨k, ?_, ?_⟩
    · rw [hx] at hpath
      rw [hlistForEach, loop_deleteIf_first hpath hA' hp hk, hend]
      rfl
    · rw [hx, List.eraseP_append_right _ fun y hy => by simp [hA' y hy], List.eraseP_cons_of_pos hp]
      exact R'

/-- The node 3 is never met. -/
theorem hlist_loop_deletes_first_test1 :
    ∃ k, hlistForEach (deleteIf (fun x => x % 2 == 1) hlistDelInit) 4 [] threeNodes false =
        some ([1], k) ∧
      Represents k (Function.update (fun b => if b then [] else [1, 2, 3]) false [2, 3]) :=
  hlist_loop_deletes_first represents_threeNodes false (fun x => x % 2 == 1) (by decide)

end Delete

end Uki.Hlist
