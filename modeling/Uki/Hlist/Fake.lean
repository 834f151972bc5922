import Uki.Hlist.Traverse

/-!
# Nodes that only appear to be on a list

`hlist_add_fake` makes a node its own predecessor, so that it counts as hashed. The
comment of the source says that `hlist_del` will work then. It does if what the node's
`next` holds is `NULL`, or a node that is in no list: `hlist_del` writes to this one.
-/

set_option linter.style.nameCheck false

namespace Uki.Hlist

variable {η ν : Type} [DecidableEq η] [DecidableEq ν] {h k : Heap η ν} {L : η → List ν} {hd : η}
  {n m : ν} {ns : List ν} {del : Heap η ν → ν → Option (Heap η ν)}

omit [DecidableEq η] [DecidableEq ν] in
/-- Nodes that are in no list may be written. -/
theorem Represents.frame (R : Represents h L) (hw : OnlyWrites h k [] ns)
    (hns : ∀ x ∈ ns, ∀ hd, x ∉ L hd) : Represents k L := by
  refine R.of_writes hw (fun hd hm => nomatch hm) (fun hd _ => ⟨rfl, fun x hx hm => ?_⟩) R.disjoint
  exact hns x hm hd hx

omit [DecidableEq η] [DecidableEq ν] in
/-- The `pprev` of a listed node is the address of a head's field or of a listed node's. -/
theorem Represents.pprev_next (R : Represents h L) (hm : m ∈ L hd)
    (hp : h.pprev m = .to (.next n)) : n ∈ L hd ∧ n ≠ m := by
  obtain ⟨A, B, hx⟩ := List.append_of_mem hm
  have hl : IsList h hd (A ++ m :: B) := hx ▸ R.list hd
  have he : fieldAfter hd A = .next n := Ptr.to.inj (hl.pprev_at.symm.trans hp)
  rcases List.eq_nil_or_concat A with rfl | ⟨A', y, rfl⟩
  · cases he
  · have hy : y = n := by
      rw [fieldAfter, List.concat_eq_append, List.map_append, List.map_singleton,
        List.getLastD_concat] at he
      exact Field.next.inj he
    subst hy
    refine ⟨by simp [hx], ?_⟩
    rintro rfl
    have hnd := (List.nodup_cons.mp (List.nodup_middle.mp hl.nodup)).1
    exact hnd (by simp)

/-- What `__hlist_del` does to such a node: only what `next` points at is written. -/
theorem __hlistDel_fake (h : Heap η ν) (n : ν) :
    __hlistDel (hlistAddFake h n) n =
      (hlistAddFake h n).setPprevOf (h.load (.next n)) (.to (.next n)) := by
  have hpprev : (hlistAddFake h n).pprev n = .to (.next n) := by simp [hlistAddFake]
  have hload : (hlistAddFake h n).load (.next n) = h.load (.next n) := by simp [hlistAddFake]
  have hstore : (hlistAddFake h n).store (.next n) (h.load (.next n)) = hlistAddFake h n := by
    refine Heap.ext_fields (fun f => ?_) fun x => Heap.pprev_store ..
    rw [Heap.load_store]
    split
    · next he => rw [he, hload]
    · rfl
  unfold __hlistDel
  simp only [hpprev, hload, Ptr.deref, Option.bind_eq_bind, Option.bind_some, hstore]

omit [DecidableEq η] in
theorem setPprevOf_eq_some {p : Ptr ν} {f : Ptr (Field η ν)} :
    h.setPprevOf p f = some k ↔ p = .null ∧ k = h ∨ ∃ m, p = .to m ∧ k = h.setPprev m f := by
  cases p <;> simp [Heap.setPprevOf, Ptr.deref, eq_comm]

/-- Either deletion then writes the fields of the node itself. -/
theorem del_fake (hdel : del = hlistDel ∨ del = hlistDelInit) (h : Heap η ν) (n : ν) :
    ∃ clear : Heap η ν → Heap η ν,
      (∀ k, OnlyWrites k (clear k) [] [n]) ∧
      del (hlistAddFake h n) n =
        ((hlistAddFake h n).setPprevOf (h.load (.next n)) (.to (.next n))).map clear := by
  rcases hdel with rfl | rfl
  · refine ⟨fun k => (k.store (.next n) .listPoison1).setPprev n .listPoison2, fun k => ?_, ?_⟩
    · exact (onlyWrites_store _ (by simp)).trans (onlyWrites_setPprev _ (by simp))
    · rw [hlistDel, __hlistDel_fake, Option.map_eq_bind]
      rfl
  · have hu : hlistUnhashed (hlistAddFake h n) n = false := by simp [hlistUnhashed, hlistAddFake]
    refine ⟨fun k => initHlistNode k n, fun k => ?_, ?_⟩
    · exact (onlyWrites_store _ (by simp)).trans (onlyWrites_setPprev _ (by simp))
    · rw [hlistDelInit, hu, __hlistDel_fake, Option.map_eq_bind]
      rfl

omit [DecidableEq η] in
theorem represents_fake (R : Represents h L) (hn : ∀ hd, n ∉ L hd) :
    Represents (hlistAddFake h n) L := by
  have hw : OnlyWrites h (hlistAddFake h n) [] [n] := onlyWrites_setPprev _ (by simp)
  refine R.frame hw fun x hx => ?_
  cases List.mem_singleton.mp hx
  exact hn

/-- The deletion works if and only if what `next` points at may be written. -/
theorem del_fake_iff (hdel : del = hlistDel ∨ del = hlistDelInit) (R : Represents h L)
    (hn : ∀ hd, n ∉ L hd) :
    (∃ k, del (hlistAddFake h n) n = some k ∧ Represents k L) ↔
      h.load (.next n) = .null ∨ ∃ m, h.load (.next n) = .to m ∧ ∀ hd, m ∉ L hd := by
  obtain ⟨clear, hclear, hrun⟩ := del_fake hdel h n
  have hframe {k : Heap η ν} (R : Represents k L) : Represents (clear k) L := by
    refine R.frame (hclear k) fun x hx => ?_
    cases List.mem_singleton.mp hx
    exact hn
  have Rf := represents_fake R hn
  simp only [hrun, Option.map_eq_some_iff, setPprevOf_eq_some]
  constructor
  · rintro ⟨k, ⟨k₀, hk | ⟨m, hm, rfl⟩, rfl⟩, Rk⟩
    · exact .inl hk.1
    · refine .inr ⟨m, hm, fun hd hmem => ?_⟩
      -- the back link of a listed `m` would say that `n` is before it
      have hne : m ∉ [n] := by
        rintro hmn
        cases List.mem_singleton.mp hmn
        exact hn hd hmem
      have hnode := (hclear ((hlistAddFake h n).setPprev m (.to (.next n)))).node m hne
      have hp : (clear ((hlistAddFake h n).setPprev m (.to (.next n)))).pprev m =
          .to (.next n) := by
        rw [Heap.pprev, hnode]
        exact (Heap.pprev_setPprev ..).trans (if_pos rfl)
      exact hn hd (Rk.pprev_next hmem hp).1
  · rintro (hnull | ⟨m, hto, hm⟩)
    · exact ⟨_, ⟨_, .inl ⟨hnull, rfl⟩, rfl⟩, hframe Rf⟩
    · have hw : OnlyWrites (hlistAddFake h n) ((hlistAddFake h n).setPprev m (.to (.next n))) []
          [m] := onlyWrites_setPprev _ (by simp)
      refine ⟨_, ⟨_, .inr ⟨m, hto, rfl⟩, rfl⟩, hframe (Rf.frame hw fun x hx => ?_)⟩
      cases List.mem_singleton.mp hx
      exact hm

/-- `hlist_add_fake` changes no list. Of the nodes on lists and `n`, only `n` is fake. The
deletion of `n` then works if and only if its `next` is `NULL` or points at a node that is
in no list, so not on a node that comes from `hlist_del`. -/
theorem hlist_add_fake_then_del (hdel : del = hlistDel ∨ del = hlistDelInit) (R : Represents h L)
    (hn : ∀ hd, n ∉ L hd) :
    Represents (hlistAddFake h n) L ∧ hlistUnhashed (hlistAddFake h n) n = false ∧
      hlistFake (hlistAddFake h n) n = true ∧
      (∀ hd, ∀ m ∈ L hd, hlistFake (hlistAddFake h n) m = false) ∧
      ((∃ k, del (hlistAddFake h n) n = some k ∧ Represents k L) ↔
        h.load (.next n) = .null ∨ ∃ m, h.load (.next n) = .to m ∧ ∀ hd, m ∉ L hd) := by
  have Rf := represents_fake R hn
  refine ⟨Rf, ?_, ?_, fun hd m hm => ?_, del_fake_iff hdel R hn⟩
  · simp [hlistUnhashed, hlistAddFake]
  · simp [hlistFake, hlistAddFake]
  · exact beq_eq_false_iff_ne.mpr fun hp => (Rf.pprev_next hm hp).2 rfl

/-- The node 4 after `hlist_del`, beside the list 1, 2, 3. -/
theorem hlist_add_fake_then_del_test1 :
    ¬ ∃ k, hlistDel (hlistAddFake (threeNodes.store (.next 4) .listPoison1) 4) 4 = some k ∧
      Represents k fun b => if b then [] else [1, 2, 3] := by
  have hn (b : Bool) : 4 ∉ (if b then [] else [1, 2, 3]) := by
    cases b <;> decide
  have hw : OnlyWrites threeNodes (threeNodes.store (.next 4) .listPoison1) [] [4] :=
    onlyWrites_store _ (by simp)
  have R := represents_threeNodes.frame hw fun x hx => by
    cases List.mem_singleton.mp hx
    exact hn
  rw [(hlist_add_fake_then_del (.inl rfl) R hn).2.2.2.2]
  simp

end Uki.Hlist
