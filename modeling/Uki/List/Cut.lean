import Uki.List.Segment

/-!
# `list_cut_position`

A cut makes the three links of `represents_cut`, as `list_cut_before` does. The return
for an empty `head` comes before anything is stored to `list`, which is then as it was
(`list_cut_position_splits_iff`).
-/

set_option linter.style.nameCheck false

namespace Uki

open LinkRing

variable {ν : Type} [DecidableEq ν] {h : Heap ν} {H : Heads ν} {hd list entry : ν}
  {xs A B : List ν}

/-- How many entries the cut takes off: those up to `entry`, none for the head itself. -/
def cutCount (xs : List ν) (entry : ν) : Nat := if entry ∈ xs then xs.idxOf entry + 1 else 0

/-- `entry` is the last node of the part that is taken off, counted from the head. -/
theorem getLast?_take_cutCount (he : entry = hd ∨ entry ∈ xs) (hh : hd ∉ xs) :
    (hd :: xs.take (cutCount xs entry)).getLast? = some entry := by
  unfold cutCount
  rcases em (entry ∈ xs) with hm | hm
  · have hlt := List.idxOf_lt_length_iff.mpr hm
    rw [if_pos hm, List.take_succ_eq_append_getElem hlt, List.getElem_idxOf, ← List.cons_append,
      List.getLast?_concat]
  · obtain rfl := he.resolve_right hm
    rw [if_neg hm]
    rfl

theorem __listCutPosition_eq {f newFirst : ν} (hf : h.next hd = .to f)
    (hn : h.next entry = .to newFirst) :
    __listCutPosition h list hd entry =
      some (((h.link list f).link entry list).link hd newFirst) := by
  simp only [__listCutPosition, hf, hn, Heap.next_setNext, if_true, Ptr.deref_to,
    Option.bind_eq_bind, Option.bind_some, Option.some.injEq]
  apply Heap.ext <;> intro x <;> simp

theorem represents_listCutPosition (R : Represents h H) (hx : H hd = some (A ++ B))
    (he : (hd :: A).getLast? = some entry) (hne : A ++ B ≠ []) (hlist : list ≠ hd)
    (hn : ∀ hd xs, H hd = some xs → list ∉ xs) :
    ∃ k, listCutPosition h list hd entry = some k ∧
      Represents k ((H.set list (some A)).set hd (some B)) := by
  have hr := R.ring hd _ hx
  have hempty := R.listEmpty_eq_false hx hne
  unfold listCutPosition
  rw [if_neg (by rw [hempty]; exact Bool.false_ne_true)]
  cases A with
  | nil =>
    have hehd : hd = entry := Option.some.inj he
    subst hehd
    rw [List.nil_append] at hx
    rw [if_neg fun hs => hs.2.2 rfl, if_pos rfl, Heads.set_set_eq_self _ hx hlist]
    exact ⟨_, rfl, represents_init R hn⟩
  | cons f A =>
    rw [List.getLast?_cons_cons] at he
    obtain ⟨q, hq⟩ : ∃ q, (B ++ [hd]).head? = some q := ⟨_, List.head?_eq_some_head (by simp)⟩
    have hdf := hr.link_first (y := f) rfl
    have heq := hr.link_between (by rw [List.getLast?_cons_cons, he]) hq
    have hehd : entry ≠ hd :=
      R.ne_head hx (List.mem_append_left _ (List.mem_of_getLast? he))
    -- the only entry of a list is its first
    have hsingle : ¬ (listIsSingular h hd = true ∧ h.next hd ≠ .to entry ∧ hd ≠ entry) := by
      rintro ⟨hs, hfe, -⟩
      have hlen := (R.listIsSingular_iff hx).mp hs
      rw [List.cons_append, List.length_cons, Nat.add_eq_right, List.length_eq_zero_iff,
        List.append_eq_nil_iff] at hlen
      rw [hlen.1] at he
      cases he
      exact hfe hdf.1
    rw [if_neg hsingle, if_neg hehd]
    exact ⟨_, __listCutPosition_eq hdf.1 heq.1, represents_cut R hx rfl he hq hlist hn⟩

theorem listCutPosition_of_empty (R : Represents h H) (hx : H hd = some []) :
    listCutPosition h list hd entry = some h :=
  if_pos ((R.listEmpty_iff hx).mpr rfl)

/-- A node that is linked to itself already represents the empty list. -/
theorem represents_self (R : Represents h H) (hl : h.Link list list)
    (hn : ∀ hd xs, H hd = some xs → list ∉ xs) : Represents h (H.set list (some [])) := by
  have hsame : initListHead h list = h := by
    apply Heap.ext
    · intro x
      rw [initListHead_eq, Heap.next_link]
      split
      · next hx => rw [hx, hl.1]
      · rfl
    · intro x
      rw [initListHead_eq, Heap.prev_link]
      split
      · next hx => rw [hx, hl.2]
      · rfl
  have R' := represents_init R hn
  rwa [hsame] at R'

omit [DecidableEq ν] in
theorem Represents.link_of_nil (R : Represents h H) (hx : H hd = some []) : h.Link hd hd :=
  (R.ring hd [] hx).link_first rfl

/-- The list is split at `entry` exactly when it is not empty, or there was nothing to
store. -/
theorem list_cut_position_splits_iff (R : Represents h H) (hx : H hd = some xs)
    (he : entry = hd ∨ entry ∈ xs) (hlist : list ≠ hd) (hn : ¬ H.IsEntry list) :
    (∃ k, listCutPosition h list hd entry = some k ∧
      Represents k ((H.set list (some (xs.take (cutCount xs entry)))).set hd
        (some (xs.drop (cutCount xs entry))))) ↔
      xs ≠ [] ∨ h.Link list list := by
  have hnot (hd : ν) (xs : List ν) (hy : H hd = some xs) : list ∉ xs := fun hm =>
    hn ⟨hd, xs, hy, hm⟩
  have hh : hd ∉ xs := fun hm => R.ne_head hx hm rfl
  rcases eq_or_ne xs [] with rfl | hne
  · rw [listCutPosition_of_empty R hx, List.take_nil, List.drop_nil]
    rw [or_iff_right (not_not.mpr rfl), Heads.set_set_eq_self _ hx hlist]
    constructor
    · rintro ⟨k, hk, R'⟩
      cases hk
      exact R'.link_of_nil (Heads.set_self _ _ _)
    · exact fun hl => ⟨h, rfl, represents_self R hl hnot⟩
  · have hsplit : xs = xs.take (cutCount xs entry) ++ xs.drop (cutCount xs entry) :=
      (List.take_append_drop _ _).symm
    have hx' : H hd = some (xs.take (cutCount xs entry) ++ xs.drop (cutCount xs entry)) :=
      hx.trans (congrArg some hsplit)
    refine iff_of_true ?_ (.inl hne)
    exact represents_listCutPosition R hx' (getLast?_take_cutCount he hh) (hsplit ▸ hne) hlist hnot

/-! ### Two heaps -/

omit [DecidableEq ν] in
theorem represents_none (h : Heap ν) : Represents h fun _ => none where
  ring _ _ hx := nomatch hx
  disjoint _ _ _ _ hx := nomatch hx

omit [DecidableEq ν] in
theorem avoids_none (n : ν) : Heads.Avoids (fun _ => none) n := fun _ _ hx => nomatch hx

/-- The head 0 with the entries 1, 2 and 3. -/
def oneHead : Heads Nat := Heads.set (fun _ => none) 0 (some [1, 2, 3])

theorem represents_oneHead :
    Represents (fun n => ⟨.to ((n + 1) % 4), .to ((n + 3) % 4)⟩ : Heap Nat) oneHead := by
  refine (represents_none _).put ⟨by decide, ?_⟩ fun n _ => avoids_none n
  simp [Heap.Link, Heap.next, Heap.prev]

/-- The first two entries go to a `list` that was never initialised. -/
theorem list_cut_position_splits_iff_test1 :
    ∃ k, listCutPosition (fun n => ⟨.to ((n + 1) % 4), .to ((n + 3) % 4)⟩ : Heap Nat) 5 0 2 =
        some k ∧
      Represents k ((oneHead.set 5 (some [1, 2])).set 0 (some [3])) := by
  have hx : oneHead 0 = some [1, 2, 3] := rfl
  have hav : oneHead.Avoids 5 := (avoids_none 5).set_some (by decide)
  refine (list_cut_position_splits_iff represents_oneHead hx (.inr (by decide)) (by decide)
    ?_).mpr (.inl (by decide))
  rintro ⟨hd, xs, hy, hm⟩
  exact hav hd xs hy (List.mem_cons_of_mem _ hm)

/-- The empty head 0 and the head 1 with the entry 2. -/
def twoHeads : Heads Nat := (Heads.set (fun _ => none) 0 (some [])).set 1 (some [2])

theorem represents_twoHeads :
    Represents (fun n => if n = 0 then ⟨.to 0, .to 0⟩ else ⟨.to (3 - n), .to (3 - n)⟩ : Heap Nat)
      twoHeads := by
  refine ((represents_none _).put ⟨by decide, ?_⟩ fun n _ => avoids_none n).put ⟨by decide, ?_⟩
    fun n hn => (avoids_none n).set_some ?_
  · simp [Heap.Link, Heap.next, Heap.prev]
  · simp [Heap.Link, Heap.next, Heap.prev]
  · rintro hm
    cases List.mem_singleton.mp hm
    exact absurd hn (by decide)

/-- An empty `head`, and a `list` that holds an entry: it still does afterwards. -/
theorem list_cut_position_splits_counterexample :
    ¬ ∀ (h : Heap Nat) (H : Heads Nat) (hd list entry : Nat) (xs : List Nat), Represents h H →
      H hd = some xs → entry = hd ∨ entry ∈ xs → list ≠ hd → ¬ H.IsEntry list →
      ∃ k, listCutPosition h list hd entry = some k ∧
        Represents k ((H.set list (some (xs.take (cutCount xs entry)))).set hd
          (some (xs.drop (cutCount xs entry)))) := by
  intro hall
  have hn : ¬ twoHeads.IsEntry 1 := by
    rintro ⟨hd, xs, hx, hm⟩
    simp only [twoHeads, Heads.set] at hx
    split_ifs at hx <;> cases hx <;> simp at hm
  obtain ⟨k, hk, R⟩ := hall _ _ 0 1 0 [] represents_twoHeads rfl (.inl rfl) (by decide) hn
  rw [listCutPosition_of_empty represents_twoHeads rfl] at hk
  cases hk
  have hl := R.link_of_nil (show ((twoHeads.set 1 (some [])).set 0 (some [])) 1 = some [] from rfl)
  exact absurd hl.1 (by decide)

end Uki
