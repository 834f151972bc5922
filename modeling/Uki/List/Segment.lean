import Uki.List.Spec

/-!
# Operations that move segments

The operations of `list.h` that work on an entry in the middle of a list, or on
several entries at once: replacing an entry, moving one entry or a run of
entries, cutting a list in two and joining two lists.
-/

set_option linter.style.nameCheck false

namespace Uki

open LinkRing

variable {ν : Type} [DecidableEq ν] {h : Heap ν} {H : Heads ν} {hd n e : ν} {xs A L B : List ν}

/-! ## Replacing an entry -/

/-- Any node of a ring can play the head. -/
theorem Represents.rebase {k : ν} (R : Represents h H) (hx : H hd = some (A ++ k :: B)) :
    Represents h ((H.set hd none).set k (some (B ++ hd :: A))) :=
  (R.drop hd).put (R.ring hd _ hx).rotate fun m hm => R.avoids_of_mem hx (by grind)

theorem represents_listReplace_entry {old new : ν} (R : Represents h H)
    (hx : H hd = some (A ++ old :: B)) (hn : H.Unlinked new) (hnh : new ≠ hd) (hne : old ≠ new) :
    ∃ k, listReplace h old new = some k ∧
      Represents k ((H.set new none).set hd (some (A ++ new :: B))) := by
  have hho : old ≠ hd := R.ne_head hx (by simp)
  have hnew : new ∉ A ++ old :: B := hn.entry hd _ hx
  have hu : ((H.set hd none).set old (some (B ++ hd :: A))).Unlinked new := by
    refine ⟨fun ys hy => ?_, fun hd' ys hy => ?_⟩
    · rw [Heads.set_of_ne _ _ hne.symm] at hy
      exact hn.head ys (Heads.set_none_eq_some.mp hy).2
    · simp only [Heads.set] at hy
      split at hy
      · cases hy
        grind
      · split at hy
        · cases hy
        · exact hn.entry hd' ys hy
  obtain ⟨k, hk, R', -⟩ := represents_listReplace (R.rebase hx) (Heads.set_self _ _ _) hu hne
  refine ⟨k, hk, ?_⟩
  have K := R'.rebase (Heads.set_self _ new (some (B ++ hd :: A)))
  have hold : H old = none := by
    by_contra hc
    obtain ⟨ys, hy⟩ := Option.ne_none_iff_exists'.mp hc
    exact R.disjoint old hd ys _ hy hx hho old (by simp) (by simp)
  convert K using 1
  funext x
  simp only [Heads.set]
  grind

theorem represents_listReplaceInit_entry {old new : ν} (R : Represents h H)
    (hx : H hd = some (A ++ old :: B)) (hn : H.Unlinked new) (hnh : new ≠ hd) (hne : old ≠ new) :
    ∃ k, listReplaceInit h old new = some k ∧
      Represents k (((H.set new none).set hd (some (A ++ new :: B))).set old (some [])) := by
  obtain ⟨k, hk, R'⟩ := represents_listReplace_entry R hx hn hnh hne
  refine ⟨initListHead k old, by simp [listReplaceInit, hk], represents_init R' ?_⟩
  intro hd' ys hy hm
  have hnd := (R.ring hd _ hx).nodup
  simp only [Heads.set] at hy
  split at hy
  · cases hy
    grind
  · next hne' =>
    split at hy
    · cases hy
    · exact hne' (R.entry_unique hy hx hm (by simp))

/-! ## Moving -/

theorem represents_listMove {ys : List ν} (R : Represents h H) {src : ν}
    (hx : H src = some (A ++ e :: B)) (hy : H.set src (some (A ++ B)) hd = some ys) (hne : e ≠ hd) :
    ∃ k, listMove h e hd = some k ∧
      Represents k ((H.set src (some (A ++ B))).set hd (some (e :: ys))) := by
  obtain ⟨k, hk, R', -⟩ := represents_delEntry R hx
  have ha := R.avoids_removed hx
  obtain ⟨l, hl, R''⟩ := represents_listAdd R' hy ha.unlinked hne
  refine ⟨l, by simp [listMove, hk, hl], ?_⟩
  rwa [ha.set_none_eq] at R''

theorem represents_listMoveTail {ys : List ν} (R : Represents h H) {src : ν}
    (hx : H src = some (A ++ e :: B)) (hy : H.set src (some (A ++ B)) hd = some ys) (hne : e ≠ hd) :
    ∃ k, listMoveTail h e hd = some k ∧
      Represents k ((H.set src (some (A ++ B))).set hd (some (ys ++ [e]))) := by
  obtain ⟨k, hk, R', -⟩ := represents_delEntry R hx
  have ha := R.avoids_removed hx
  obtain ⟨l, hl, R'', -⟩ := represents_listAddTail R' hy ha.unlinked hne
  refine ⟨l, by simp [listMoveTail, hk, hl], ?_⟩
  rwa [ha.set_none_eq] at R''

theorem listBulkMoveTail_eq {first last p q r : ν} (hp : h.prev first = .to p)
    (hq : h.next last = .to q) (hne : last ≠ p) (hr : (h.link p q).prev hd = .to r) :
    listBulkMoveTail h hd first last =
      some (((h.link p q).link r first).link last hd) := by
  simp only [Heap.prev_link] at hr
  simp only [listBulkMoveTail, hp, hq, Ptr.deref_to, Option.bind_eq_bind, Option.bind_some,
    Heap.next_setNext, hne, if_false, Heap.prev_setNext, Heap.prev_setPrev, hr]
  rfl

theorem represents_listBulkMoveTail {first last : ν} (R : Represents h H)
    (hx : H hd = some (A ++ L ++ B)) (hf : L.head? = some first) (hl : L.getLast? = some last) :
    ∃ k, listBulkMoveTail h hd first last = some k ∧
      Represents k (H.set hd (some (A ++ B ++ L))) := by
  have hr := R.ring hd _ hx
  have hnd := hr.nodup
  obtain ⟨p, hp⟩ : ∃ p, (hd :: A).getLast? = some p := ⟨_, List.getLast?_eq_some_getLast (by simp)⟩
  obtain ⟨q, hq⟩ : ∃ q, (B ++ [hd]).head? = some q := ⟨_, List.head?_eq_some_head (by simp)⟩
  obtain ⟨r, hrr⟩ : ∃ r, (hd :: (A ++ B)).getLast? = some r :=
    ⟨_, List.getLast?_eq_some_getLast (by simp)⟩
  have hpm := List.mem_of_getLast? hp
  have hqm := List.mem_of_head? hq
  have hrm := List.mem_of_getLast? hrr
  have hfm := List.mem_of_head? hf
  have hlm := List.mem_of_getLast? hl
  -- the links that lead into the segment and out of it
  have hpf : h.Link p first := by
    rw [List.append_assoc] at hr
    exact hr.link_between hp (by rw [List.append_assoc, List.head?_append, hf]; rfl)
  have hlq : h.Link last q :=
    hr.link_between (by rw [← List.cons_append, List.getLast?_append, hl]; rfl) hq
  have hcut : Ring (h.link p q).Link hd (A ++ B) := by
    rw [Heap.link_Link]
    exact hr.cut hp hq
  have hrd := hcut.link_last hrr
  refine ⟨_, listBulkMoveTail_eq hpf.2 hlq.1 (by grind) hrd.2, ?_⟩
  have hseg : L.IsChain (h.link p q).Link := by
    rw [Heap.link_Link]
    refine chain_relink hr.segment ?_ ?_
    · intro hm
      have := (List.dropLast_sublist _).subset hm
      grind
    · intro hm
      have := List.mem_of_mem_tail hm
      grind
  have hring : Ring (((h.link p q).link r first).link last hd).Link hd (A ++ B ++ L) := by
    rw [Heap.link_Link, Heap.link_Link]
    have := Ring.splice (A := A ++ B) (B := []) (by simpa using hcut) hseg
      (by grind) (by grind) hrr rfl hf hl
    simpa using this
  have hav : ∀ m ∈ hd :: (A ++ L ++ B), (H.set hd none).Avoids m :=
    fun m hm => R.avoids_of_mem hx hm
  have K := ((((R.drop hd).link (hav p (by grind)) (hav q (by grind))).link (hav r (by grind))
    (hav first (by grind))).link (hav last (by grind)) (hav hd (by simp))).put hring
    (fun m hm => hav m (by grind))
  rwa [Heads.set_set] at K

/-! ## Cutting and joining -/

theorem listCutBefore_eq {list entry f l : ν} (hf : h.next hd = .to f) (hfe : f ≠ entry)
    (hl : h.prev entry = .to l) :
    listCutBefore h list hd entry =
      some (((h.link list f).link l list).link hd entry) := by
  have hne : Ptr.to f ≠ .to entry := by simpa using hfe
  simp only [listCutBefore, hf, if_neg hne, Heap.next_setNext, if_true, Ptr.deref_to,
    Option.bind_eq_bind, Option.bind_some, Heap.prev_setPrev, Heap.prev_setNext, hfe.symm, if_false,
    hl, Option.some.injEq]
  apply Heap.ext <;> intro x <;> simp

/-- The three links of a cut, with the first and the last entry of the part that
goes to `list` and the node after it. -/
theorem represents_cut {list entry f l : ν} (R : Represents h H) (hx : H hd = some (A ++ B))
    (hf : A.head? = some f) (hl : A.getLast? = some l) (he : (B ++ [hd]).head? = some entry)
    (hlist : list ≠ hd) (hn : ∀ hd xs, H hd = some xs → list ∉ xs) :
    Represents (((h.link list f).link l list).link hd entry)
      ((H.set list (some A)).set hd (some B)) := by
  have hr := R.ring hd _ hx
  have hnd := hr.nodup
  have hfm := List.mem_of_head? hf
  have hlm := List.mem_of_getLast? hl
  have hem := List.mem_of_head? he
  have hle : l ≠ hd := by grind
  have hlisth : list ∉ hd :: (A ++ B) := by
    simp only [List.mem_cons, not_or]
    exact ⟨hlist, hn hd _ hx⟩
  have hring₁ : Ring (((h.link list f).link l list).link hd entry).Link list A := by
    rw [Heap.link_Link, Heap.link_Link, Heap.link_Link]
    refine Ring.relink_frame ?_ (by grind) (by grind)
    refine Ring.close (Ring.segment (A := []) (by simpa using hr)) (by grind) ?_ ?_
    · rw [List.head?_append, hf]
      rfl
    · rw [← List.singleton_append, List.getLast?_append, hl]
      rfl
  have hring₂ : Ring (((h.link list f).link l list).link hd entry).Link hd B := by
    rw [Heap.link_Link, Heap.link_Link, Heap.link_Link,
      relink_comm (a := l) (c := hd) hle (by grind),
      relink_comm (a := list) (c := hd) hlist (by grind)]
    refine Ring.relink_frame (Ring.relink_frame ?_ (by grind) (by grind)) (by grind) (by grind)
    exact Ring.cut (A := []) (L := A) (by simpa using hr) rfl he
  have hav : ∀ m ∈ hd :: (A ++ B), ((H.set hd none).set list none).Avoids m :=
    fun m hm => (R.avoids_of_mem hx hm).set_none
  have hlav : ((H.set hd none).set list none).Avoids list := by
    intro hd' ys hy hm
    obtain ⟨hne, hy⟩ := Heads.set_none_eq_some.mp hy
    rcases List.mem_cons.mp hm with h | h
    · exact hne h.symm
    · exact hn hd' ys (Heads.set_none_eq_some.mp hy).2 h
  have K := ((((R.drop hd).drop list).link hlav (hav f (by grind))).link (hav l (by grind))
    hlav).link (hav hd (by simp)) (hav entry (by grind))
  have K := (K.put hring₁ (by
    intro m hm
    rcases List.mem_cons.mp hm with rfl | hm
    · exact hlav
    · exact hav m (by grind))).put hring₂ (by
    intro m hm
    exact (hav m (by grind)).set_some (by grind))
  rw [Heads.set_set, Heads.set_comm _ _ _ hlist, Heads.set_set, Heads.set_comm _ _ _ hlist.symm]
    at K
  exact K

theorem represents_listCutBefore {list entry : ν} (R : Represents h H) (hx : H hd = some (A ++ B))
    (he : (B ++ [hd]).head? = some entry) (hlist : list ≠ hd)
    (hn : ∀ hd xs, H hd = some xs → list ∉ xs) :
    ∃ k, listCutBefore h list hd entry = some k ∧
      Represents k ((H.set list (some A)).set hd (some B)) := by
  have hr := R.ring hd _ hx
  have hnd := hr.nodup
  cases A with
  | nil =>
    have hl := hr.link_first (by simpa using he)
    rw [List.nil_append] at hx
    rw [Heads.set_set_eq_self _ hx hlist]
    exact ⟨initListHead h list, by simp [listCutBefore, hl.1], represents_init R hn⟩
  | cons f A =>
    obtain ⟨l, hl⟩ : ∃ l, (f :: A).getLast? = some l := ⟨_, List.getLast?_eq_some_getLast (by simp)⟩
    have hem := List.mem_of_head? he
    have hfe : f ≠ entry := by grind
    have hdf := hr.link_first (y := f) rfl
    have hlen : h.Link l entry :=
      hr.link_between (by rw [List.getLast?_cons_cons, hl]) he
    exact ⟨_, listCutBefore_eq hdf.1 hfe hlen.2, represents_cut R hx rfl hl he hlist hn⟩

theorem __listSplice_eq {list p q f l : ν} (hf : (h.next list).deref = some f)
    (hl : (h.prev list).deref = some l) :
    __listSplice h list p q = some ((h.link p f).link l q) := by
  simp only [__listSplice, hf, hl, Option.bind_eq_bind, Option.bind_some, Option.some.injEq]
  apply Heap.ext <;> intro x <;> simp

theorem represents_splice {list p q : ν} (R : Represents h H) (hx : H list = some xs) (hxs : xs ≠ [])
    (hy : H hd = some (A ++ B)) (hne : list ≠ hd) (hp : (hd :: A).getLast? = some p)
    (hq : (B ++ [hd]).head? = some q) :
    ∃ k, __listSplice h list p q = some k ∧
      Represents k ((H.set list none).set hd (some (A ++ xs ++ B))) := by
  have hr := R.ring list xs hx
  obtain ⟨f, hf⟩ : ∃ f, xs.head? = some f := ⟨_, List.head?_eq_some_head hxs⟩
  obtain ⟨l, hl⟩ : ∃ l, xs.getLast? = some l := ⟨_, List.getLast?_eq_some_getLast hxs⟩
  have hfm := List.mem_of_head? hf
  have hlm := List.mem_of_getLast? hl
  have hpm := List.mem_of_getLast? hp
  have hqm := List.mem_of_head? hq
  have hlf := hr.link_first (y := f) (by rw [List.head?_append, hf]; rfl)
  have hll := hr.link_last (x := l) (by
    cases xs with
    | nil => exact absurd rfl hxs
    | cons y ys => rw [List.getLast?_cons_cons, hl])
  refine ⟨_, __listSplice_eq (Represents.next_of_link hlf) (Represents.prev_of_link hll), ?_⟩
  have hdis := R.disjoint list hd xs _ hx hy hne
  have hring : Ring ((h.link p f).link l q).Link hd (A ++ xs ++ B) := by
    rw [Heap.link_Link, Heap.link_Link]
    exact (R.ring hd _ hy).splice hr.inner (List.nodup_cons.mp hr.nodup).2
      (fun z hz => hdis z (List.mem_cons_of_mem _ hz)) hp hq hf hl
  have hav₁ : ∀ m ∈ hd :: (A ++ B), ((H.set list none).set hd none).Avoids m := by
    intro m hm
    rw [Heads.set_comm _ _ _ hne]
    exact (R.avoids_of_mem hy hm).set_none
  have hav₂ : ∀ m ∈ xs, ((H.set list none).set hd none).Avoids m :=
    fun m hm => (R.avoids_of_mem hx (List.mem_cons_of_mem _ hm)).set_none
  have K := ((((R.drop list).drop hd).link (hav₁ p (by grind)) (hav₂ f hfm)).link (hav₂ l hlm)
    (hav₁ q (by grind))).put hring (by
      intro m hm
      by_cases hmx : m ∈ xs
      · exact hav₂ m hmx
      · exact hav₁ m (by grind))
  rwa [Heads.set_set] at K

end Uki
