import Uki.List.Family

/-!
# What each list operation does to the represented sequences

One lemma for each operation of `list.h`: from a heap that represents `H` the
operation reaches, without a fault, a heap that represents the sequences it is
documented to produce. The pointer surgery is stated once, for the internal
functions; the public ones follow by locating the neighbours they read.
-/

set_option linter.style.nameCheck false

namespace Uki

open LinkRing

variable {ν : Type} [DecidableEq ν] {h : Heap ν} {H : Heads ν} {hd n e : ν} {xs A B : List ν}

/-! ## The pointer writes as links -/

theorem initListHead_eq (h : Heap ν) (list : ν) : initListHead h list = h.link list list := rfl

theorem __listAdd_eq (h : Heap ν) (new prev next : ν) :
    __listAdd h new prev next = (h.link new next).link prev new := by
  apply Heap.ext <;> intro x <;> simp [__listAdd]

theorem __listDel_eq (h : Heap ν) (prev next : ν) : __listDel h prev next = h.link prev next := by
  apply Heap.ext <;> intro x <;> simp [__listDel]

theorem listReplace_eq {old new f l : ν} (hf : (h.next old).deref = some f)
    (hl : ((h.link new f).prev old).deref = some l) :
    listReplace h old new = some ((h.link new f).link l new) := by
  have hf' : h.next old = .to f := by
    revert hf
    cases h.next old <;> simp [Ptr.deref]
  have hl' : (h.link new f).prev old = .to l := by
    revert hl
    cases (h.link new f).prev old <;> simp [Ptr.deref]
  simp only [Heap.prev_link] at hl'
  simp only [listReplace, hf', Heap.next_setNext, if_true, Ptr.deref_to, Option.bind_eq_bind,
    Option.bind_some, Heap.prev_setPrev, Heap.prev_setNext, hl', Option.some.injEq]
  apply Heap.ext <;> intro x <;> simp

/-- `k` differs from `h` in the cells of `s` at most. -/
def SameOff (s : List ν) (h k : Heap ν) : Prop := ∀ x, x ∉ s → k x = h x

omit [DecidableEq ν] in
theorem SameOff.trans {s t : List ν} {h k l : Heap ν} (hk : SameOff s h k) (hl : SameOff t k l)
    (hst : ∀ x ∈ t, x ∈ s) : SameOff s h l :=
  fun x hx => (hl x fun ht => hx (hst x ht)).trans (hk x hx)

theorem sameOff_link {s : List ν} {a b : ν} (ha : a ∈ s) (hb : b ∈ s) : SameOff s h (h.link a b) :=
  fun _ hx => h.link_apply_of_ne (fun he => hx (he ▸ ha)) (fun he => hx (he ▸ hb))

/-! ## Initialising -/

theorem represents_init (R : Represents h H) (hn : ∀ hd xs, H hd = some xs → n ∉ xs) :
    Represents (initListHead h n) (H.set n (some [])) := by
  have ha : (H.set n none).Avoids n := by
    intro hd xs hx hm
    obtain ⟨hne, hx⟩ := Heads.set_none_eq_some.mp hx
    rcases List.mem_cons.mp hm with h | h
    · exact hne h.symm
    · exact hn hd xs hx h
  have hr : Ring (h.link n n).Link n [] := by
    refine ⟨List.nodup_singleton n, ?_⟩
    rw [Heap.link_Link]
    simpa using relink_self
  have := ((R.drop n).link ha ha).put hr (by simpa using ha)
  rwa [Heads.set_set] at this

/-! ## Adding and removing one entry -/

theorem represents_insert (R : Represents h H) (hx : H hd = some (A ++ B)) (hn : H.Unlinked n)
    (hne : n ≠ hd) {p q : ν} (hp : (hd :: A).getLast? = some p)
    (hq : (B ++ [hd]).head? = some q) :
    Represents (__listAdd h n p q) ((H.set n none).set hd (some (A ++ n :: B))) := by
  have hx' : H.set n none hd = some (A ++ B) := by rw [Heads.set_of_ne H none hne.symm, hx]
  have R' := R.drop n
  have hpm : p ∈ hd :: (A ++ B) := by
    have := List.mem_of_getLast? hp
    grind
  have hqm : q ∈ hd :: (A ++ B) := by
    have := List.mem_of_head? hq
    grind
  have hnm : n ∉ hd :: (A ++ B) := hn.avoids_set_none hd _ hx'
  have hpn : p ≠ n := by rintro rfl; exact hnm hpm
  have hqn : q ≠ n := by rintro rfl; exact hnm hqm
  have hav : ∀ m ∈ hd :: (A ++ B), ((H.set n none).set hd none).Avoids m :=
    fun m hm => R'.avoids_of_mem hx' hm
  have hnav : ((H.set n none).set hd none).Avoids n := hn.avoids_set_none.set_none
  rw [__listAdd_eq]
  have hr : Ring ((h.link n q).link p n).Link hd (A ++ n :: B) := by
    rw [Heap.link_Link, Heap.link_Link, relink_comm hpn.symm hqn]
    have := (R.ring hd _ hx).splice (List.IsChain.singleton n) (List.nodup_singleton n)
      (by simpa using hnm) hp hq rfl rfl
    simpa using this
  have K := (((R'.drop hd).link hnav (hav q hqm)).link (hav p hpm) hnav).put hr (by
    intro m hm
    by_cases hmn : m = n
    · exact hmn ▸ hnav
    · exact hav m (by grind))
  rwa [Heads.set_set] at K

omit [DecidableEq ν] in
/-- The neighbours of an entry, as the entry's fields give them. -/
theorem Represents.neighbours (R : Represents h H) (hx : H hd = some (A ++ e :: B)) :
    ∃ p q, (hd :: A).getLast? = some p ∧ (B ++ [hd]).head? = some q ∧
      (h.prev e).deref = some p ∧ (h.next e).deref = some q := by
  obtain ⟨p, hp⟩ : ∃ p, (hd :: A).getLast? = some p :=
    ⟨_, List.getLast?_eq_some_getLast (by simp)⟩
  obtain ⟨q, hq⟩ : ∃ q, (B ++ [hd]).head? = some q :=
    ⟨_, List.head?_eq_some_head (by simp)⟩
  have hr := R.ring hd _ hx
  have hpe := hr.link_between hp (y := e) rfl
  rw [show A ++ e :: B = (A ++ [e]) ++ B by simp] at hr
  have heq := hr.link_between (x := e) (by rw [← List.cons_append, List.getLast?_concat]) hq
  exact ⟨p, q, hp, hq, prev_of_link hpe, next_of_link heq⟩

theorem represents_remove (R : Represents h H) (hx : H hd = some (A ++ e :: B)) {p q : ν}
    (hp : (hd :: A).getLast? = some p) (hq : (B ++ [hd]).head? = some q) :
    Represents (__listDel h p q) (H.set hd (some (A ++ B))) := by
  have hpm : p ∈ hd :: (A ++ e :: B) := by
    have := List.mem_of_getLast? hp
    grind
  have hqm : q ∈ hd :: (A ++ e :: B) := by
    have := List.mem_of_head? hq
    grind
  have hav : ∀ m ∈ hd :: (A ++ e :: B), (H.set hd none).Avoids m :=
    fun m hm => R.avoids_of_mem hx hm
  rw [__listDel_eq]
  have hr : Ring (h.link p q).Link hd (A ++ B) := by
    rw [Heap.link_Link]
    refine Ring.cut (L := [e]) ?_ hp hq
    simpa using R.ring hd _ hx
  have K := ((R.drop hd).link (hav p hpm) (hav q hqm)).put hr (fun m hm => hav m (by grind))
  rwa [Heads.set_set] at K

theorem represents_delEntry (R : Represents h H) (hx : H hd = some (A ++ e :: B)) :
    ∃ k, __listDelEntry h e = some k ∧ Represents k (H.set hd (some (A ++ B))) ∧
      SameOff (hd :: (A ++ B)) h k := by
  obtain ⟨p, q, hp, hq, hpe, heq⟩ := R.neighbours hx
  have hpm := List.mem_of_getLast? hp
  have hqm := List.mem_of_head? hq
  refine ⟨__listDel h p q, ?_, represents_remove R hx hp hq, ?_⟩
  · simp [__listDelEntry, hpe, heq]
  · rw [__listDel_eq]
    exact sameOff_link (by grind) (by grind)

/-- A removed entry is outside all rings. -/
theorem Represents.avoids_removed (R : Represents h H) (hx : H hd = some (A ++ e :: B)) :
    (H.set hd (some (A ++ B))).Avoids e := by
  have hn := (R.ring hd _ hx).nodup
  have ha : (H.set hd none).Avoids e := R.avoids_of_mem hx (by simp)
  have : ((H.set hd none).set hd (some (A ++ B))).Avoids e := ha.set_some (by grind)
  rwa [Heads.set_set] at this

theorem represents_listAdd (R : Represents h H) (hx : H hd = some xs) (hn : H.Unlinked n)
    (hne : n ≠ hd) :
    ∃ k, listAdd h n hd = some k ∧ Represents k ((H.set n none).set hd (some (n :: xs))) := by
  obtain ⟨q, hq⟩ : ∃ q, (xs ++ [hd]).head? = some q := ⟨_, List.head?_eq_some_head (by simp)⟩
  have hl := (R.ring hd xs hx).link_first hq
  refine ⟨__listAdd h n hd q, ?_, ?_⟩
  · simp [listAdd, Represents.next_of_link hl]
  · exact represents_insert (A := []) R (by simpa using hx) hn hne rfl hq

theorem represents_listAddTail (R : Represents h H) (hx : H hd = some xs) (hn : H.Unlinked n)
    (hne : n ≠ hd) :
    ∃ k, listAddTail h n hd = some k ∧
      Represents k ((H.set n none).set hd (some (xs ++ [n]))) ∧ SameOff (n :: hd :: xs) h k := by
  obtain ⟨p, hp⟩ : ∃ p, (hd :: xs).getLast? = some p := ⟨_, List.getLast?_eq_some_getLast (by simp)⟩
  have hl := (R.ring hd xs hx).link_last hp
  refine ⟨__listAdd h n p hd, ?_, ?_, ?_⟩
  · simp [listAddTail, Represents.prev_of_link hl]
  · exact represents_insert (B := []) R (by simpa using hx) hn hne hp rfl
  · have hpm := List.mem_of_getLast? hp
    rw [__listAdd_eq]
    exact (sameOff_link (by simp) (by simp)).trans
      (sameOff_link (List.mem_cons_of_mem n hpm) List.mem_cons_self) (fun _ hx => hx)

theorem represents_listDel (R : Represents h H) (hx : H hd = some (A ++ e :: B)) :
    ∃ k, listDel h e = some k ∧ Represents k (H.set hd (some (A ++ B))) := by
  obtain ⟨k, hk, R', -⟩ := represents_delEntry R hx
  refine ⟨(k.setNext e .listPoison1).setPrev e .listPoison2, by simp [listDel, hk], ?_⟩
  exact R'.write (R.avoids_removed hx) (fun x hxe => by simp [Heap.setNext, Heap.setPrev, hxe])

theorem represents_listDelInit (R : Represents h H) (hx : H hd = some (A ++ e :: B)) :
    ∃ k, listDelInit h e = some k ∧
      Represents k ((H.set hd (some (A ++ B))).set e (some [])) := by
  obtain ⟨k, hk, R', -⟩ := represents_delEntry R hx
  refine ⟨initListHead k e, by simp [listDelInit, hk], ?_⟩
  exact represents_init R' (R.avoids_removed hx).unlinked.entry

/-! ## Replacing -/

theorem represents_listReplace {old new : ν} (R : Represents h H) (hx : H old = some xs)
    (hn : H.Unlinked new) (hne : old ≠ new) :
    ∃ k, listReplace h old new = some k ∧
      Represents k ((H.set old none).set new (some xs)) ∧ SameOff (new :: old :: xs) h k := by
  have hnav : ((H.set old none).set new none).Avoids new := by
    rw [Heads.set_comm H _ _ hne]
    exact hn.avoids_set_none.set_none
  have hav : ∀ m ∈ old :: xs, ((H.set old none).set new none).Avoids m :=
    fun m hm => (R.avoids_of_mem hx hm).set_none
  have hnm : new ∉ old :: xs := by
    simp only [List.mem_cons, not_or]
    exact ⟨hne.symm, hn.entry old xs hx⟩
  have hr := R.ring old xs hx
  obtain ⟨f, hf⟩ : ∃ f, (xs ++ [old]).head? = some f := ⟨_, List.head?_eq_some_head (by simp)⟩
  obtain ⟨l, hl⟩ : ∃ l, (old :: xs).getLast? = some l := ⟨_, List.getLast?_eq_some_getLast (by simp)⟩
  have hof := hr.link_first hf
  have hlo := hr.link_last hl
  have hfm : f ∈ old :: xs := by
    have := List.mem_of_head? hf
    grind
  have hlm : l ∈ old :: xs := List.mem_of_getLast? hl
  cases xs with
  | nil =>
    -- an empty head: the first write to `prev` already redirects the second read to `new`
    simp only [List.nil_append, List.head?_cons, Option.some.injEq] at hf
    subst hf
    have hk : listReplace h old new = some ((h.link new old).link new new) :=
      listReplace_eq (Represents.next_of_link hof) (by simp)
    refine ⟨_, hk, ?_, (sameOff_link (by simp) (by simp)).trans (sameOff_link (by simp) (by simp))
      fun _ hx => hx⟩
    have hr' : Ring ((h.link new old).link new new).Link new [] := by
      refine ⟨List.nodup_singleton new, ?_⟩
      rw [Heap.link_Link]
      simpa using relink_self
    have K := ((((R.drop old).drop new).link hnav (hav old (by simp))).link hnav hnav).put hr'
      (by simpa using hnav)
    rwa [Heads.set_set] at K
  | cons y ys =>
    have hfo : old ≠ f := by
      simp only [List.cons_append, List.head?_cons, Option.some.injEq] at hf
      have := hr.nodup
      grind
    have hk : listReplace h old new = some ((h.link new f).link l new) := by
      refine listReplace_eq (Represents.next_of_link hof) ?_
      rw [Heap.prev_link, if_neg hfo]
      exact Represents.prev_of_link hlo
    refine ⟨_, hk, ?_, (sameOff_link (by simp) (List.mem_cons_of_mem _ hfm)).trans
      (sameOff_link (List.mem_cons_of_mem _ hlm) (by simp)) fun _ hx => hx⟩
    have hr' : Ring ((h.link new f).link l new).Link new (y :: ys) := by
      rw [Heap.link_Link, Heap.link_Link]
      have hnd := hr.nodup
      refine Ring.close hr.inner ?_ ?_ ?_
      · rw [List.nodup_cons] at hnd ⊢
        exact ⟨fun hm => hnm (List.mem_cons_of_mem _ hm), hnd.2⟩
      · simpa using hf
      · rw [List.getLast?_cons_cons] at hl ⊢
        exact hl
    have K := ((((R.drop old).drop new).link hnav (hav f hfm)).link (hav l hlm) hnav).put hr' (by
      intro m hm
      rcases List.mem_cons.mp hm with rfl | hm
      · exact hnav
      · exact hav m (List.mem_cons_of_mem _ hm))
    rwa [Heads.set_set] at K

theorem represents_listReplaceInit {old new : ν} (R : Represents h H) (hx : H old = some xs)
    (hn : H.Unlinked new) (hne : old ≠ new) :
    ∃ k, listReplaceInit h old new = some k ∧
      Represents k ((H.set old (some [])).set new (some xs)) ∧ SameOff (new :: old :: xs) h k := by
  obtain ⟨k, hk, R', hs⟩ := represents_listReplace R hx hn hne
  refine ⟨initListHead k old, by simp [listReplaceInit, hk], ?_, ?_⟩
  rotate_left
  · rw [initListHead_eq]
    exact hs.trans (sameOff_link (by simp) (by simp)) fun _ hx => hx
  have hm : ∀ hd ys, (H.set old none).set new (some xs) hd = some ys → old ∉ ys := by
    intro hd ys hy hm
    have hout : old ∉ new :: xs :=
      List.mem_cons.not.mpr <| not_or.mpr ⟨hne, (List.nodup_cons.mp (R.ring old xs hx).nodup).1⟩
    have ha : ((H.set old none).set new (some xs)).Avoids old :=
      (R.avoids_of_mem hx (by simp)).set_some hout
    exact ha hd ys hy (List.mem_cons_of_mem _ hm)
  have K := represents_init R' hm
  rwa [Heads.set_comm _ _ _ hne.symm, Heads.set_set] at K

/-! ## The queries -/

theorem Represents.listEmpty_iff (R : Represents h H) (hx : H hd = some xs) :
    listEmpty h hd = true ↔ xs = [] := by
  obtain ⟨f, hf⟩ : ∃ f, (xs ++ [hd]).head? = some f := ⟨_, List.head?_eq_some_head (by simp)⟩
  have hl := (R.ring hd xs hx).link_first hf
  simp only [listEmpty, hl.1, beq_iff_eq, Ptr.to.injEq]
  cases xs with
  | nil => simpa using hf.symm
  | cons y ys =>
    simp only [List.cons_append, List.head?_cons, Option.some.injEq] at hf
    subst hf
    simp only [reduceCtorEq, iff_false]
    exact R.ne_head hx List.mem_cons_self

theorem Represents.listEmpty_eq_false (R : Represents h H) (hx : H hd = some xs) (hxs : xs ≠ []) :
    listEmpty h hd = false := by
  rw [← Bool.not_eq_true, R.listEmpty_iff hx]
  exact hxs

theorem Represents.listIsLast_iff (R : Represents h H) (hx : H hd = some xs) {e : ν}
    (he : e ∈ xs) : listIsLast h e hd = true ↔ xs.getLast? = some e := by
  obtain ⟨A, B, rfl⟩ := List.append_of_mem he
  obtain ⟨p, q, -, hq, -, heq⟩ := R.neighbours hx
  have hn := (R.ring hd _ hx).nodup
  have heq : h.next e = .to q := by
    cases hp : h.next e <;> simp_all [Ptr.deref]
  simp only [listIsLast, heq, beq_iff_eq, Ptr.to.injEq]
  cases B with
  | nil => simpa using hq.symm
  | cons y ys =>
    simp only [List.cons_append, List.head?_cons, Option.some.injEq] at hq
    subst hq
    have hy : y ≠ hd := by grind
    have hm : (y :: ys).getLast? ≠ some e := by
      intro hc
      have := List.mem_of_getLast? hc
      grind
    rw [List.getLast?_append_of_ne_nil _ (by simp), List.getLast?_cons_cons]
    simp [hy, hm]

theorem Represents.listIsSingular_iff (R : Represents h H) (hx : H hd = some xs) :
    listIsSingular h hd = true ↔ xs.length = 1 := by
  obtain ⟨f, hf⟩ : ∃ f, (xs ++ [hd]).head? = some f := ⟨_, List.head?_eq_some_head (by simp)⟩
  obtain ⟨l, hl⟩ : ∃ l, (hd :: xs).getLast? = some l := ⟨_, List.getLast?_eq_some_getLast (by simp)⟩
  have hlf := (R.ring hd xs hx).link_first hf
  have hll := (R.ring hd xs hx).link_last hl
  have hn := (List.nodup_cons.mp (R.ring hd xs hx).nodup).2
  simp only [listIsSingular, Bool.and_eq_true, Bool.not_eq_true', ← Bool.not_eq_true,
    R.listEmpty_iff hx, hlf.1, hll.2, beq_iff_eq, Ptr.to.injEq]
  match xs with
  | [] => simp
  | [y] => simp_all
  | y :: z :: zs =>
    simp only [List.cons_append, List.head?_cons, Option.some.injEq] at hf
    rw [List.getLast?_cons_cons, List.getLast?_cons_cons] at hl
    have := List.mem_of_getLast? hl
    simp only [List.length_cons, reduceCtorEq, not_false_eq_true, true_and]
    grind

end Uki
