import Mathlib.Data.List.Chain
import Mathlib.Data.List.Nodup
import Mathlib.Tactic.Common

/-!
# Rings of a link relation

A ring is what a circular list looks like once the memory it lives in is
forgotten: `R a b` reads "`a` is linked to `b`", and `Ring R h xs` says that the
links lead from `h` through exactly `xs` back to `h`, all nodes distinct.

Every surgery on circular lists is a few calls of one primitive, `relink R a b`,
which makes `b` the successor of `a` and `a` the predecessor of `b` and drops
the two links this overwrites. Three rules say what the calls achieve:

* `Ring.cut`: one call takes a segment out of a ring;
* `Ring.splice`: two calls put a chain between two neighbours of a ring;
* `Ring.close`: two calls turn a chain into the ring of a new head.

A ring that holds neither node of a call is untouched (`Ring.frame`).
-/

namespace LinkRing

variable {ν : Type*} {R S : ν → ν → Prop} {a b h : ν} {xs L : List ν}

/-- The relation after `b` became the successor of `a` and `a` the predecessor
of `b`. The old successor of `a` and the old predecessor of `b` lose their
link. -/
def relink (R : ν → ν → Prop) (a b : ν) : ν → ν → Prop := fun x y =>
  (x = a ∧ y = b) ∨ (x ≠ a ∧ y ≠ b ∧ R x y)

/-- `Ring R h xs`: the links lead from `h` through `xs` and back to `h`, and no
node occurs twice. -/
structure Ring (R : ν → ν → Prop) (h : ν) (xs : List ν) : Prop where
  nodup : (h :: xs).Nodup
  chain : List.IsChain R (h :: xs ++ [h])

theorem relink_self : relink R a b a b := .inl ⟨rfl, rfl⟩

theorem relink_of_ne {x y : ν} (hx : x ≠ a) (hy : y ≠ b) : relink R a b x y ↔ R x y := by
  simp [relink, hx, hy]

theorem relink_comm {c d : ν} (hac : a ≠ c) (hbd : b ≠ d) :
    relink (relink R a b) c d = relink (relink R c d) a b := by
  funext x y
  simp only [relink, eq_iff_iff]
  grind

/-! ## Chains under a change of links -/

/-- A chain survives any change that keeps the links between its members. -/
theorem chain_mono (hc : L.IsChain R) (hl : ∀ x y, x ∈ L.dropLast → y ∈ L.tail → R x y → S x y) :
    L.IsChain S := by
  induction L with
  | nil => exact .nil
  | cons x L ih =>
    cases L with
    | nil => exact .singleton x
    | cons y L =>
      rw [List.isChain_cons_cons] at hc ⊢
      refine ⟨hl x y (by simp) (by simp) hc.1, ih hc.2 fun u v hu hv => ?_⟩
      exact hl u v (by simp [hu]) (by simp at hv ⊢; exact .inr hv)

/-- A new link leaves a chain alone unless it starts at an inner node of the
chain or ends at a node after the first. -/
theorem chain_relink (hc : L.IsChain R) (ha : a ∉ L.dropLast) (hb : b ∉ L.tail) :
    L.IsChain (relink R a b) := by
  refine chain_mono hc fun x y hx hy hxy => ?_
  exact (relink_of_ne (by rintro rfl; exact ha hx) (by rintro rfl; exact hb hy)).mpr hxy

theorem notMem_dropLast_of_getLast? (hn : L.Nodup) (hl : L.getLast? = some a) :
    a ∉ L.dropLast := by
  obtain ⟨L', rfl⟩ := List.getLast?_eq_some_iff.mp hl
  rw [List.dropLast_concat]
  intro hm
  rw [List.nodup_append] at hn
  exact hn.2.2 a hm a (by simp) rfl

theorem notMem_tail_of_head? (hn : L.Nodup) (hl : L.head? = some a) : a ∉ L.tail := by
  obtain ⟨L', rfl⟩ := List.head?_eq_some_iff.mp hl
  exact (List.nodup_cons.mp hn).1

/-- Where every node has one successor, a chain that leads back to `h` is the only one. -/
theorem chain_unique {L' : List ν} (hf : ∀ x y z, R x y → R x z → y = z)
    (hc : (a :: L ++ [h]).IsChain R) (hc' : (a :: L' ++ [h]).IsChain R) (hn : h ∉ L)
    (hn' : h ∉ L') : L = L' := by
  induction L generalizing a L' with
  | nil =>
    cases L' with
    | nil => rfl
    | cons y L' =>
      have hy : h = y := hf a h y (List.isChain_cons_cons.mp hc).1 (List.isChain_cons_cons.mp hc').1
      exact absurd (hy ▸ List.mem_cons_self) hn'
  | cons x L ih =>
    obtain ⟨hx, hc⟩ := List.isChain_cons_cons.mp hc
    cases L' with
    | nil =>
      have hxh : x = h := hf a x h hx (List.isChain_cons_cons.mp hc').1
      exact absurd (hxh ▸ List.mem_cons_self) hn
    | cons y L' =>
      obtain ⟨hy, hc'⟩ := List.isChain_cons_cons.mp hc'
      obtain rfl : x = y := hf a x y hx hy
      have hLL' := ih hc hc' (fun hm => hn (List.mem_cons_of_mem _ hm))
        fun hm => hn' (List.mem_cons_of_mem _ hm)
      rw [hLL']

/-! ## Rings -/

namespace Ring

/-- The rule behind every "other lists are untouched". -/
theorem frame (hr : Ring R h xs) (hl : ∀ x y, x ∈ h :: xs → y ∈ h :: xs → R x y → S x y) :
    Ring S h xs := by
  refine ⟨hr.nodup, chain_mono hr.chain fun x y hx hy => hl x y ?_ ?_⟩
  · rw [List.dropLast_concat] at hx
    exact hx
  · simp only [List.cons_append, List.tail_cons, List.mem_append, List.mem_singleton] at hy
    exact List.mem_cons.mpr hy.symm

theorem relink_frame (hr : Ring R h xs) (ha : a ∉ h :: xs) (hb : b ∉ h :: xs) :
    Ring (relink R a b) h xs := by
  refine hr.frame fun x y hx hy hxy => ?_
  exact (relink_of_ne (by rintro rfl; exact ha hx) (by rintro rfl; exact hb hy)).mpr hxy

/-- The head's successor is the first entry, or the head itself. -/
theorem link_first (hr : Ring R h xs) {y : ν} (hy : (xs ++ [h]).head? = some y) : R h y := by
  have hc := hr.chain
  rw [List.cons_append, List.isChain_cons] at hc
  exact hc.1 y hy

/-- The head's predecessor is the last entry, or the head itself. -/
theorem link_last (hr : Ring R h xs) {x : ν} (hx : (h :: xs).getLast? = some x) : R x h := by
  have hc := hr.chain
  rw [List.isChain_append] at hc
  exact hc.2.2 x hx h (by simp)

/-- The link that crosses from one part of the ring to the next. -/
theorem link_between {A B : List ν} (hr : Ring R h (A ++ B)) {x y : ν}
    (hx : (h :: A).getLast? = some x) (hy : (B ++ [h]).head? = some y) : R x y := by
  have hc := hr.chain
  rw [show h :: (A ++ B) ++ [h] = (h :: A) ++ (B ++ [h]) by simp, List.isChain_append] at hc
  exact hc.2.2 x hx y hy

/-- The entries of a ring form a chain. -/
theorem inner (hr : Ring R h xs) : xs.IsChain R :=
  (List.IsChain.left_of_append hr.chain).of_cons

theorem segment {A L B : List ν} (hr : Ring R h (A ++ L ++ B)) : L.IsChain R := by
  have hc := hr.inner
  rw [List.append_assoc] at hc
  exact hc.right_of_append.left_of_append

/-- A ring read backwards. -/
theorem reverse (hr : Ring R h xs) : Ring (fun x y => R y x) h xs.reverse := by
  have hn := List.nodup_cons.mp hr.nodup
  constructor
  · exact List.nodup_cons.mpr ⟨fun hm => hn.1 (List.mem_reverse.mp hm), List.nodup_reverse.mpr hn.2⟩
  · have hl : h :: xs.reverse ++ [h] = (h :: xs ++ [h]).reverse := by simp
    rw [hl, List.isChain_reverse]
    exact hr.chain

/-- A ring can be read from any of its nodes. -/
theorem rotate {k : ν} {A B : List ν} (hr : Ring R h (A ++ k :: B)) : Ring R k (B ++ h :: A) := by
  constructor
  · have hn := hr.nodup
    rw [show h :: (A ++ k :: B) = (h :: A) ++ (k :: B) by simp] at hn
    have := List.nodup_append_comm.mp hn
    simpa using this
  · have hc := hr.chain
    rw [show h :: (A ++ k :: B) ++ [h] = (h :: A) ++ k :: (B ++ [h]) by simp,
      List.isChain_split] at hc
    rw [show k :: (B ++ h :: A) ++ [k] = (k :: B) ++ h :: (A ++ [k]) by simp, List.isChain_split]
    exact ⟨by simpa using hc.2, by simpa using hc.1⟩

/-- One new link, from the node before a segment to the node after it, takes
the segment out of the ring. -/
theorem cut {A L B : List ν} (hr : Ring R h (A ++ L ++ B)) {x y : ν}
    (hx : (h :: A).getLast? = some x) (hy : (B ++ [h]).head? = some y) :
    Ring (relink R x y) h (A ++ B) := by
  have hn := hr.nodup
  have hc := hr.chain
  rw [show h :: (A ++ L ++ B) ++ [h] = (h :: A) ++ L ++ (B ++ [h]) by simp] at hc
  have hnA : (h :: A).Nodup := by
    refine hn.sublist (List.cons_sublist_cons.mpr ?_)
    simp
  have hnB : (B ++ [h]).Nodup := by
    have : (h :: B).Nodup := hn.sublist (List.cons_sublist_cons.mpr (by simp))
    exact List.nodup_append_comm.mp (by simpa using this)
  have hxm : x ∈ h :: A := List.mem_of_getLast? hx
  have hym : y ∈ B ++ [h] := List.mem_of_head? hy
  constructor
  · exact hn.sublist (List.cons_sublist_cons.mpr (by simp))
  · rw [show h :: (A ++ B) ++ [h] = (h :: A) ++ (B ++ [h]) by simp, List.isChain_append]
    refine ⟨?_, ?_, fun u hu v hv => ?_⟩
    · refine chain_relink hc.left_of_append.left_of_append
        (notMem_dropLast_of_getLast? hnA hx) ?_
      rw [List.tail_cons]
      grind
    · refine chain_relink hc.right_of_append ?_ (notMem_tail_of_head? hnB hy)
      rw [List.dropLast_concat]
      grind
    · rw [hx] at hu
      rw [hy] at hv
      cases hu
      cases hv
      exact relink_self

/-- Two new links put a chain of foreign nodes between two neighbours. -/
theorem splice {A L B : List ν} (hr : Ring R h (A ++ B)) (hL : L.IsChain R) (hLn : L.Nodup)
    (hd : ∀ z ∈ L, z ∉ h :: (A ++ B)) {x y s t : ν}
    (hx : (h :: A).getLast? = some x) (hy : (B ++ [h]).head? = some y)
    (hs : L.head? = some s) (ht : L.getLast? = some t) :
    Ring (relink (relink R x s) t y) h (A ++ L ++ B) := by
  have hn := hr.nodup
  have hc := hr.chain
  rw [show h :: (A ++ B) ++ [h] = (h :: A) ++ (B ++ [h]) by simp] at hc
  have hnA : (h :: A).Nodup := hn.sublist (List.cons_sublist_cons.mpr (by simp))
  have hnB : (B ++ [h]).Nodup := by
    have : (h :: B).Nodup := hn.sublist (List.cons_sublist_cons.mpr (by simp))
    exact List.nodup_append_comm.mp (by simpa using this)
  have hxm : x ∈ h :: A := List.mem_of_getLast? hx
  have hym : y ∈ B ++ [h] := List.mem_of_head? hy
  have hsm : s ∈ L := List.mem_of_head? hs
  have htm : t ∈ L := List.mem_of_getLast? ht
  have hxt : x ≠ t := by grind
  have hsy : s ≠ y := by grind
  constructor
  · rw [List.nodup_cons] at hn ⊢
    refine ⟨by grind, ?_⟩
    rw [List.append_assoc]
    rw [List.nodup_append] at hn ⊢
    refine ⟨hn.2.1, ?_, ?_⟩
    · rw [List.nodup_append]
      exact ⟨hLn, hn.2.2.1, by grind⟩
    · grind
  · rw [show h :: (A ++ L ++ B) ++ [h] = (h :: A) ++ (L ++ (B ++ [h])) by simp,
      List.isChain_append, List.isChain_append]
    refine ⟨?_, ⟨?_, ?_, fun u hu v hv => ?_⟩, fun u hu v hv => ?_⟩
    · refine chain_relink (chain_relink hc.left_of_append
        (notMem_dropLast_of_getLast? hnA hx) ?_) ?_ ?_
      · rw [List.tail_cons]
        grind
      · intro hm
        exact hd t htm (by have := (List.dropLast_sublist _).subset hm; grind)
      · rw [List.tail_cons]
        grind
    · refine chain_relink (chain_relink hL ?_ (notMem_tail_of_head? hLn hs))
        (notMem_dropLast_of_getLast? hLn ht) ?_
      · intro hm
        have := (List.dropLast_sublist _).subset hm
        grind
      · intro hm
        have := List.mem_of_mem_tail hm
        grind
    · refine chain_relink (chain_relink hc.right_of_append ?_ ?_) ?_
        (notMem_tail_of_head? hnB hy)
      · rw [List.dropLast_concat]
        grind
      · intro hm
        have := List.mem_of_mem_tail hm
        grind
      · rw [List.dropLast_concat]
        grind
    · rw [ht] at hu
      rw [hy] at hv
      cases hu
      cases hv
      exact relink_self
    · rw [hx] at hu
      have hv' : v = s := by
        cases L with
        | nil => simp at hs
        | cons z L => simp_all
      cases hu
      subst hv'
      exact (relink_of_ne hxt hsy).mpr relink_self

/-- Two new links close a chain to the ring of a new head. -/
theorem close (hL : L.IsChain R) (hLn : (h :: L).Nodup) {s t : ν}
    (hs : (L ++ [h]).head? = some s) (ht : (h :: L).getLast? = some t) :
    Ring (relink (relink R h s) t h) h L := by
  refine ⟨hLn, ?_⟩
  cases L with
  | nil =>
    simp only [List.nil_append, List.head?_cons, Option.some.injEq, List.getLast?_singleton] at hs ht
    subst hs ht
    simpa using relink_self
  | cons z L =>
    simp only [List.cons_append, List.head?_cons, Option.some.injEq] at hs
    subst hs
    rw [List.getLast?_cons_cons] at ht
    have hzn := (List.nodup_cons.mp hLn).2
    have htm : t ∈ z :: L := List.mem_of_getLast? ht
    have hth : t ≠ h := by grind
    rw [List.isChain_append]
    refine ⟨?_, .singleton h, fun u hu v hv => ?_⟩
    · rw [List.isChain_cons]
      refine ⟨fun y hy => ?_, ?_⟩
      · simp only [List.head?_cons, Option.mem_def, Option.some.injEq] at hy
        subst hy
        exact (relink_of_ne hth.symm (by grind)).mpr relink_self
      · refine chain_relink (chain_relink hL ?_ ?_) (notMem_dropLast_of_getLast? hzn ht) ?_
        · intro hm
          have := (List.dropLast_sublist _).subset hm
          grind
        · rw [List.tail_cons]
          grind
        · rw [List.tail_cons]
          grind
    · rw [List.getLast?_cons_cons, ht] at hu
      cases hu
      simp only [List.head?_cons, Option.mem_def, Option.some.injEq] at hv
      subst hv
      exact relink_self

end Ring

end LinkRing
