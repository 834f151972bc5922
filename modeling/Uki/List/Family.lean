import Uki.List.Heap

/-!
# Which sequences a heap represents

`Heads ν` is the abstract state of a program's lists: the heads in use, each
with its sequence of entries. `Represents h H` says that in the heap `h` every
head of `H` is the head of a ring through exactly its entries, and that no node
belongs to two rings.

The rules below take a family apart and put it together again: a head can be
dropped, memory outside all rings can be written, and a new ring of foreign
nodes can be added. A list operation drops the heads it works on, writes their
nodes, and adds the rings it has made.
-/

namespace Uki

open LinkRing

variable {ν : Type}

/-- The heads in use and the sequence of entries each stands for. -/
abbrev Heads (ν : Type) : Type := ν → Option (List ν)

/-- `a` is linked to `b`: each points at the other. -/
def Heap.Link (h : Heap ν) (a b : ν) : Prop := h.next a = .to b ∧ h.prev b = .to a

namespace Heads

variable [DecidableEq ν]

def set (H : Heads ν) (n : ν) (v : Option (List ν)) : Heads ν :=
  fun x => if x = n then v else H x

def modify (H : Heads ν) (n : ν) (f : List ν → List ν) : Heads ν :=
  fun x => if x = n then (H x).map f else H x

/-- The same change to every list. -/
def mapAll (H : Heads ν) (f : List ν → List ν) : Heads ν := fun x => (H x).map f

/-- `n` is neither a head in use nor an entry. -/
def Avoids (H : Heads ν) (n : ν) : Prop := ∀ hd xs, H hd = some xs → n ∉ hd :: xs

/-- `n` is not linked into any list. An empty head is linked to itself only,
and may be reused. -/
structure Unlinked (H : Heads ν) (n : ν) : Prop where
  head : ∀ xs, H n = some xs → xs = []
  entry : ∀ hd xs, H hd = some xs → n ∉ xs

def IsEntry (H : Heads ν) (n : ν) : Prop := ∃ hd xs, H hd = some xs ∧ n ∈ xs

@[simp] theorem set_self (H : Heads ν) (n : ν) (v : Option (List ν)) : H.set n v n = v := by
  simp [set]

theorem set_of_ne (H : Heads ν) {n x : ν} (v : Option (List ν)) (hx : x ≠ n) :
    H.set n v x = H x := by
  simp [set, hx]

theorem set_none_eq_some {H : Heads ν} {n hd : ν} {xs : List ν} :
    H.set n none hd = some xs ↔ hd ≠ n ∧ H hd = some xs := by
  simp only [set]
  split <;> simp_all

theorem set_set (H : Heads ν) (n : ν) (v w : Option (List ν)) : (H.set n v).set n w = H.set n w := by
  funext x
  simp only [set]
  split <;> rfl

theorem set_comm (H : Heads ν) {n k : ν} (v w : Option (List ν)) (hnk : n ≠ k) :
    (H.set n v).set k w = (H.set k w).set n v := by
  funext x
  simp only [set]
  split <;> split <;> simp_all

theorem set_eq_self {H : Heads ν} {n : ν} {v : Option (List ν)} (hn : H n = v) :
    H.set n v = H := by
  funext x
  simp only [set]
  split
  · next hx => rw [hx, hn]
  · rfl

/-- A head that keeps its list gets the same one again. -/
theorem set_set_eq_self {H : Heads ν} {n k : ν} (v : Option (List ν)) {w : Option (List ν)}
    (hk : H k = w) (hnk : n ≠ k) : (H.set n v).set k w = H.set n v :=
  set_eq_self ((set_of_ne H v hnk.symm).trans hk)

theorem modify_eq_set {H : Heads ν} {n : ν} {xs : List ν} (hn : H n = some xs)
    (f : List ν → List ν) : H.modify n f = H.set n (some (f xs)) := by
  funext x
  simp only [modify, set]
  split
  · next hx => simp [hx, hn]
  · rfl

theorem Avoids.set_none {H : Heads ν} {n k : ν} (hk : H.Avoids k) : (H.set n none).Avoids k :=
  fun hd xs hx => hk hd xs (set_none_eq_some.mp hx).2

/-- A node that is no head loses nothing when it is dropped as one. -/
theorem Avoids.set_none_eq {H : Heads ν} {n : ν} (hn : H.Avoids n) : H.set n none = H := by
  funext x
  simp only [set]
  split
  · next hx =>
    subst hx
    cases hH : H x with
    | none => rfl
    | some xs => exact absurd List.mem_cons_self (hn x xs hH)
  · rfl

omit [DecidableEq ν] in
theorem Avoids.unlinked {H : Heads ν} {n : ν} (hn : H.Avoids n) : H.Unlinked n where
  head xs hx := absurd List.mem_cons_self (hn n xs hx)
  entry hd xs hx hm := hn hd xs hx (List.mem_cons_of_mem _ hm)

/-- Once an unlinked node is given up as a head, no ring contains it. -/
theorem Unlinked.avoids_set_none {H : Heads ν} {n : ν} (hn : H.Unlinked n) :
    (H.set n none).Avoids n := by
  intro hd xs hx hm
  obtain ⟨hne, hx⟩ := set_none_eq_some.mp hx
  rcases List.mem_cons.mp hm with h | h
  · exact hne h.symm
  · exact hn.entry hd xs hx h

theorem Avoids.set_some {H : Heads ν} {n k : ν} {xs : List ν} (hk : H.Avoids k)
    (hx : k ∉ n :: xs) : (H.set n (some xs)).Avoids k := by
  intro hd ys hy
  simp only [set] at hy
  split at hy
  · next he =>
    subst he
    cases hy
    exact hx
  · exact hk hd ys hy

end Heads

/-- Every head of `H` is the head of a ring through its entries, and the rings
are disjoint. -/
structure Represents (h : Heap ν) (H : Heads ν) : Prop where
  ring : ∀ hd xs, H hd = some xs → Ring h.Link hd xs
  disjoint : ∀ hd hd' xs ys, H hd = some xs → H hd' = some ys → hd ≠ hd' →
    ∀ n ∈ hd :: xs, n ∉ hd' :: ys

namespace Heap

variable [DecidableEq ν]

/-- The two writes that link `a` to `b`. -/
def link (h : Heap ν) (a b : ν) : Heap ν := (h.setNext a (.to b)).setPrev b (.to a)

@[simp] theorem next_link (h : Heap ν) (a b x : ν) :
    (h.link a b).next x = if x = a then .to b else h.next x := by
  simp [link]

@[simp] theorem prev_link (h : Heap ν) (a b x : ν) :
    (h.link a b).prev x = if x = b then .to a else h.prev x := by
  simp [link]

theorem link_Link (h : Heap ν) (a b : ν) : (h.link a b).Link = relink h.Link a b := by
  funext x y
  simp only [Link, next_link, prev_link, relink, eq_iff_iff]
  grind

theorem link_apply_of_ne (h : Heap ν) {a b x : ν} (ha : x ≠ a) (hb : x ≠ b) :
    (h.link a b) x = h x := by
  simp [link, setNext, setPrev, ha, hb]

end Heap

namespace Represents

variable [DecidableEq ν] {h : Heap ν} {H : Heads ν} {hd : ν} {xs : List ν}

omit [DecidableEq ν] in
theorem ne_head (R : Represents h H) (hx : H hd = some xs) {e : ν} (he : e ∈ xs) : e ≠ hd :=
  fun h => (List.nodup_cons.mp (R.ring hd xs hx).nodup).1 (h ▸ he)

/-- The nodes of a dropped ring are outside all others. -/
theorem avoids_of_mem (R : Represents h H) (hx : H hd = some xs) {n : ν} (hn : n ∈ hd :: xs) :
    (H.set hd none).Avoids n := by
  intro hd' ys hy
  obtain ⟨hne, hy⟩ := Heads.set_none_eq_some.mp hy
  exact R.disjoint hd hd' xs ys hx hy hne.symm n hn

theorem drop (R : Represents h H) (n : ν) : Represents h (H.set n none) where
  ring hd xs hx := R.ring hd xs (Heads.set_none_eq_some.mp hx).2
  disjoint hd hd' xs ys hx hy :=
    R.disjoint hd hd' xs ys (Heads.set_none_eq_some.mp hx).2 (Heads.set_none_eq_some.mp hy).2

theorem link (R : Represents h H) {a b : ν} (ha : H.Avoids a) (hb : H.Avoids b) :
    Represents (h.link a b) H where
  ring hd xs hx := by
    rw [Heap.link_Link]
    exact (R.ring hd xs hx).relink_frame (ha hd xs hx) (hb hd xs hx)
  disjoint := R.disjoint

omit [DecidableEq ν] in
/-- Memory outside the rings is free. -/
theorem congr (R : Represents h H) {k : Heap ν}
    (hk : ∀ hd xs, H hd = some xs → ∀ x ∈ hd :: xs, k x = h x) : Represents k H where
  ring hd xs hx := by
    refine (R.ring hd xs hx).frame fun x y hxm hym hxy => ?_
    have hkx := hk hd xs hx x hxm
    have hky := hk hd xs hx y hym
    simp only [Heap.Link, Heap.next, Heap.prev, hkx, hky] at hxy ⊢
    exact hxy
  disjoint := R.disjoint

omit [DecidableEq ν] in
/-- Writing a cell outside all rings. -/
theorem write (R : Represents h H) {k : Heap ν} {a : ν} (ha : H.Avoids a)
    (hk : ∀ x, x ≠ a → k x = h x) : Represents k H where
  ring hd xs hx := by
    refine (R.ring hd xs hx).frame fun x y hxm hym hxy => ?_
    have hxa : x ≠ a := by rintro rfl; exact ha hd xs hx hxm
    have hya : y ≠ a := by rintro rfl; exact ha hd xs hx hym
    simp only [Heap.Link, Heap.next, Heap.prev, hk x hxa, hk y hya] at hxy ⊢
    exact hxy
  disjoint := R.disjoint

theorem put (R : Represents h H) (hr : Ring h.Link hd xs) (hn : ∀ n ∈ hd :: xs, H.Avoids n) :
    Represents h (H.set hd (some xs)) where
  ring hd' ys hy := by
    simp only [Heads.set] at hy
    split at hy
    · next he =>
      subst he
      cases hy
      exact hr
    · exact R.ring hd' ys hy
  disjoint hd₁ hd₂ ys zs hy hz hne n hm := by
    simp only [Heads.set] at hy hz
    split at hy
    · next h1 =>
      cases hy
      split at hz
      · next h2 => exact absurd (h1.trans h2.symm) hne
      · subst h1
        exact hn n hm hd₂ zs hz
    · split at hz
      · next h2 =>
        cases hz
        subst h2
        exact fun hm' => hn n hm' hd₁ ys hy hm
      · exact R.disjoint hd₁ hd₂ ys zs hy hz hne n hm

/-- A node of one ring is in no other. -/
theorem entry_unique (R : Represents h H) {hd' n : ν} {ys : List ν} (hx : H hd = some xs)
    (hy : H hd' = some ys) (hn : n ∈ xs) (hn' : n ∈ ys) : hd = hd' := by
  by_contra hne
  exact R.disjoint hd hd' xs ys hx hy hne n (List.mem_cons_of_mem _ hn)
    (List.mem_cons_of_mem _ hn')

omit [DecidableEq ν] in
theorem next_of_link {a b : ν} (hl : h.Link a b) : (h.next a).deref = some b := by
  rw [hl.1]
  rfl

omit [DecidableEq ν] in
theorem prev_of_link {a b : ν} (hl : h.Link a b) : (h.prev b).deref = some a := by
  rw [hl.2]
  rfl

end Represents

end Uki
