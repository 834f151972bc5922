import Uki.Timer.Client
import Mathlib.Data.Fintype.Card

/-!
# `cascade` on the pointers

`cascade` takes a bucket over into `tv_list` and files its timers one after
another. They stay linked to each other through `next` until their turn has
come, which is what `list_for_each_entry_safe` walks on. Nothing is written but
the entry that is filed and the ring it joins, and no entry that is still to be
visited is in a ring (`Refiling.step`). So the loop ends with every timer at the
end of its bucket (`cascade_refiles`).
-/

namespace Uki

variable {m : LongModel} {N : Nat} {working : Bool} {w : World m N}
  {list : Head → List (Fin N)} {ts : List (Fin N)} {t : Fin N} {tv : Tv} {i : Nat}
  {timer tmp : Node N}

/-! ## The walk -/

/-- The nodes the loop has still to visit. -/
def route (ts : List (Fin N)) : List (Node N) := ts.map Node.entry ++ [.head .tvList]

/-- The timers `ts` are still linked to each other and back to `tv_list`. -/
def Remaining (h : Heap (Node N)) (ts : List (Fin N)) : Prop :=
  (route ts).IsChain (fun a b => h.next a = Ptr.to b) ∧ ∃ n, h.next (.head .tvList) = .to n

theorem Remaining.next {h : Heap (Node N)} {ts : List (Fin N)} (hr : Remaining h ts) {n : Node N}
    (hn : (route ts).head? = some n) : ∃ k, h.next n = .to k := by
  cases ts with
  | nil =>
    cases hn
    exact hr.2
  | cons t ts =>
    cases hn
    have hc := hr.1
    cases ts with
    | nil => exact ⟨_, (List.isChain_cons_cons.mp hc).1⟩
    | cons u ts => exact ⟨_, (List.isChain_cons_cons.mp hc).1⟩

theorem Remaining.tail {h : Heap (Node N)} {ts : List (Fin N)} (hr : Remaining h (t :: ts)) :
    Remaining h ts := ⟨hr.1.tail, hr.2⟩

theorem Remaining.first {h : Heap (Node N)} {ts : List (Fin N)} (hr : Remaining h (t :: ts))
    {n : Node N} (hn : h.next (.entry t) = .to n) :
    (route ts).head? = some n := by
  have hc := hr.1
  cases ts with
  | nil =>
    have := (List.isChain_cons_cons.mp hc).1
    simp_all [route]
  | cons u ts =>
    have := (List.isChain_cons_cons.mp hc).1
    simp_all [route]

theorem Remaining.frame {h k : Heap (Node N)} {ts : List (Fin N)} (hr : Remaining h ts)
    (hk : ∀ n ∈ route ts, k n = h n) : Remaining k ts := by
  refine ⟨hr.1.imp_of_mem_imp fun a b ha _ hab => ?_, ?_⟩
  · rwa [Heap.next, hk a ha]
  · obtain ⟨n, hn⟩ := hr.2
    exact ⟨n, by rwa [Heap.next, hk _ (by simp [route])]⟩

/-! ## One turn -/

/-- The lists after the timers `ts` joined their buckets one after another. -/
def World.refile (w : World m N) (ts : List (Fin N)) (list : Head → List (Fin N)) (b : Head) :
    List (Fin N) := list b ++ ts.filter fun t => w.file t = b

theorem World.refile_nil (w : World m N) (list : Head → List (Fin N)) : w.refile [] list = list := by
  funext b
  simp [World.refile]

theorem World.refile_cons (w : World m N) (t : Fin N) (ts : List (Fin N))
    (list : Head → List (Fin N)) :
    w.refile (t :: ts) list =
      w.refile ts (Function.update list (w.file t) (list (w.file t) ++ [t])) := by
  funext b
  simp only [World.refile, List.filter_cons, Function.update_apply]
  rcases eq_or_ne b (w.file t) with rfl | hb
  · simp
  · simp [hb, Ne.symm hb]

theorem World.mem_refile {u : Fin N} {b : Head} :
    u ∈ w.refile ts list b ↔ u ∈ list b ∨ (u ∈ ts ∧ w.file u = b) := by
  simp [World.refile]

/-- Filing a bucket again loses no timer. -/
theorem World.not_mem_of_refile (w : World m N) (b₀ : Head) {u : Fin N}
    (h : ∀ b, u ∉ w.refile (list b₀) (Function.update list b₀ []) b) (b : Head) : u ∉ list b := by
  intro hm
  rcases eq_or_ne b b₀ with rfl | hb
  · exact h _ (World.mem_refile.mpr (.inr ⟨hm, rfl⟩))
  · refine h b (World.mem_refile.mpr (.inl ?_))
    rwa [Function.update_of_ne hb]

/-- The pointers at a test of the loop: the timers `ts` are to be filed yet, and
`timer` and `tmp` are the next two nodes. -/
structure Refiling (working : Bool) (w : World m N) (list : Head → List (Fin N))
    (ts : List (Fin N)) (timer tmp : Node N) : Prop where
  rings : Represents w.heap (ringHeads (Head.live working) list)
  fresh : ∀ t ∈ ts, ∀ b, t ∉ list b
  nodup : ts.Nodup
  remaining : Remaining w.heap ts
  head : (route ts).head? = some timer
  next : w.heap.next timer = .to tmp

theorem Refiling.length_lt (F : Refiling working w list ts timer tmp) : ts.length < N + 1 := by
  have := F.nodup.length_le_card
  rw [Fintype.card_fin] at this
  omega

/-- The timers in no list and not to be filed keep their entries. -/
def KeepsOthers (h k : Heap (Node N)) (ts : List (Fin N)) (list : Head → List (Fin N)) : Prop :=
  ∀ u ∉ ts, (∀ b, u ∉ list b) → k (.entry u) = h (.entry u)

/-- The timer that is filed is not the next one, nor is that in the ring it joins. -/
theorem Refiling.step (F : Refiling working w list (t :: ts) timer tmp) :
    timer = .entry t ∧ ∃ k next, internalAddTimer w t = some (w.setHeap k) ∧
      k.next tmp = .to next ∧ KeepsOthers w.heap k [t] list ∧
      Refiling working (w.setHeap k)
        (Function.update list (w.file t) (list (w.file t) ++ [t])) ts tmp next := by
  obtain ⟨R, hfresh, hnd, hr, htimer, htmp⟩ := F
  cases htimer
  obtain ⟨ht, hnd⟩ := List.nodup_cons.mp hnd
  obtain ⟨k, hk, R', hs⟩ := internalAddTimer_rings R (hfresh t List.mem_cons_self)
  have hkeep : KeepsOthers w.heap k [t] list := fun u hu hl =>
    hs _ (by simpa [hl (w.file t)] using hu)
  have hcell : ∀ n ∈ route ts, k n = w.heap n := by
    intro n hn
    rw [route, List.mem_append, List.mem_map] at hn
    rcases hn with ⟨u, hu, rfl⟩ | hn
    · have hut : u ≠ t := fun he => ht (he ▸ hu)
      exact hkeep u (by simpa using hut) (hfresh u (List.mem_cons_of_mem _ hu))
    · cases List.mem_singleton.mp hn
      obtain ⟨tv, i, hf, -⟩ := internalAddVec_lt w.base.timerJiffies (w.timer t).expires
      refine hs _ ?_
      simp [World.file, hf]
  have hr' : Remaining k ts := hr.tail.frame hcell
  have hfirst := hr.first htmp
  obtain ⟨next, hnext⟩ := hr'.next hfirst
  refine ⟨rfl, k, next, hk, hnext, hkeep, R', fun u hu b hb => ?_, hnd, hr', hfirst, hnext⟩
  rw [Function.update_apply] at hb
  split at hb
  · rcases List.mem_append.mp hb with hb | hb
    · exact hfresh u (List.mem_cons_of_mem _ hu) _ hb
    · exact ht (List.mem_singleton.mp hb ▸ hu)
  · exact hfresh u (List.mem_cons_of_mem _ hu) _ hb

/-! ## The loop -/

theorem cascadeLoop_refiles {fuel : Nat} (F : Refiling working w list ts timer tmp)
    (hfuel : ts.length < fuel) :
    ∃ k, cascadeLoop fuel w timer tmp = some (w.setHeap k) ∧ KeepsOthers w.heap k ts list ∧
      Represents k (ringHeads (Head.live working) (w.refile ts list)) := by
  induction ts generalizing w list fuel timer tmp with
  | nil =>
    cases F.head
    cases fuel with
    | zero => simp at hfuel
    | succ fuel =>
      refine ⟨w.heap, by simp [cascadeLoop, World.setHeap], fun _ _ _ => rfl, ?_⟩
      rw [World.refile_nil]
      exact F.rings
  | cons t ts ih =>
    cases fuel with
    | zero => simp at hfuel
    | succ fuel =>
      obtain ⟨rfl, k, next, hk, hnext, hkeep, F'⟩ := F.step
      obtain ⟨k', hk', hkeep', R'⟩ := ih F' (by simpa using hfuel)
      refine ⟨k', ?_, fun u hu hl => ?_, ?_⟩
      · simp only [cascadeLoop, hk, Option.bind_eq_bind, Option.bind_some]
        simp only [World.setHeap] at hk' ⊢
        rw [hnext, Ptr.deref_to, Option.bind_some]
        exact hk'
      · rw [List.mem_cons, not_or] at hu
        have hl' (b : Head) :
            u ∉ Function.update list (w.file t) (list (w.file t) ++ [t]) b := by
          rw [Function.update_apply]
          split
          · simp [hl, hu.1]
          · exact hl b
        rw [hkeep' u hu.2 hl']
        exact hkeep u (by simpa using hu.1) hl
      · rw [World.refile_cons]
        exact R'

/-! ## The whole function -/

/-- The bucket is taken over: `tv_list` is a ring through its timers, and every
other list is as before. -/
theorem cascade_take_rings (R : Represents w.heap (ringHeads (Head.live false) list))
    (hi : i < tv.size) :
    ∃ h, listReplaceInit w.heap (.head (.vec tv i)) (.head .tvList) = some h ∧
      Represents h ((ringHeads (Head.live false) (Function.update list (.vec tv i) [])).set
        (.head .tvList) (some ((list (.vec tv i)).map .entry))) ∧
      SameOff (.head .tvList :: .head (.vec tv i) :: (list (.vec tv i)).map .entry) w.heap h := by
  have hlive : Head.live false (.vec tv i) = true := by simpa [Head.live] using hi
  obtain ⟨h, hh, R', hs⟩ := represents_listReplaceInit R (ringHeads_head _ hlive)
    (ringHeads_unlinked _ (rfl : Head.live false .tvList = false)) (by simp)
  refine ⟨h, hh, ?_, hs⟩
  rwa [ringHeads_update _ hlive]

/-- Once its timers are walked over, `tv_list` itself is forgotten. -/
theorem represents_without_tvList {h : Heap (Node N)} {xs : Option (List (Node N))}
    (R : Represents h ((ringHeads (Head.live false) list).set (.head .tvList) xs)) :
    Represents h (ringHeads (Head.live false) list) := by
  have R' := R.drop (.head .tvList)
  rwa [Heads.set_set, Heads.set_eq_self (by simp [ringHeads, Head.live])] at R'

/-- `cascade` enters its loop with all timers of the bucket. -/
theorem cascade_refiling (R : Represents w.heap (ringHeads (Head.live false) list))
    (hl : ∀ b t, t ∈ list b → Head.live false b = true) (hi : i < tv.size) :
    ∃ h timer tmp, listReplaceInit w.heap (.head (.vec tv i)) (.head .tvList) = some h ∧
      h.next (.head .tvList) = .to timer ∧ h.next timer = .to tmp ∧
      KeepsOthers w.heap h (list (.vec tv i)) list ∧
      Refiling false (w.setHeap h) (Function.update list (.vec tv i) []) (list (.vec tv i))
        timer tmp := by
  obtain ⟨h, hh, R', hs⟩ := cascade_take_rings R hi
  have hlive : Head.live false (.vec tv i) = true := by simpa [Head.live] using hi
  have hring := R'.ring _ _ (Heads.set_self _ _ _)
  obtain ⟨timer, htimer⟩ : ∃ n, (route (list (.vec tv i))).head? = some n :=
    ⟨_, List.head?_eq_some_head (by simp [route])⟩
  have hfirst := (hring.link_first htimer).1
  have hchain := hring.chain.imp (S := fun a b => h.next a = .to b) fun _ _ hl => hl.1
  have hr : Remaining h (list (.vec tv i)) := ⟨hchain.tail, timer, hfirst⟩
  obtain ⟨tmp, htmp⟩ := hr.next htimer
  refine ⟨h, timer, tmp, hh, hfirst, htmp, fun u hu _ => hs _ (by simp [hu]),
    represents_without_tvList R', fun t ht b hb => ?_, ringHeads_nodup R hlive, hr, htimer, htmp⟩
  rw [Function.update_apply] at hb
  split at hb
  · cases hb
  · next hne => exact hne (ringHeads_unique R (hl b t hb) hlive hb ht)

theorem cascade_refiles (R : Represents w.heap (ringHeads (Head.live false) list))
    (hl : ∀ b t, t ∈ list b → Head.live false b = true) (hi : i < tv.size) :
    ∃ h timer tmp k, listReplaceInit w.heap (.head (.vec tv i)) (.head .tvList) = some h ∧
      h.next (.head .tvList) = .to timer ∧ h.next timer = .to tmp ∧
      Refiling false (w.setHeap h) (Function.update list (.vec tv i) []) (list (.vec tv i))
        timer tmp ∧
      cascadeLoop (N + 1) (w.setHeap h) timer tmp = some (w.setHeap k) ∧
      cascade w tv i = some (w.setHeap k, i) ∧
      (∀ u, (∀ b, u ∉ list b) → k (.entry u) = w.heap (.entry u)) ∧
      Represents k (ringHeads (Head.live false)
        (w.refile (list (.vec tv i)) (Function.update list (.vec tv i) []))) := by
  obtain ⟨h, timer, tmp, hh, hfirst, htmp, hkeep, F⟩ := cascade_refiling R hl hi
  obtain ⟨k, hk, hkeep', R'⟩ := cascadeLoop_refiles F F.length_lt
  have hk : cascadeLoop (N + 1) (w.setHeap h) timer tmp = some (w.setHeap k) := hk
  refine ⟨h, timer, tmp, k, hh, hfirst, htmp, F, hk, ?_, fun u hu => ?_, R'⟩
  · simp only [cascade, hh, hfirst, htmp, Option.bind_eq_bind, Option.bind_some, Ptr.deref_to, hk]
  · have hu' (b : Head) : u ∉ Function.update list (.vec tv i) [] b := by
      rw [Function.update_apply]
      split
      · exact List.not_mem_nil
      · exact hu b
    exact (hkeep' u (hu _) hu').trans (hkeep u (hu _) hu)

end Uki
