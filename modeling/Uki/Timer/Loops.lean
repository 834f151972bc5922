import Uki.Timer.Worker

/-!
# The loops of the worker are runs of the machine

`__runTimers` and `jiffiesWorker` compute with loops and fuel what the machine
`wheel` does step by step. `jiffies_worker_is_run` says that whatever the functions
return is the end of a run, whose events are the ticks and callbacks that they
report; so what holds of all runs holds of the functions.
-/

set_option linter.style.nameCheck false

namespace Uki

variable {m : LongModel} {N : Nat} {w w' : World m N} {s : Sys m N} {ev ev' : List (Event m N)}
  {σ : Type} {cb : Callbacks σ m N}

/-! ## Events and traces -/

/-- The timers that run before the next tick, and the ticks with the timers that run
in each. -/
abbrev Record (m : LongModel) (N : Nat) : Type := List (Fin N) × List (ULong m × List (Fin N))

/-- One event more in front. -/
def Event.record : Event m N → Record m N → Record m N
  | .iter T, r => ([], (T, r.1) :: r.2)
  | .fire t _ _, r => (t :: r.1, r.2)
  | .ret _ _, r => r

def recordOf (ev : List (Event m N)) : Record m N := ev.foldr Event.record ([], [])

/-- `as` leads from `s` to `s'`, stores no clock, and shows events that are recorded
by `f`. -/
def Records (s s' : Sys m N) (as : List (Act m N)) (f : Record m N → Record m N) : Prop :=
  wakes as = [] ∧ ∃ ev, (wheel m N).run s as = some (s', ev) ∧ ∀ r, ev.foldr Event.record r = f r

theorem wakes_append (as bs : List (Act m N)) : wakes (as ++ bs) = wakes as ++ wakes bs :=
  List.filterMap_append

theorem records_nil (s : Sys m N) : Records s s [] id := ⟨rfl, [], rfl, fun _ => rfl⟩

theorem Records.append {s s' s'' : Sys m N} {as bs : List (Act m N)} {f g : Record m N → Record m N}
    (h : Records s s' as f) (h' : Records s' s'' bs g) : Records s s'' (as ++ bs) (f ∘ g) := by
  obtain ⟨has, ev, hr, hf⟩ := h
  obtain ⟨hbs, ev', hr', hg⟩ := h'
  refine ⟨by rw [wakes_append, has, hbs, List.append_nil], ev ++ ev',
    Machine.run_append.mpr ⟨s', ev, ev', hr, hr', rfl⟩, fun r => ?_⟩
  rw [List.foldr_append, hg, hf, Function.comp_apply]

theorem records_call {s s' : Sys m N} {c : Call m N} (h : s.step (.call c) = some (s', ev)) :
    Records s s' [.call c] fun r => ev.foldr Event.record r :=
  ⟨rfl, ev, Machine.run_singleton.mpr h, fun _ => rfl⟩

theorem records_run {s s' : Sys m N} (h : s.step .run = some (s', ev)) :
    Records s s' [.run] fun r => ev.foldr Event.record r :=
  ⟨rfl, ev, Machine.run_singleton.mpr h, fun _ => rfl⟩

/-! ## The loops -/

theorem execCalls_records {cs : List (Call m N)} {c : Ctl N} (ho : c.open = true)
    (h : execCalls w cs = some w') : Records ⟨w, c⟩ ⟨w', c⟩ (cs.map .call) id := by
  induction cs generalizing w with
  | nil =>
    cases h
    exact records_nil _
  | cons x cs ih =>
    simp only [execCalls, Option.bind_eq_bind, Option.bind_eq_some_iff] at h
    obtain ⟨⟨w₁, r⟩, hx, h⟩ := h
    have hs : Sys.step ⟨w, c⟩ (.call x) = some (⟨w₁, c⟩, [.ret x r]) := by
      simp [Sys.step, ho, hx]
    exact (records_call hs).append (ih h)

theorem runWorkList_records {fuel : Nat} {e e' : σ} {ts : List (Fin N)}
    (h : runWorkList cb fuel e w = some (e', w', ts)) :
    ∃ as, Records ⟨w, .inner⟩ ⟨w', .outer⟩ as fun r => (ts ++ r.1, r.2) := by
  induction fuel generalizing e w ts with
  | zero => cases h
  | succ fuel ih =>
    cases he : listEmpty w.heap (.head .workList) with
    | true =>
      simp only [runWorkList, he, if_true, Option.some.injEq, Prod.mk.injEq] at h
      obtain ⟨rfl, rfl, rfl⟩ := h
      have hdone : Sys.step ⟨w, .inner⟩ .run = some (⟨w, .outer⟩, []) := by simp [Sys.step, he]
      exact ⟨[.run], records_run hdone⟩
    | false =>
      cases ht : takeTimer w with
      | none => simp [runWorkList, he, ht] at h
      | some p =>
        obtain ⟨w₁, t, fn, data⟩ := p
        rw [runWorkList_cons fuel he ht rfl] at h
        simp only [Option.bind_eq_some_iff] at h
        obtain ⟨w₂, hc, w₃, hl, ⟨e₂, w₄, ts⟩, hr, h⟩ := h
        cases h
        obtain ⟨as, hrest⟩ := ih hr
        have hfire : Sys.step ⟨w, .inner⟩ .run =
            some (⟨spinUnlock w₁, .callback t⟩, [.fire t fn data]) := by
          simp [Sys.step, he, ht]
        have hback : Sys.step ⟨w₂, .callback t⟩ .run = some (⟨w₃, .inner⟩, []) := by
          simp [Sys.step, hl]
        exact ⟨_, (records_run hfire).append ((execCalls_records rfl hc).append
          ((records_run hback).append hrest))⟩

theorem runTicks_records {fuel : Nat} {e e' : σ} {trace : List (ULong m × List (Fin N))}
    (h : runTicks cb fuel e w = some (e', w', trace)) :
    ∃ as f, Records ⟨w, .outer⟩ ⟨spinUnlock w', .idle⟩ as f ∧
      ∀ rest, f ([], rest) = ([], trace ++ rest) := by
  induction fuel generalizing e w trace with
  | zero => cases h
  | succ fuel ih =>
    cases hj : timeAfterEq w.jiffies w.base.timerJiffies with
    | false =>
      simp only [runTicks, hj, Bool.false_eq_true, if_false, Option.some.injEq, Prod.mk.injEq] at h
      obtain ⟨rfl, rfl, rfl⟩ := h
      have hsleep : Sys.step ⟨w, .outer⟩ .run = some (⟨spinUnlock w, .idle⟩, []) := by
        simp [Sys.step, hj]
      exact ⟨_, _, records_run hsleep, fun _ => rfl⟩
    | true =>
      simp only [runTicks, hj, if_true, Option.bind_eq_bind, Option.bind_eq_some_iff] at h
      obtain ⟨w₁, ht, ⟨e₂, w₂, ts⟩, hw, ⟨e₃, w₃, rest⟩, hr, h⟩ := h
      cases h
      have htick : Sys.step ⟨w, .outer⟩ .run =
          some (⟨w₁, .inner⟩, [.iter w.base.timerJiffies]) := by
        simp [Sys.step, hj, ht]
      obtain ⟨as, hwork⟩ := runWorkList_records hw
      obtain ⟨bs, f, hrest, hf⟩ := ih hr
      refine ⟨_, _, (records_run htick).append (hwork.append hrest), fun r => ?_⟩
      simp [hf, Event.record]

theorem runTimers_records {fuel : Nat} {e e' : σ} {j : ULong m}
    {trace : List (ULong m × List (Fin N))}
    (h : __runTimers cb fuel e { w with jiffies := j } = some (e', w', trace)) :
    ∃ as ev, (wheel m N).run ⟨w, .idle⟩ as = some (⟨w', .idle⟩, ev) ∧ wakes as = [j] ∧
      ∀ rest, ev.foldr Event.record ([], rest) = ([], trace ++ rest) := by
  simp only [__runTimers, Option.bind_eq_bind, Option.bind_eq_some_iff] at h
  obtain ⟨w₁, hl, ⟨e₂, w₂, trace⟩, hr, h⟩ := h
  cases h
  have hwake : Sys.step ⟨w, .idle⟩ (.wake j) = some (⟨w₁, .outer⟩, []) := by
    simp [Sys.step, hl]
  obtain ⟨as, f, ⟨has, ev, hrun, hev⟩, hf⟩ := runTicks_records hr
  refine ⟨.wake j :: as, ev, Machine.run_cons.mpr ⟨_, [], ev, hwake, hrun, rfl⟩, ?_, fun rest => ?_⟩
  · have hcons : wakes (.wake j :: as) = j :: wakes as := rfl
    rw [hcons, has]
  · rw [hev, hf]

/-- What the worker returns is the end of a run in which it stores the clock readings of
its turns, and its trace is the record of that run. -/
theorem jiffies_worker_is_run {fuel : Nat} {e e' : σ} {turns : List (Turn m N)}
    {trace : List (ULong m × List (Fin N))}
    (h : jiffiesWorker cb fuel e w turns = some (e', w', trace)) :
    ∃ as ev, (wheel m N).run ⟨w, .idle⟩ as = some (⟨w', .idle⟩, ev) ∧
      (wakes as).map some =
        turns.map (fun turn => turn.ti.map fun r => timeToJiffies r.toTimespec) ∧
      recordOf ev = ([], trace) := by
  have key : ∃ as ev, (wheel m N).run ⟨w, .idle⟩ as = some (⟨w', .idle⟩, ev) ∧
      (wakes as).map some =
        turns.map (fun turn => turn.ti.map fun r => timeToJiffies r.toTimespec) ∧
      ∀ rest, ev.foldr Event.record ([], rest) = ([], trace ++ rest) := by
    induction turns generalizing e w trace with
    | nil =>
      cases h
      exact ⟨[], [], rfl, rfl, fun _ => rfl⟩
    | cons turn turns ih =>
      simp only [jiffiesWorker, Option.bind_eq_bind, Option.bind_eq_some_iff] at h
      obtain ⟨w₁, hc, ti, hti, ⟨e₂, w₂, trace₂⟩, hp, ⟨e₃, w₃, rest₃⟩, hr, h⟩ := h
      cases h
      obtain ⟨hw₁, ev₁, hr₁, hev₁⟩ := execCalls_records (c := .idle) rfl hc
      obtain ⟨as₂, ev₂, hr₂, hw₂, hev₂⟩ := runTimers_records hp
      obtain ⟨as₃, ev₃, hr₃, hw₃, hev₃⟩ := ih hr
      refine ⟨turn.calls.map .call ++ (as₂ ++ as₃), ev₁ ++ (ev₂ ++ ev₃),
        Machine.run_append.mpr ⟨_, _, _, hr₁,
          Machine.run_append.mpr ⟨_, _, _, hr₂, hr₃, rfl⟩, rfl⟩, ?_, fun rest => ?_⟩
      · rw [wakes_append, wakes_append, hw₁, hw₂, List.nil_append, List.map_append, hw₃]
        simp [hti]
      · rw [List.foldr_append, List.foldr_append, hev₃, hev₂, hev₁, List.append_assoc]
        rfl
  obtain ⟨as, ev, hr, hw, hev⟩ := key
  exact ⟨as, ev, hr, hw, by rw [recordOf, hev, List.append_nil]⟩

/-- The timer set for tick 2 is run when the late worker reaches that tick. -/
theorem jiffies_worker_is_run_test1 :
    ∃ r₁ r₂ : Reading .long32, r₁.toTimespec = ⟨0, 5⟩ ∧ r₂.toTimespec = ⟨0, 30000000⟩ ∧
      ∃ w' as ev,
        (wheel .long32 1).run
          ⟨(boot (fun _ => ⟨.null, .null⟩) (fun _ => ⟨0, 1, 2⟩) 0).world, .idle⟩ as =
            some (⟨w', .idle⟩, ev) ∧
        (wakes as).map some =
          [r₁, r₂].map (fun r => some (timeToJiffies r.toTimespec)) ∧
        recordOf ev = ([], [(0, []), (1, []), (2, [0]), (3, [])]) := by
  let r₁ : Reading .long32 := ⟨⟨0, 5⟩, by decide, by decide, by decide⟩
  let r₂ : Reading .long32 := ⟨⟨0, 30000000⟩, by decide, by decide, by decide⟩
  let cb : Callbacks Unit .long32 1 := fun e _ _ => (e, [])
  let w : World .long32 1 := (boot (fun _ => ⟨.null, .null⟩) (fun _ => ⟨0, 1, 2⟩) 0).world
  let turns : List (Turn .long32 1) := [⟨[], some r₁⟩, ⟨[.modTimer 0 2], some r₂⟩]
  have hex : (jiffiesWorker cb 7 () w turns).map (fun p => p.2.2) =
      some [(0, []), (1, []), (2, [0]), (3, [])] := by decide +kernel
  obtain ⟨⟨e', w', trace⟩, hr, ht⟩ := Option.map_eq_some_iff.mp hex
  obtain rfl : trace = _ := ht
  obtain ⟨as, ev, hrun, hw, hev⟩ := jiffies_worker_is_run hr
  exact ⟨r₁, r₂, rfl, rfl, w', as, ev, hrun, hw, hev⟩

end Uki
