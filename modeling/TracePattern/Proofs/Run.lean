import Mathlib.Data.List.Forall2
import TracePattern.Path
import TracePattern.Proofs.Step

/-!
# Runs of a path

In its life a path gets events and is closed.

* `forall₂_mergeSort`: sorting, with which an event ends;
* `Path.Act`, `Path.apply`, `Path.after`: the life of a path;
* `Path.Act.applied`: the number of events that came before the closing;
* `Path.after_induction`: what an event keeps, and closing keeps, holds all the time;
* `Path.foldl_onEvent`, `Path.onEvents_eq`: a life of events only.
-/

namespace TracePattern

/-! ### The order of branches -/

/-- Sorting keeps two lists related if what is related is in the same order. -/
theorem forall₂_mergeSort {α β : Type} {R : α → β → Prop} {le : α → α → Bool} {le' : β → β → Bool}
    {as : List α} {bs : List β} (h : List.Forall₂ R as bs)
    (same : ∀ a b c d, R a b → R c d → le a c = le' b d) :
    List.Forall₂ R (as.mergeSort le) (bs.mergeSort le') := by
  obtain ⟨pairs, rfl, rfl, related⟩ : ∃ pairs : List (α × β), as = pairs.map Prod.fst ∧
      bs = pairs.map Prod.snd ∧ ∀ p ∈ pairs, R p.1 p.2 := by
    refine ⟨as.zip bs, (List.map_fst_zip (Nat.le_of_eq h.length_eq)).symm,
      (List.map_snd_zip (Nat.le_of_eq h.length_eq.symm)).symm, fun p mem => ?_⟩
    exact (List.forall₂_iff_zip.1 h).2 mem
  have sorted : (pairs.map Prod.snd).mergeSort le' =
      (pairs.mergeSort fun p q => le p.1 q.1).map Prod.snd :=
    (List.map_mergeSort fun p hp q hq => same _ _ _ _ (related p hp) (related q hq)).symm
  rw [sorted, ← List.map_mergeSort (r := fun p q => le p.1 q.1) fun _ _ _ _ => rfl]
  refine List.forall₂_map_left_iff.2 (List.forall₂_map_right_iff.2 (List.forall₂_same.2 ?_))
  exact fun p mem => related p (List.mem_mergeSort.1 mem)

namespace Path

/-- What happens to a path. -/
inductive Act
  | event (e : Record)
  | close

/-- The number of events before the closing. -/
def Act.applied : List Act → ℕ
  | [] => 0
  | .event _ :: rest => applied rest + 1
  | .close :: _ => 0

/-- The path after something happened. -/
def apply (p : Path) : Act → Path
  | .event e => (p.onEvent e).1
  | .close => p.close

/-- The path after several happenings. -/
def after (p : Path) (hs : List Act) : Path := hs.foldl apply p

@[simp] theorem after_nil (p : Path) : p.after [] = p := rfl

@[simp] theorem after_cons (p : Path) (h : Act) (hs : List Act) :
    p.after (h :: hs) = (p.apply h).after hs := rfl

theorem onEvent_of_closed {p : Path} (h : p.closed = true) (e : Record) :
    p.onEvent e = (p, .none) := by simp [onEvent, h]

/-! ### Open paths -/

section Open

variable {p : Path} (h : p.closed = false) (e : Record)
include h

theorem running_onEvent :
    (p.onEvent e).1.running = (p.turn e).1.running.mergeSort fun a b => a.id ≤ b.id := by
  simp [onEvent, h]

theorem finished_onEvent :
    (p.onEvent e).1.finished = p.finished ++ (p.turn e).1.finished := by simp [onEvent, h]

theorem reports_onEvent : (p.onEvent e).2.reports = (p.turn e).1.reports := by simp [onEvent, h]

theorem nextId_onEvent : (p.onEvent e).1.nextId = (p.turn e).2.nextId := by simp [onEvent, h]

theorem stats_onEvent :
    (p.onEvent e).1.stats =
      { eventsApplied := p.stats.eventsApplied + 1
        branchesSpawned := p.stats.branchesSpawned + (p.turn e).2.spawned
        succeeded := p.stats.succeeded + count .successful (p.turn e).1.finished
        failed := p.stats.failed + count .failed (p.turn e).1.finished } := by
  simp [onEvent, h]

theorem perm_running_onEvent : (p.onEvent e).1.running.Perm (p.turn e).1.running := by
  rw [running_onEvent h]
  exact List.mergeSort_perm _ _

/-- After an event the running branches stand in the order of their numbers. -/
theorem sorted_running_onEvent : (p.onEvent e).1.running.Pairwise fun a b => a.id ≤ b.id := by
  rw [running_onEvent h]
  have trans : ∀ a b c : Branch, decide (a.id ≤ b.id) = true → decide (b.id ≤ c.id) = true →
      decide (a.id ≤ c.id) = true := by
    intro a b c hab hbc
    simp only [decide_eq_true_eq] at *
    omega
  have total : ∀ a b : Branch, (decide (a.id ≤ b.id) || decide (b.id ≤ a.id)) = true := by
    intro a b
    simp only [Bool.or_eq_true, decide_eq_true_eq]
    omega
  exact (List.pairwise_mergeSort trans total _).imp fun hab => by simpa using hab

end Open

@[simp] theorem id_onEvent (p : Path) (e : Record) : (p.onEvent e).1.id = p.id := by
  cases h : p.closed <;> simp [onEvent, h]

@[simp] theorem closed_onEvent (p : Path) (e : Record) : (p.onEvent e).1.closed = p.closed := by
  cases h : p.closed <;> simp [onEvent, h]

/-- **What every event keeps, and closing keeps, holds after every life.** -/
theorem after_induction {I : Path → Prop} {p : Path} (start : I p)
    (event : ∀ q e, I q → q.closed = false → I (q.onEvent e).1) (close : ∀ q, I q → I q.close)
    (hs : List Act) : I (p.after hs) := by
  induction hs generalizing p with
  | nil => exact start
  | cons h rest ih =>
    refine ih ?_
    cases h with
    | close => exact close p start
    | event e =>
      show I (p.onEvent e).1
      cases hc : p.closed with
      | false => exact event p e start hc
      | true => rwa [onEvent_of_closed hc]

theorem id_after (p : Path) (hs : List Act) : (p.after hs).id = p.id :=
  after_induction (I := fun q => q.id = p.id) rfl (fun q e same _ => (id_onEvent q e).trans same)
    (fun _ same => same) hs

/-- The events that count are those before the closing. -/
theorem eventsApplied_after (p : Path) (hs : List Act) :
    (p.after hs).stats.eventsApplied =
      p.stats.eventsApplied + if p.closed then 0 else Act.applied hs := by
  induction hs generalizing p with
  | nil => simp [Act.applied]
  | cons h rest ih =>
    rw [after_cons, ih]
    cases h with
    | close => cases hc : p.closed <;> simp [apply, close, Act.applied]
    | event e =>
      show (p.onEvent e).1.stats.eventsApplied + (if (p.onEvent e).1.closed then _ else _) = _
      rw [closed_onEvent]
      cases hc : p.closed with
      | true => simp [onEvent_of_closed hc]
      | false =>
        simp only [stats_onEvent hc, Act.applied]
        simp; omega

/-- Whatever happens, earlier results stay as they are. -/
theorem finished_prefix_apply (p : Path) (h : Act) :
    p.finished <+: (p.apply h).finished := by
  cases h with
  | close => exact List.prefix_rfl
  | event e =>
    show p.finished <+: (p.onEvent e).1.finished
    cases hc : p.closed with
    | true =>
      have same : (p.onEvent e).1 = p := congrArg Prod.fst (onEvent_of_closed hc e)
      exact same.symm ▸ List.prefix_rfl
    | false => exact ⟨_, (finished_onEvent hc e).symm⟩

/-! ### Events only -/

/-- What comes out of a run is added to what came out before. -/
theorem foldl_onEvent (p : Path) (events : List Record) (out : Output) :
    events.foldl (fun (p, out) event =>
      let next := p.onEvent event
      (next.1, out ++ next.2)) (p, out) =
        ((p.onEvents events).1, out ++ (p.onEvents events).2) := by
  have assoc : ∀ a b c : Output, a ++ b ++ c = a ++ (b ++ c) := by
    intro a b c
    show Output.append (Output.append _ _) _ = Output.append _ (Output.append _ _)
    simp [Output.append]
  induction events generalizing p out with
  | nil =>
    show (p, out) = (p, Output.append out .none)
    simp [Output.append, Output.none]
  | cons e rest ih =>
    have first : p.onEvents (e :: rest) = (((p.onEvent e).1.onEvents rest).1,
        (.none ++ (p.onEvent e).2) ++ ((p.onEvent e).1.onEvents rest).2) := ih _ _
    rw [first]
    refine (ih _ _).trans ?_
    rw [assoc, assoc]
    rfl

/-- A run of some events after others. -/
theorem onEvents_append_eq (p : Path) (before later : List Record) :
    p.onEvents (before ++ later) = (((p.onEvents before).1.onEvents later).1,
      (p.onEvents before).2 ++ ((p.onEvents before).1.onEvents later).2) := by
  refine List.foldl_append.trans ?_
  exact foldl_onEvent _ later _

theorem onEvents_cons_eq (p : Path) (e : Record) (rest : List Record) :
    p.onEvents (e :: rest) = (((p.onEvent e).1.onEvents rest).1,
      (p.onEvent e).2 ++ ((p.onEvent e).1.onEvents rest).2) := onEvents_append_eq p [e] rest

theorem onEvents_eq (p : Path) (events : List Record) :
    (p.onEvents events).1 = p.after (events.map .event) := by
  unfold onEvents
  generalize Output.none = out
  induction events generalizing p out with
  | nil => rfl
  | cons e rest ih => exact ih _ _

end Path

end TracePattern
