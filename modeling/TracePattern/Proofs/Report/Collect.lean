import TracePattern.Proofs.Report.Visits
import TracePattern.Sink

/-!
# What a collection holds

A collection that only the root of an expression reports to holds the results of the path.

* `Expr.sinks`: the sinks of the recorded nodes of an expression;
* `SinkBoard.get?_deliver`: what a sink is after some reports;
* `End.resultsTo_root`: the root hears of every result of the path, and of nothing else;
* `Path.reported_once`: the reports of a path.
-/

namespace TracePattern

/-! ### The sinks of an expression -/

namespace Expr

mutual
/-- The sinks of the recorded nodes. -/
def sinks : Expr → List ℕ
  | .event _ => []
  | .eventThen _ children => sinksOf children
  | .sequence children => sinksOf children
  | .filter _ children => sinksOf children
  | .groupBy _ template => template.sinks
  | .record sink inner => sink :: inner.sinks

/-- The sinks of the recorded nodes of several expressions. -/
def sinksOf : List Expr → List ℕ
  | [] => []
  | e :: rest => e.sinks ++ sinksOf rest
end

variable {e d : Expr} {here way : List ℕ}

theorem sinks_subset_sinksOf {es : List Expr} (mem : e ∈ es) : e.sinks ⊆ sinksOf es := by
  induction es with
  | nil => cases mem
  | cons d rest ih =>
    rcases List.mem_cons.1 mem with rfl | mem
    · exact List.subset_append_left _ _
    · exact List.Subset.trans (ih mem) (List.subset_append_right _ _)

theorem sinks_subset_of_child? {i : ℕ} (child : e.child? i = some d) : d.sinks ⊆ e.sinks := by
  cases e with
  | event _ => cases child
  | eventThen _ children => exact sinks_subset_sinksOf (List.mem_of_getElem? child)
  | sequence children => exact sinks_subset_sinksOf (List.mem_of_getElem? child)
  | filter _ children => exact sinks_subset_sinksOf (List.mem_of_getElem? child)
  | groupBy _ template =>
    simp only [child?, Option.ite_none_right_eq_some] at child
    cases child.2
    exact List.Subset.refl _
  | record sink inner =>
    simp only [child?, Option.ite_none_right_eq_some] at child
    cases child.2
    exact List.subset_cons_self _ _

/-- A recorded node of an expression reports to a sink of it. -/
theorem sink_mem_of_ancestor {a : Ancestor} {l : Listener} (mem : a ∈ e.ancestorsFrom here way)
    (found : a.listener? = some l) : l.sink ∈ e.sinks := by
  induction way generalizing e here with
  | nil => cases mem
  | cons i way ih =>
    rw [ancestorsFrom, List.mem_cons] at mem
    rcases mem with rfl | mem
    · cases e with
      | record sink inner =>
        cases found
        exact List.mem_cons_self
      | _ => cases found
    · split at mem
      · rename_i d child
        exact sinks_subset_of_child? child (ih mem)
      · cases mem

end Expr

/-! ### Delivery -/

namespace SinkBoard

theorem get?_update (board : SinkBoard) (sink other : ℕ) (f : Sink → Sink) :
    (board.update other f).get? sink =
      if other = sink then (board.get? sink).map f else board.get? sink := by
  induction board with
  | nil => simp [update, get?]
  | cons s rest ih =>
    have number : (if s.1 = other then (s.1, f s.2) else s).1 = s.1 := by split <;> rfl
    simp only [update, get?, List.map_cons, List.find?_cons, number] at ih ⊢
    by_cases here : s.1 = sink
    · subst here
      by_cases same : s.1 = other
      · simp [same]
      · simp [same, Ne.symm same]
    · simpa only [here, decide_false] using ih

/-- **What a sink is after some reports** depends on the reports to it only. -/
theorem get?_deliver (board : SinkBoard) (sink : ℕ) (reports : List Report) :
    (board.deliver reports).get? sink = (board.get? sink).map fun s =>
      ((reports.filter (·.sink = sink)).map Report.result).foldl (fun s r => s.push r) s := by
  induction reports generalizing board with
  | nil => simp [deliver]
  | cons r rest ih =>
    have first : board.deliver (r :: rest) =
        (board.update r.sink (Sink.push r.result)).deliver rest := rfl
    rw [first, ih, get?_update]
    by_cases here : r.sink = sink <;> simp [here, Function.comp_def]

end SinkBoard

theorem Sink.foldl_push_collecting (earlier results : List Recorded) :
    results.foldl (fun s r => Sink.push r s) (.collecting earlier) =
      .collecting (earlier ++ results) := by
  induction results generalizing earlier with
  | nil => simp
  | cons r rest ih => exact (ih (earlier ++ [r])).trans (by simp)

/-! ### Reports to the root -/

/-- The result as the sinks of a path get it. -/
def Finish.recorded (path : ℕ) (f : Finish) : Recorded :=
  ⟨path, f.id, f.outcome, f.captures, f.error⟩

/-- The results that some reports bring to a sink. -/
def Report.resultsTo (sink : ℕ) (reports : List Report) : List Recorded :=
  (reports.filter (·.sink = sink)).map Report.result

namespace Expr

variable {sink : ℕ} {inner : Expr} {way : List ℕ}

/-- Above an address in a recorded expression there is the root, and what is above it inside. -/
theorem ancestors_record (sink : ℕ) (inner : Expr) (way : List ℕ) :
    (Expr.record sink inner).ancestors (0 :: way) =
      ⟨.record sink inner, [], 0⟩ :: inner.ancestorsFrom [0] way := rfl

/-- A recorded expression does not wait itself. -/
theorem Stands.address_record {frames : List Frame} {cursor : Cursor}
    (stands : (Expr.record sink inner).Stands frames cursor) :
    ∃ way, address frames = 0 :: way := by
  obtain ⟨n, leads, waits⟩ := stands
  cases leads with
  | nil => cases waits
  | cons into _ =>
    cases into
    exact ⟨_, rfl⟩

/-- The recorded nodes around a place in a recorded expression are some inside, and the root. -/
theorem listenersAround_record (sink : ℕ) (inner : Expr) (way : List ℕ) :
    ∃ ls : List Listener, (∀ l ∈ ls, l.sink ∈ inner.sinks) ∧
      (Expr.record sink inner).listenersAround (0 :: way) = ls ++ [⟨[], sink⟩] := by
  refine ⟨(inner.ancestorsFrom [0] way).reverse.filterMap Ancestor.listener?, ?_, ?_⟩
  · intro l mem
    obtain ⟨a, ha, found⟩ := List.mem_filterMap.1 mem
    exact sink_mem_of_ancestor (List.mem_reverse.1 ha) found
  · rw [listenersAround, ancestors_record, List.reverse_cons, List.filterMap_append]
    rfl

/-- The recorded nodes that are left are some inside, and the root if everything is completed. -/
theorem listenersLeft_record (sink : ℕ) (inner : Expr) (way : List ℕ) :
    ∃ ls : List Listener, (∀ l ∈ ls, l.sink ∈ inner.sinks) ∧
      (Expr.record sink inner).listenersLeft (0 :: way) =
        ls ++ if (Expr.record sink inner).completedAt (0 :: way) then [⟨[], sink⟩] else [] := by
  let ways := (inner.ancestorsFrom [0] way).reverse
  let going (a : Ancestor) : Bool := !a.hasNext
  refine ⟨(ways.takeWhile going).filterMap Ancestor.listener?, ?_, ?_⟩
  · intro l mem
    obtain ⟨a, ha, found⟩ := List.mem_filterMap.1 mem
    have inside := (List.takeWhile_sublist going).subset ha
    exact sink_mem_of_ancestor (List.mem_reverse.1 inside) found
  · have completed : (Expr.record sink inner).completedAt (0 :: way) = ways.all going := by
      rw [completedAt, ancestors_record, List.all_reverse]
      rfl
    rw [listenersLeft, ancestors_record, List.reverse_cons, takeWhile_concat, completed]
    by_cases all : ways.all going = true
    · have whole : ways.takeWhile going = ways :=
        List.takeWhile_eq_self_iff.2 (List.all_eq_true.1 all)
      rw [if_pos all, if_pos all, whole, List.filterMap_append]
      rfl
    · rw [if_neg all, if_neg all, List.append_nil]

end Expr

namespace End

variable {x : End} {sink : ℕ} {inner : Expr}

/-- **The root of a recorded expression hears of a branch exactly when this is its end.** -/
theorem resultsTo_root (stands : x.branch.strand.Stands (.record sink inner))
    (only : sink ∉ inner.sinks) (path : ℕ) :
    Report.resultsTo sink (x.reports path (.record sink inner)) =
      ((x.finish? (.record sink inner)).map (Finish.recorded path)).toList := by
  obtain ⟨way, address⟩ : ∃ way, x.address = 0 :: way := stands.address_record
  have heard : ∃ ls : List Listener, (∀ l ∈ ls, l.sink ∈ inner.sinks) ∧
      x.listeners (.record sink inner) = ls ++
        if x.error.isSome || (Expr.record sink inner).completedAt x.address then [⟨[], sink⟩]
        else [] := by
    unfold listeners
    rw [address]
    cases x.error.isSome with
    | true => exact Expr.listenersAround_record sink inner way
    | false => exact Expr.listenersLeft_record sink inner way
  obtain ⟨ls, inside, heard⟩ := heard
  have others : ls.filter (fun l => l.sink = sink) = [] := List.filter_eq_nil_iff.2 fun l mem same =>
    only (of_decide_eq_true same ▸ inside l mem)
  have filtered : (x.listeners (.record sink inner)).filter (fun l => l.sink = sink) =
      if x.error.isSome || (Expr.record sink inner).completedAt x.address then [⟨[], sink⟩]
      else [] := by
    rw [heard, List.filter_append, others, List.nil_append]
    split <;> simp
  rw [Report.resultsTo, reports, List.filter_map, Function.comp_def, filtered, finish?]
  split <;> rfl

end End

/-! ### Runs -/

namespace Path

variable {S : Scope} {p : Path} {sink : ℕ} {inner : Expr}

/-- In an event the root of a recorded expression hears of the new results. -/
theorem Placed.resultsTo_root (coherent : S.Coherent) (h : p.Placed S (.record sink inner))
    (only : sink ∉ inner.sinks) (e : Record) :
    (p.onEvent e).1.finished.map (Finish.recorded p.id) =
      p.finished.map (Finish.recorded p.id) ++ Report.resultsTo sink (p.onEvent e).2.reports := by
  obtain ⟨reports, finished⟩ := h.onEvent_ends coherent e
  rw [reports, finished, List.map_append, List.filterMap_eq_flatMap_toList, List.map_flatMap,
    Report.resultsTo, List.filter_flatMap, List.map_flatMap]
  refine congrArg (_ ++ ·) (List.flatMap_congr fun x mem => ?_)
  rw [← Option.toList_map]
  exact (End.resultsTo_root (h.held_of_mem_ends mem).1 only p.id).symm

/-- **In a run the root of a recorded expression hears of all new results.** -/
theorem Placed.resultsTo_root_onEvents (coherent : S.Coherent) (h : p.Placed S (.record sink inner))
    (only : sink ∉ inner.sinks) (events : List Record) :
    (p.onEvents events).1.finished.map (Finish.recorded p.id) =
      p.finished.map (Finish.recorded p.id) ++
        Report.resultsTo sink (p.onEvents events).2.reports := by
  induction events generalizing p with
  | nil => simp [onEvents, Report.resultsTo, Output.none]
  | cons e rest ih =>
    have later := ih (h.onEvent coherent e)
    rw [id_onEvent, h.resultsTo_root coherent only e, List.append_assoc] at later
    rw [onEvents_cons_eq]
    refine later.trans (congrArg (_ ++ ·) ?_)
    show _ = Report.resultsTo sink ((p.onEvent e).2.reports ++ _)
    simp [Report.resultsTo]

/-- **Recorded nodes hear of each branch exactly once, and in order.** After any life of a path:

* the reports of an event are those of its ends, in order: all recorded nodes around a branch that
  fails hear of it, and those that are left by a branch whose awaited event came at a node without
  children, innermost first;
* the ends that complete the expression, or fail, are the new results; the others are at a node
  without children whose condition held;
* no recorded node hears of a branch twice;
* a collection that only the root reports to holds the results of the path after any events. -/
theorem reported_once {tree : Expr} (valid : tree.defect? = none) (coherent : tree.Coherent) (id : ℕ)
    (name : Option String) (initial : Captures) (acts : List Act) :
    let p := (start id name tree initial).after acts
    (∀ e, (p.onEvent e).2.reports = (p.ends e).flatMap (·.reports id tree) ∧
      (p.onEvent e).1.finished = p.finished ++ (p.ends e).filterMap (·.finish? tree) ∧
      ∀ x ∈ p.ends e, ∃ n, tree.node? x.address = some n ∧ n.Waits x.branch.cursor ∧
        (x.error = none → ∃ c before, n = .event c ∧
          (c.evaluate e before).1 = x.branch.captures ∧
          (c.evaluate e before).2.guarded = .ok true)) ∧
    (visits tree (start id name tree initial) acts).Nodup ∧
    ∀ sink inner, tree = .record sink inner → sink ∉ inner.sinks → ∀ board : SinkBoard,
      board.get? sink = some (.collecting []) → ∀ events,
        let done := (start id name tree initial).onEvents events
        (board.deliver done.2.reports).get? sink =
          some (.collecting (done.1.finished.map (Finish.recorded id))) := by
  intro p
  have within : tree.Within (Scope.of tree) :=
    Expr.within_of_valid valid (fun _ hc => hc) fun _ hk => hk
  have scope := Scope.coherent_of coherent
  have placed := Placed.start within id name initial
  have ledger := ledger_start id name tree initial
  refine ⟨fun e => ?_, (behind_nil _).nodup_visits scope placed ledger acts, ?_⟩
  · have reached : p.Placed (Scope.of tree) tree := placed.after scope acts
    have same : p.id = id := id_after _ acts
    obtain ⟨reports, finished⟩ := reached.onEvent_ends scope e
    refine ⟨same ▸ reports, finished, fun x mem => ?_⟩
    obtain ⟨⟨n, leads, waits⟩, held⟩ := reached.held_of_mem_ends mem
    refine ⟨n, leads.node?, waits, fun success => ?_⟩
    obtain ⟨c, before, cursor, captures, verdict⟩ := held success
    rw [cursor] at waits
    cases waits
    exact ⟨c, before, rfl, captures, verdict⟩
  · rintro sink inner rfl only board found events done
    have results := placed.resultsTo_root_onEvents scope only events
    rw [SinkBoard.get?_deliver, found, Option.map_some]
    refine congrArg some ((Sink.foldl_push_collecting [] _).trans ?_)
    exact congrArg Sink.collecting results.symm

/-- Two groups of a recorded expression, each of which leaves a recorded node before it waits for a
last event; the filter around them stops with an error in the end. -/
theorem reported_once_two_hosts :
    let stops : Condition := .onEvent fun event =>
      if event.message = "stop" then .error (.evaluation "stopped") else .pure true
    let inner : Expr := .filter stops [.groupBy ⟨0, "host", .property "host"⟩
      (.sequence [.record 1 (.event .always), .event (.propertyEquals "n" .null)])]
    let event (host message : String) : Record :=
      ⟨"", "", message, .epoch, [.string "host" host]⟩
    let p := start 1 none (.record 0 inner) .empty
    let events := [event "a" "", event "b" "", event "a" "stop"]
    let board : SinkBoard := [(0, .collecting []), (1, .collecting [])]
    (Expr.record 0 inner).defect? = none ∧ (Expr.record 0 inner).Coherent ∧ 0 ∉ inner.sinks ∧
      (visits (.record 0 inner) p (events.map .event)).Nodup ∧
      (board.deliver (p.onEvents events).2.reports).get? 0 =
        some (.collecting ((p.onEvents events).1.finished.map (Finish.recorded 1))) := by
  intro stops inner event p events board
  have coherent : (Expr.record 0 inner).Coherent := by
    intro j hj k hk _
    rw [List.mem_singleton.1 hj, List.mem_singleton.1 hk]
  have only : 0 ∉ inner.sinks := by decide
  obtain ⟨-, nodup, collected⟩ :=
    reported_once (by decide) coherent 1 none .empty (events.map .event)
  exact ⟨by decide, coherent, only, nodup, collected 0 inner rfl only board rfl events⟩

end Path

end TracePattern
