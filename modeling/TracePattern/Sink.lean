import TracePattern.Outcome

/-!
# Sinks

A sink receives the results that recorded expressions report.

* `Sink`: a collection, a channel whose receiver may be gone, or a sink that crashes on every result;
* `Sink.push`, `Sink.drain`, `Sink.results`;
* `SinkBoard`: the sinks by their numbers, and the delivery of reports.
-/

namespace TracePattern

/-- A receiver of results. -/
inductive Sink
  /-- Keeps every result. -/
  | collecting (results : List Recorded)
  /-- Queues results until its receiver takes them. Without a receiver results are lost. -/
  | channel (connected : Bool) (queued : List Recorded)
  /-- Crashes on every result, which is lost. -/
  | crashing

namespace Sink

/-- The sink after a result. -/
def push (r : Recorded) : Sink → Sink
  | .collecting results => .collecting (results ++ [r])
  | .channel true queued => .channel true (queued ++ [r])
  | .channel false queued => .channel false queued
  | .crashing => .crashing

/-- What the sink holds, oldest first. -/
def results : Sink → List Recorded
  | .collecting results => results
  | .channel _ queued => queued
  | .crashing => []

/-- What the sink holds, by path; the results of one path stay in their order. -/
def resultsByPath (s : Sink) : List Recorded := s.results.mergeSort fun a b => a.path ≤ b.path

/-- The sink without what it holds. -/
def drain : Sink → Sink
  | .collecting _ => .collecting []
  | .channel connected _ => .channel connected []
  | .crashing => .crashing

/-- The receiver of a channel goes away. -/
def disconnect : Sink → Sink
  | .channel _ _ => .channel false []
  | other => other

end Sink

/-- Sinks by their numbers. -/
abbrev SinkBoard := List (Nat × Sink)

namespace SinkBoard

/-- The sink of a number. -/
def get? (board : SinkBoard) (sink : Nat) : Option Sink :=
  (board.find? fun s => s.1 = sink).map Prod.snd

/-- Changes the sink of a number. -/
def update (board : SinkBoard) (sink : Nat) (f : Sink → Sink) : SinkBoard :=
  board.map fun s => if s.1 = sink then (s.1, f s.2) else s

/-- Delivers reports in their order. A report for an unknown sink is dropped. -/
def deliver (board : SinkBoard) (reports : List Report) : SinkBoard :=
  reports.foldl (fun board r => board.update r.sink (Sink.push r.result)) board

end SinkBoard

end TracePattern
