import TracePattern.Outcome
import TracePattern.Value.Json

/-!
# Captured values and results in JSON

* `Captures.toJson`, `Captures.ofJson?`: a structure with the entries as one object;
* `Waiting.toJson`, `Finish.toJson`: branches with what they captured; `Stats.toJson`: counters.
-/

namespace TracePattern

namespace Captures

def toJson (s : Captures) : Json :=
  .object [("entries", .object (s.entries.map fun e => (e.1, e.2.toJson)))]

/-- Captured values from their entries. Of several entries with one key the last one counts. -/
def ofJson? (j : Json) : Option Captures :=
  match j.fields? ["entries"] with
  | some [some (.object fields)] =>
    (fields.mapM fun f => (Value.ofJson? f.2).map fun v => (f.1, v)).map ofList
  | _ => none

end Captures

def Waiting.toJson (w : Waiting) : Json :=
  .object [("id", .ofNat w.id), ("position", .string w.position), ("state", w.captures.toJson)]

def Finish.toJson (f : Finish) : Json :=
  .object [("id", .ofNat f.id), ("outcome", .string f.outcome.name), ("state", f.captures.toJson),
    ("position", .string f.position), ("error", .ofString? (f.error.map EvalError.message))]

def Stats.toJson (s : Stats) : Json :=
  .object [("events_applied", .ofNat s.eventsApplied),
    ("branches_spawned", .ofNat s.branchesSpawned),
    ("succeeded", .ofNat s.succeeded), ("failed", .ofNat s.failed)]

end TracePattern
