import TracePattern.Branch.Step
import TracePattern.Captures.Json
import TracePattern.Json.Printer

/-!
# Paths

A path matches one expression against a stream of events.  It holds the branches that run, in the
order of their numbers, and those that have ended, in the order in which they ended.

* `Path.start`, `Path.onEvent`, `Path.close`;
* `Path.waiting`, `Path.findRunning?`, `Path.finished?`, `Path.findFinished?`: what a path shows;
* `Path.report`, `Path.describe`: all of it as JSON.
-/

namespace TracePattern

/-- One expression and the branches that match it. -/
structure Path where
  id : Nat
  name : Option String
  tree : Expr
  running : List Branch
  finished : List Finish
  nextId : Nat
  stats : Stats
  closed : Bool

/-- What an event causes outside of the paths. -/
structure Output where
  reports : List Report
  notes : List Note

namespace Output

def none : Output := ⟨[], []⟩

def append (a b : Output) : Output := ⟨a.reports ++ b.reports, a.notes ++ b.notes⟩

instance : Append Output := ⟨append⟩

/-- The marks of user code. -/
def marks (o : Output) : List String :=
  o.notes.filterMap fun
    | .marked name => some name
    | _ => Option.none

end Output

namespace Path

/-- A path at its start. Its first branches run before any event. -/
def start (id : Nat) (name : Option String) (tree : Expr) (initial : Captures) : Path :=
  let branches := Branch.launch initial [] tree.starts 0
  { id, name, tree
    running := branches
    finished := []
    nextId := branches.length
    stats := ⟨0, branches.length, 0, 0⟩
    closed := false }

/-- The turns of all running branches, one after another in the order of their numbers. -/
def turn (p : Path) (event : Record) : Effects × Tally :=
  runAll (p.running.map (step p.id event 0)) ⟨p.nextId, 0, []⟩

/-- The number of results with an outcome. -/
def count (outcome : Outcome) (results : List Finish) : Nat :=
  (results.filter fun f => f.outcome = outcome).length

/-- The path after an event. A closed path takes no events. -/
def onEvent (p : Path) (event : Record) : Path × Output :=
  if p.closed then (p, .none)
  else
    let done := p.turn event
    let effects := done.1
    ({ p with
        running := effects.running.mergeSort fun a b => a.id ≤ b.id
        finished := p.finished ++ effects.finished
        nextId := done.2.nextId
        stats :=
          { eventsApplied := p.stats.eventsApplied + 1
            branchesSpawned := p.stats.branchesSpawned + done.2.spawned
            succeeded := p.stats.succeeded + count .successful effects.finished
            failed := p.stats.failed + count .failed effects.finished } },
      ⟨effects.reports, effects.notes⟩)

/-- The path after some events. -/
def onEvents (p : Path) (events : List Record) : Path × Output :=
  events.foldl (fun (p, out) event =>
    let next := p.onEvent event
    (next.1, out ++ next.2)) (p, .none)

/-- The path takes no more events. -/
def close (p : Path) : Path := { p with closed := true }

/-! ### Queries -/

/-- The running branches that are shown, in the order of their numbers. -/
def shown (p : Path) : List Branch := p.running.filter fun b => !b.isRouter

/-- The running branches as users see them. -/
def waiting (p : Path) : List Waiting := p.shown.map Branch.waiting

/-- The first running branch that captured a value. -/
def findRunning? (p : Path) (key : String) (value : Value) : Option Waiting :=
  (p.shown.find? fun b => b.captures.holds key value).map Branch.waiting

/-- The first ended branch that is as a query says. -/
def finished? (p : Path) (q : FinishQuery) : Option Finish := p.finished.find? (Finish.fits q)

/-- The first ended branch that captured a value. -/
def findFinished? (p : Path) (key : String) (value : Value) : Option Finish :=
  p.finished.find? fun f => f.captures.holds key value

/-! ### Printing -/

/-- The state of the path. -/
def report (p : Path) : Json :=
  .object [("id", .ofNat p.id), ("name", .ofString? p.name), ("tree", .string p.tree.source),
    ("stats", p.stats.toJson), ("running", .array (p.waiting.map Waiting.toJson)),
    ("finished", .array (p.finished.map Finish.toJson))]

/-- The state of the path, for messages. -/
def describe (p : Path) : String := p.report.pretty

/-- The path in diagnostic output. -/
def diagnostic (p : Path) : String :=
  let name := match p.name with
    | some name => "Some(" ++ Text.literal name ++ ")"
    | none => "None"
  "ValidatorPath \x7b id: " ++ Integer.decimal p.id ++ ", name: " ++ name ++ ", tree: " ++
    p.tree.source ++ ", .. \x7d"

end Path

end TracePattern
