import TracePattern.Answer
import TracePattern.Captures.Basic

/-!
# Results of branches

* `Outcome`: how far a branch came;
* `Waiting`: a branch that still runs, as its users see it;
* `Finish`: a branch that has ended, and `FinishQuery`: what one may look for among them;
* `Recorded` and `Report`: a result as a sink gets it, and the sink it goes to;
* `Stats`: the counters of a path.
-/

namespace TracePattern

/-- How far a branch came. It fails only through an error of user code. -/
inductive Outcome
  | running
  | successful
  | failed
  deriving DecidableEq, Repr

namespace Outcome

def name : Outcome → String
  | .running => "running"
  | .successful => "successful"
  | .failed => "failed"

/-- The branch has ended. -/
def isTerminal (o : Outcome) : Bool := o ≠ .running

end Outcome

/-- A running branch: its number, where in the expression it waits, and what it captured. -/
structure Waiting where
  id : Nat
  position : String
  captures : Captures
  deriving DecidableEq

/-- An ended branch, with the error if it failed. -/
structure Finish where
  id : Nat
  outcome : Outcome
  captures : Captures
  position : String
  error : Option EvalError
  deriving DecidableEq

/-- The branch ended with success. -/
def Finish.isSuccessful (f : Finish) : Bool := f.outcome = .successful

/-- What an ended branch should be like. Only what is given matters. -/
structure FinishQuery where
  /-- The name of its outcome. -/
  outcome : Option String
  id : Option Nat
  /-- A key and the value captured under it. -/
  captured : Option (String × Value)

/-- The branch is as the query says. -/
def Finish.fits (q : FinishQuery) (f : Finish) : Bool :=
  q.outcome.all (fun name => f.outcome.name = name) && q.id.all (fun id => f.id = id) &&
    q.captured.all fun c => f.captures.holds c.1 c.2

/-- The result of a branch of a path, as a sink gets it. -/
structure Recorded where
  path : Nat
  branch : Nat
  outcome : Outcome
  captures : Captures
  error : Option EvalError
  deriving DecidableEq

/-- A result on its way to a sink. -/
structure Report where
  sink : Nat
  result : Recorded
  deriving DecidableEq

/-- The counters of a path. -/
structure Stats where
  eventsApplied : Nat
  branchesSpawned : Nat
  succeeded : Nat
  failed : Nat
  deriving DecidableEq, Repr

end TracePattern
