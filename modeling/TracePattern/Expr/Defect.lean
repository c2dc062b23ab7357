import TracePattern.Expr.Basic
import TracePattern.Digits

/-!
# Malformed expressions

An expression can be run if it is not nested too deeply, has no empty list of children and no empty
name.  The first defect in the order of reading is reported.

* `Defect`: a reason and a location, with their wording;
* `Expr.defect?`: the first defect, if there is one.
-/

namespace TracePattern

/-- One step of the way from the root to a node. -/
inductive Segment
  | node (kind : String)
  | child (index : Nat)
  deriving DecidableEq, Repr

/-- Why an expression cannot be run. -/
inductive Reason
  | tooDeep
  | emptyCaptureKey
  | emptyMatch
  | emptySequence
  | emptyFilter
  | emptyKeyName
  | emptyKeyProperty
  deriving DecidableEq, Repr

/-- A reason and where it was found. -/
structure Defect where
  location : List Segment
  reason : Reason
  deriving DecidableEq, Repr

/-- The greatest number of nodes above a node. -/
def maxDepth : Nat := 256

/-- The wording of a reason. -/
def Reason.text : Reason → String
  | .tooDeep => "nesting exceeds " ++ Integer.decimal maxDepth ++ " levels"
  | .emptyCaptureKey => "empty capture key"
  | .emptyMatch => "match has an empty child list"
  | .emptySequence => "sequence has no children"
  | .emptyFilter => "filter has no children"
  | .emptyKeyName => "empty group key name"
  | .emptyKeyProperty => "empty group key property"

/-- A step as it is written. -/
def Segment.text : Segment → String
  | .node kind => "." ++ kind
  | .child index => "[" ++ Integer.decimal index ++ "]"

/-- The location as it is written. -/
def Defect.place (d : Defect) : String := d.location.foldl (fun s seg => s ++ seg.text) "root"

/-- The wording of a defect of which location and reason are written already. -/
def Defect.wording (place reason : String) : String :=
  "malformed expression tree at " ++ place ++ ": " ++ reason

/-- The wording of a defect. -/
def Defect.message (d : Defect) : String := wording d.place d.reason.text

namespace Expr

/-- The defect of a node itself, without its depth and its children. -/
def ownReason? : Expr → Option Reason
  | .event condition => if condition.captureKey = some "" then some .emptyCaptureKey else none
  | .eventThen condition children =>
    if condition.captureKey = some "" then some .emptyCaptureKey
    else if children.isEmpty then some .emptyMatch
    else none
  | .sequence children => if children.isEmpty then some .emptySequence else none
  | .filter condition children =>
    if condition.captureKey = some "" then some .emptyCaptureKey
    else if children.isEmpty then some .emptyFilter
    else none
  | .groupBy key _ =>
    if key.name = "" then some .emptyKeyName
    else match key.source with
      | .property "" => some .emptyKeyProperty
      | _ => none
  | .record _ _ => none

mutual
/-- The first defect of a node and what is below it. The depth comes before all else, and its
location does not name the node. -/
def defectAt? (location : List Segment) (depth : Nat) (e : Expr) : Option Defect :=
  if maxDepth < depth then some ⟨location, .tooDeep⟩
  else
    let here := location ++ [.node e.kind]
    match e.ownReason? with
    | some reason => some ⟨here, reason⟩
    | none =>
      match e with
      | .event _ => none
      | .eventThen _ children => defectIn? here depth 0 children
      | .sequence children => defectIn? here depth 0 children
      | .filter _ children => defectIn? here depth 0 children
      | .groupBy _ template => defectAt? here (depth + 1) template
      | .record _ inner => defectAt? here (depth + 1) inner

/-- The first defect of children from the given index on. -/
def defectIn? (here : List Segment) (depth index : Nat) : List Expr → Option Defect
  | [] => none
  | e :: rest =>
    match defectAt? (here ++ [.child index]) (depth + 1) e with
    | some d => some d
    | none => defectIn? here depth (index + 1) rest
end

/-- The first defect of an expression. -/
def defect? (e : Expr) : Option Defect := defectAt? [] 0 e

end Expr

end TracePattern
