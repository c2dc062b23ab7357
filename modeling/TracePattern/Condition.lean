import TracePattern.Answer
import TracePattern.Captures.Basic
import TracePattern.Record
import TracePattern.Text

/-!
# Conditions

A condition tests an event.  When the test holds, the value that was compared or derived is captured
under the condition's key, if it has one, and then its own capture runs, if it has one.

* `Test`: the kinds of tests;
* `Condition`, with a builder for each kind and for each addition;
* `Condition.evaluate`: the answer, and the captured values, which keep what was captured before a
  stop;
* `Condition.source`: the condition as pseudo-code;
* `require`, `requireString`: look-ups for accessors.
-/

namespace TracePattern

/-- A value derived from an event. -/
abbrev Accessor := Record → Answer Value

/-- A test of an event and the values captured so far. -/
abbrev Predicate := Record → Captures → Answer Bool

/-- A comparison of an observed value with an expected one. -/
abbrev Equality := Value → Value → Answer Bool

/-- A change of the captured values. The changes made before a stop are kept. -/
abbrev Capture := Record → Captures → Captures × Answer Unit

/-- The test a condition performs. -/
inductive Test
  | predicate (holds : Predicate)
  /-- The first property of a name equals a value. A missing property does not. -/
  | propertyEquals (property : String) (expected : Value)
  | derivedEquals (derive : Accessor) (expected : Value)
  /-- Always holds. What the accessor derives is only there to be captured. -/
  | always (derive : Option Accessor)

/-- A test with what is captured when it holds. -/
structure Condition where
  test : Test
  equality : Option Equality
  captureKey : Option String
  capture : Option Capture
  label : Option String

namespace Condition

/-- The condition that performs a test and captures nothing. -/
def ofTest (test : Test) : Condition := ⟨test, none, none, none, none⟩

/-- A predicate over the event and the captured values. -/
def predicate (holds : Predicate) : Condition := ofTest (.predicate holds)

/-- A predicate over the event alone. -/
def onEvent (holds : Record → Answer Bool) : Condition := predicate fun event _ => holds event

/-- The first property of a name equals a value. -/
def propertyEquals (property : String) (expected : Value) : Condition :=
  ofTest (.propertyEquals property expected)

/-- A derived value equals a value. -/
def derivedEquals (derive : Accessor) (expected : Value) : Condition :=
  ofTest (.derivedEquals derive expected)

/-- Always holds. -/
def always : Condition := ofTest (.always none)

/-- The condition captures its value under a key. -/
def capturing (c : Condition) (key : String) : Condition := { c with captureKey := some key }

/-- The condition runs a capture when it holds. -/
def andThen (c : Condition) (capture : Capture) : Condition := { c with capture := some capture }

/-- The condition compares values in another way. -/
def comparing (c : Condition) (equality : Equality) : Condition := { c with equality := some equality }

/-- The condition shows under a name. -/
def labeled (c : Condition) (label : String) : Condition := { c with label := some label }

/-- Always holds and captures what an accessor derives. -/
def tap (derive : Accessor) (key : String) : Condition :=
  (ofTest (.always (some derive))).capturing key

/-- Always holds and captures a property, or null if it is missing. -/
def tapProperty (property key : String) : Condition :=
  (tap (fun event => .pure ((event.get? property).getD .null)) key).labeled
    ("tap(" ++ property ++ ")")

/-! ### Evaluation -/

/-- Comparison of an observed value with the expected one. -/
def compare (c : Condition) (observed expected : Value) : Answer Bool :=
  match c.equality with
  | some equality => equality observed expected
  | none => .pure (observed.equal expected)

/-- Whether the test holds, and the value to capture. A value that only matters for the capture
is not derived without a key. -/
def probe (c : Condition) (event : Record) (captures : Captures) : Answer (Bool × Option Value) :=
  match c.test with
  | .predicate holds => (holds event captures).bind fun b => .pure (b, none)
  | .propertyEquals property expected =>
    match event.get? property with
    | some observed => (c.compare observed expected).bind fun b => .pure (b, some observed)
    | none => .pure (false, none)
  | .derivedEquals derive expected =>
    (derive event).bind fun observed =>
      (c.compare observed expected).bind fun b => .pure (b, some observed)
  | .always derive =>
    match derive, c.captureKey with
    | some derive, some _ => (derive event).bind fun v => .pure (true, some v)
    | _, _ => .pure (true, none)

/-- The captured values with the value of a test that held. -/
def keep (c : Condition) (value : Option Value) (captures : Captures) : Captures :=
  match c.captureKey, value with
  | some key, some v => captures.insert key v
  | _, _ => captures

/-- The captured values after evaluation, and whether the condition held. -/
def evaluate (c : Condition) (event : Record) (captures : Captures) : Captures × Answer Bool :=
  let probed := c.probe event captures
  match probed.result with
  | .error s => (captures, ⟨probed.marks, .error s⟩)
  | .ok (false, _) => (captures, ⟨probed.marks, .ok false⟩)
  | .ok (true, value) =>
    let kept := c.keep value captures
    match c.capture with
    | none => (kept, ⟨probed.marks, .ok true⟩)
    | some capture =>
      let done := capture event kept
      (done.1, ⟨probed.marks ++ done.2.marks, done.2.result.map fun _ => true⟩)

/-! ### Printing -/

/-- The test as pseudo-code. -/
def testSource (c : Condition) : String :=
  match c.label, c.test with
  | some label, _ => label
  | none, .predicate _ => "<predicate>"
  | none, .propertyEquals property expected => property ++ " == " ++ expected.display
  | none, .derivedEquals _ expected => "<derived> == " ++ expected.display
  | none, .always _ => "true"

/-- The condition as pseudo-code. -/
def source (c : Condition) : String :=
  match c.captureKey with
  | some key => c.testSource ++ " as " ++ key
  | none => c.testSource

/-- The condition in diagnostic output. -/
def diagnostic (c : Condition) : String :=
  let flag (b : Bool) : String := if b then "true" else "false"
  "Condition \x7b source: " ++ Text.literal c.source ++
    ", custom_equality: " ++ flag c.equality.isSome ++
    ", custom_capture: " ++ flag c.capture.isSome ++ " \x7d"

end Condition

/-! ### Look-ups for accessors -/

/-- The first property of a name, which must be there. -/
def require (event : Record) (name : String) : Answer Value :=
  match event.get? name with
  | some v => .pure v
  | none => .error (.missingProperty name)

/-- The first property of a name, which must be there and be a string. -/
def requireString (event : Record) (name : String) : Answer String :=
  (require event name).bind fun v =>
    match v.string? with
    | some s => .pure s
    | none =>
      .error (.typeMismatch ("property '" ++ name ++ "' is " ++ v.tag.name ++ ", not string"))

end TracePattern
