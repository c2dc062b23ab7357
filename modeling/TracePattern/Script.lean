import TracePattern.Condition

/-!
# Scripted conditions

Small languages for accessors, predicates, captures and comparisons, for conditions that are
written down as data.

* `Script.Term`, `Script.Formula`, `Script.Update`, `Script.Comparison`: the languages;
* `Term.eval`, `Formula.eval`, `runAll`, `Comparison.eval`: their meanings as user code.
-/

namespace TracePattern.Script

/-! ### Terms -/

/-- A part of an event apart from its properties, or the number of these. -/
inductive Field
  | provider
  | scope
  | message
  | timestamp
  | propertyCount
  deriving DecidableEq, Repr

/-- The field of a name; every other name stands for the number of properties. -/
def Field.ofName (s : String) : Field :=
  if s = "provider" then .provider
  else if s = "scope" then .scope
  else if s = "message" then .message
  else if s = "timestamp" then .timestamp
  else .propertyCount

/-- The value of a field. -/
def Field.eval (event : Record) : Field → Value
  | .provider => .string event.provider
  | .scope => .string event.scope
  | .message => .string event.message
  | .timestamp => .timestamp event.timestamp
  | .propertyCount => .integer (Int64.ofNat event.properties.length)

/-- A value derived from an event. -/
inductive Term
  /-- A property that must be there. -/
  | required (property : String)
  /-- A property that must be there and be a string. -/
  | requiredString (property : String)
  /-- A property, or null if it is missing. -/
  | orNull (property : String)
  /-- The number of bytes of a string property. -/
  | byteLength (property : String)
  /-- The text of a property as a foreign value. -/
  | foreign (property : String)
  | field (f : Field)
  | constant (v : Value)
  /-- Leaves a mark first. -/
  | marked (name : String) (t : Term)
  | stops (s : Stop)

/-- The value of a term. -/
def Term.eval : Term → Accessor
  | .required property, event => require event property
  | .requiredString property, event => (requireString event property).bind fun s => .pure (.string s)
  | .orNull property, event => .pure ((event.get? property).getD .null)
  | .byteLength property, event =>
    (requireString event property).bind fun s => .pure (.integer (Int64.ofNat s.utf8ByteSize))
  | .foreign property, event => (require event property).bind fun v => .pure (.foreign v.text)
  | .field f, event => .pure (f.eval event)
  | .constant v, _ => .pure v
  | .marked name t, event => (Answer.mark name).bind fun _ => t.eval event
  | .stops s, _ => .stop s

/-! ### Formulas -/

/-- A statement about an event and the captured values. -/
inductive Formula
  | constant (b : Bool)
  | equals (t : Term) (v : Value)
  /-- The event has a property. -/
  | has (property : String)
  /-- The event has the property, and it equals what is captured under the key. -/
  | repeats (key property : String)
  /-- The value is captured under the key. -/
  | captured (key : String) (v : Value)
  /-- Something is captured under the key. -/
  | hasCaptured (key : String)
  | not (f : Formula)
  | all (fs : List Formula)
  | any (fs : List Formula)
  /-- Leaves a mark first. -/
  | marked (name : String) (f : Formula)
  | stops (s : Stop)

namespace Formula

/-- The event has the property, and it equals what is captured under the key. -/
def repeated (key property : String) (event : Record) (captures : Captures) : Bool :=
  (event.get? property).any fun v => captures.holds key v

mutual
/-- The truth of a formula. -/
def eval : Formula → Predicate
  | .constant b, _, _ => .pure b
  | .equals t v, event, _ => (t.eval event).bind fun observed => .pure (observed.equal v)
  | .has property, event, _ => .pure (event.get? property).isSome
  | .repeats key property, event, captures => .pure (repeated key property event captures)
  | .captured key v, _, captures => .pure (captures.holds key v)
  | .hasCaptured key, _, captures => .pure (captures.contains key)
  | .not f, event, captures => (f.eval event captures).bind fun b => .pure (!b)
  | .all fs, event, captures => evalAll fs event captures
  | .any fs, event, captures => evalAny fs event captures
  | .marked name f, event, captures => (Answer.mark name).bind fun _ => f.eval event captures
  | .stops s, _, _ => .stop s

/-- All formulas hold. The first that does not ends the evaluation. -/
def evalAll : List Formula → Predicate
  | [], _, _ => .pure true
  | f :: rest, event, captures =>
    (f.eval event captures).bind fun b => if b then evalAll rest event captures else .pure false

/-- Some formula holds. The first that does ends the evaluation. -/
def evalAny : List Formula → Predicate
  | [], _, _ => .pure false
  | f :: rest, event, captures =>
    (f.eval event captures).bind fun b => if b then .pure true else evalAny rest event captures
end

/-- The truth of a formula about an event alone. An error counts as false. -/
def alone (f : Formula) (event : Record) : Answer Bool :=
  let answer := f.eval event .empty
  match answer.result with
  | .error (.error _) => ⟨answer.marks, .ok false⟩
  | _ => answer

end Formula

/-! ### Updates -/

/-- A change of the captured values. -/
inductive Update
  | set (key : String) (v : Value)
  /-- Captures a property that must be there. -/
  | copy (property key : String)
  /-- Counts up from zero. The count wraps around at 64 bits. -/
  | increment (key : String)
  | mark (name : String)
  | stops (s : Stop)

/-- The captured values after an update. -/
def Update.eval : Update → Capture
  | .set key v, _, captures => (captures.insert key v, .pure ())
  | .copy property key, event, captures =>
    match event.get? property with
    | some v => (captures.insert key v, .pure ())
    | none => (captures, .error (.missingProperty property))
  | .increment key, _, captures =>
    let n := ((captures.get? key).bind Value.integer?).getD 0
    (captures.insert key (.integer (n + 1)), .pure ())
  | .mark name, _, captures => (captures, .mark name)
  | .stops s, _, captures => (captures, .stop s)

/-- Updates one after another, up to the first that stops. -/
def runAll : List Update → Capture
  | [], _, captures => (captures, .pure ())
  | u :: rest, event, captures =>
    let done := u.eval event captures
    match done.2.result with
    | .error s => (done.1, ⟨done.2.marks, .error s⟩)
    | .ok () =>
      let others := runAll rest event done.1
      (others.1, ⟨done.2.marks ++ others.2.marks, others.2.result⟩)

/-! ### Comparisons -/

/-- A way to compare an observed value with an expected one. -/
inductive Comparison
  /-- Both are strings that differ only in the case of ASCII letters. -/
  | caseless
  | sameText
  | sameTag
  /-- The text of the observed value starts with the text of the expected one. -/
  | startsWith
  | always
  | never
  | crashes
  deriving DecidableEq, Repr

/-- The result of a comparison. -/
def Comparison.eval : Comparison → Equality
  | .caseless, a, b =>
    match a.string?, b.string? with
    | some s, some t => .pure (s.toList.map Char.toLower = t.toList.map Char.toLower)
    | _, _ => .pure false
  | .sameText, a, b => .pure (a.text = b.text)
  | .sameTag, a, b => .pure (a.tag = b.tag)
  | .startsWith, a, b => .pure (b.text.toList.isPrefixOf a.text.toList)
  | .always, _, _ => .pure true
  | .never, _, _ => .pure false
  | .crashes, _, _ => .crash (some "equality panicked")

end TracePattern.Script
