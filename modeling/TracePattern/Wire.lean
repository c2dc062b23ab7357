import TracePattern.Json.Printer
import TracePattern.Record

/-!
# The wire form

A property travels as a triple of texts, its name, its tag and its value; a record as an object
with its identity, its timestamp and its triples in order.

* `Property.toWire`, `Property.ofWire`;
* `Record.toWire`, `Record.ofWire`.
-/

namespace TracePattern

/-- The triple of a property. -/
def Property.toWire (p : Property) : Json :=
  .array [.string p.name, .string p.value.tag.name, .string p.value.text]

/-- A text that must be a string. -/
def wireString (what : String) (j : Json) : Except DataError String :=
  match j with
  | .string s => .ok s
  | _ => .error (.malformedWire (what ++ " must be a string"))

/-- The property of a triple. -/
def Property.ofWire : Json → Except DataError Property
  | .array [name, tag, text] => do
    let name ← wireString "name" name
    let tag ← Tag.parse (← wireString "tag" tag)
    let value ← Value.parse tag (← wireString "value" text)
    return ⟨name, value⟩
  | .array items =>
    .error (.malformedWire ("expected 3 elements, got " ++ Integer.decimal items.length))
  | j => .error (.malformedWire ("expected array, got " ++ j.normal.compact))

namespace Record

/-- The object of a record. -/
def toWire (r : Record) : Json :=
  .object [("provider", .string r.provider), ("scope", .string r.scope),
    ("message", .string r.message), ("timestamp", .string r.timestamp.text),
    ("properties", .array (r.properties.map Property.toWire))]

/-- The string in a field that must be there. -/
def wireField (j : Json) (key : String) : Except DataError String :=
  match (j.get? key).bind Json.string? with
  | some s => .ok s
  | none => .error (.malformedWire ("missing string field '" ++ key ++ "'"))

/-- The timestamp of its text. -/
def wireTimestamp (s : String) : Except DataError Instant :=
  match Zoned.read? s with
  | .ok z => .ok z.instant
  | .error e => .error (.malformedWire ("bad timestamp: " ++ e.message))

/-- The record of an object. Its timestamp and its properties are read before its identity. -/
def ofWire (j : Json) : Except DataError Record := do
  let timestamp ← wireTimestamp (← wireField j "timestamp")
  let items ← match (j.get? "properties").bind Json.array? with
    | some items => .ok items
    | none => .error (.malformedWire "missing 'properties' array")
  let properties ← items.mapM Property.ofWire
  let provider ← wireField j "provider"
  let scope ← wireField j "scope"
  let message ← wireField j "message"
  return { provider, scope, message, timestamp, properties }

end Record

end TracePattern
