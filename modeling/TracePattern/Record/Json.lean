import TracePattern.Record
import TracePattern.Value.Json

/-!
# Records in JSON

* `Property.toJson`, `Property.ofJson?`: a structure of name and value;
* `Record.toJson`, `Record.ofJson?`: a structure of identity, timestamp and properties.
-/

namespace TracePattern

namespace Property

def toJson (p : Property) : Json := .object [("name", .string p.name), ("value", p.value.toJson)]

/-- A property from its two fields, which must both be there. -/
def ofJson? (j : Json) : Option Property :=
  match j.fields? ["name", "value"] with
  | some [some (.string name), some value] => (Value.ofJson? value).map fun v => ⟨name, v⟩
  | _ => none

end Property

namespace Record

def toJson (r : Record) : Json :=
  .object [("provider", .string r.provider), ("scope", .string r.scope),
    ("message", .string r.message), ("timestamp", .string r.timestamp.text),
    ("properties", .array (r.properties.map Property.toJson))]

/-- A record from its five fields, which must all be there. -/
def ofJson? (j : Json) : Option Record :=
  match j.fields? ["provider", "scope", "message", "timestamp", "properties"] with
  | some [some (.string provider), some (.string scope), some (.string message), some timestamp,
      some (.array items)] => do
    let timestamp ← Value.readInstant? timestamp
    let properties ← items.mapM Property.ofJson?
    return ⟨provider, scope, message, timestamp.instant, properties⟩
  | _ => none

end Record

end TracePattern
