import TracePattern.Json.Shape
import TracePattern.Value.Text

/-!
# Values in JSON

A value is a variant named for its kind, which carries the payload; instants and identifiers are
carried as their texts.

* `Value.toJson`, `Value.ofJson?`;
* the same for `Tag`, `Severity` and `Symbol`.
-/

namespace TracePattern

def Tag.toJson (t : Tag) : Json := .string t.name

def Tag.ofJson? (j : Json) : Option Tag := j.plainVariant?.bind Tag.ofName?

def Severity.toJson (v : Severity) : Json := .string v.name

def Severity.ofJson? (j : Json) : Option Severity := j.plainVariant?.bind Severity.ofName?

def Symbol.toJson (s : Symbol) : Json :=
  .object [("type_name", .string s.typeName), ("variant", .string s.variant)]

/-- A symbol from its two parts, which must both be there. -/
def Symbol.ofJson? (j : Json) : Option Symbol :=
  match j.fields? ["type_name", "variant"] with
  | some [some (.string typeName), some (.string variant)] => some ⟨typeName, variant⟩
  | _ => none

namespace Value

/-- The variant of a value. A local time with offset zero is carried with a `Z`. -/
def toJson : Value → Json
  | .null => .string "Null"
  | .string s => .object [("String", .string s)]
  | .integer n => .object [("Integer", .ofInt n.toInt)]
  | .boolean b => .object [("Boolean", .bool b)]
  | .symbol s => .object [("Enum", s.toJson)]
  | .severity v => .object [("Severity", v.toJson)]
  | .double d => .object [("Double", .ofDouble d)]
  | .timestamp t => .object [("Timestamp", .string t.text)]
  | .zoned t => .object [("TimestampWithOffset", .string (t.text true))]
  | .uuid u => .object [("Uuid", .string u.text)]
  | .foreign s => .object [("Opaque", .string s)]

/-- An instant from a text, which may have any offset. -/
def readInstant? (j : Json) : Option Zoned :=
  j.string?.bind fun s => (Zoned.readLoose? s).toOption

/-- The value of a variant with what it carries. -/
def ofVariant? (name : String) (content : Json) : Option Value :=
  match name with
  | "Null" => if content matches .null then some .null else none
  | "String" => content.string?.map .string
  | "Integer" => (content.int?.bind Integer.ofInt?).map .integer
  | "Boolean" => content.bool?.map .boolean
  | "Enum" => (Symbol.ofJson? content).map .symbol
  | "Severity" => (Severity.ofJson? content).map .severity
  | "Double" => content.double?.map .double
  | "Timestamp" => (readInstant? content).map fun z => .timestamp z.instant
  | "TimestampWithOffset" => (readInstant? content).map .zoned
  | "Uuid" => (content.string?.bind Uuid.read?).map .uuid
  | "Opaque" => content.string?.map .foreign
  | _ => none

/-- The value of a variant; only null carries nothing. -/
def ofJson? (j : Json) : Option Value :=
  match j.variant? with
  | some (name, none) => if name = "Null" then some .null else none
  | some (name, some content) => ofVariant? name content
  | none => none

end Value

end TracePattern
