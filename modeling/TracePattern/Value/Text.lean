import TracePattern.Double.Text
import TracePattern.Digits
import TracePattern.Time.Reader
import TracePattern.Value.Basic

/-!
# The text of values

* `Value.text`: a value without its kind;
* `Value.parse`: the value of a text of a given kind;
* `Value.display`: a value as it appears in sources and positions;
* `DataError`: why data is not accepted.
-/

namespace TracePattern

/-- Why data is not accepted. -/
inductive DataError
  | unknownTag (name : String)
  | invalidValue (tag : Tag) (text : String)
  | malformedWire (reason : String)
  deriving DecidableEq, Repr

/-- The wording of a data error. -/
def DataError.message : DataError → String
  | .unknownTag name => "unknown property tag: " ++ name
  | .invalidValue tag text => "invalid " ++ tag.name ++ " value: " ++ text
  | .malformedWire reason => "malformed wire entry: " ++ reason

/-- The tag of a name. -/
def Tag.parse (s : String) : Except DataError Tag :=
  match Tag.ofName? s with
  | some t => .ok t
  | none => .error (.unknownTag s)

namespace Value

/-- The value without its kind. -/
def text : Value → String
  | .null => ""
  | .string s => s
  | .integer n => Integer.text n
  | .boolean b => if b then "true" else "false"
  | .symbol s => s.text
  | .severity v => v.name
  | .double d => d.text
  | .timestamp t => t.text
  | .zoned t => t.text false
  | .uuid u => u.text
  | .foreign s => s

/-- The truth value of its name. -/
def readBoolean? (s : String) : Option Bool :=
  if s = "true" then some true else if s = "false" then some false else none

/-- The value of a text of the given kind, if it is one. Any text will do for null. -/
def parse? (tag : Tag) (s : String) : Option Value :=
  match tag with
  | .null => some .null
  | .string => some (.string s)
  | .integer => (Integer.read? s).map .integer
  | .boolean => (readBoolean? s).map .boolean
  | .symbol => (Symbol.parse? s).map .symbol
  | .severity => (Severity.ofName? s).map .severity
  | .double => (Double.read? s).map .double
  | .timestamp => (Zoned.read? s).toOption.map fun z => .timestamp z.instant
  | .zoned => (Zoned.read? s).toOption.map .zoned
  | .uuid => (Uuid.read? s).map .uuid
  | .foreign => some (.foreign s)

/-- The value of a text of the given kind. -/
def parse (tag : Tag) (s : String) : Except DataError Value :=
  match parse? tag s with
  | some v => .ok v
  | none => .error (.invalidValue tag s)

/-- A value as it appears in sources and positions: strings between quotes, without escapes. -/
def display : Value → String
  | .null => "null"
  | .string s => "\"" ++ s ++ "\""
  | .foreign s => "opaque(" ++ s ++ ")"
  | .symbol s => s.display
  | other => other.text

end Value

end TracePattern
