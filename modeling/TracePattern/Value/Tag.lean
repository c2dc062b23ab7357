/-!
# Tags and severities

* `Tag`: the kinds of values, with their names;
* `Severity`: the ranks of log events, in order.
-/

namespace TracePattern

/-- The kind of a value. -/
inductive Tag
  | null
  | string
  | integer
  | boolean
  | symbol
  | severity
  | double
  | timestamp
  | zoned
  | uuid
  | foreign
  deriving DecidableEq, Repr

namespace Tag

/-- All tags in the order of their declaration. -/
def all : List Tag :=
  [.null, .string, .integer, .boolean, .symbol, .severity, .double, .timestamp, .zoned, .uuid,
    .foreign]

/-- The stable name of a tag. -/
def name : Tag → String
  | .null => "null"
  | .string => "string"
  | .integer => "integer"
  | .boolean => "boolean"
  | .symbol => "enum"
  | .severity => "severity_level"
  | .double => "double"
  | .timestamp => "timestamp"
  | .zoned => "timestamp_with_offset"
  | .uuid => "uuid"
  | .foreign => "opaque"

/-- The tag of a name. -/
def ofName? (s : String) : Option Tag := all.find? fun t => t.name = s

@[simp] theorem ofName?_name (t : Tag) : ofName? t.name = some t := by cases t <;> decide

end Tag

/-- The rank of a log event, from the least to the most severe. `none` is above all and marks an
event that should never be emitted. -/
inductive Severity
  | trace
  | debug
  | information
  | warning
  | error
  | critical
  | none
  deriving DecidableEq, Repr

namespace Severity

/-- All severities in ascending order. -/
def all : List Severity := [.trace, .debug, .information, .warning, .error, .critical, .none]

/-- The name of a severity. -/
def name : Severity → String
  | .trace => "Trace"
  | .debug => "Debug"
  | .information => "Information"
  | .warning => "Warning"
  | .error => "Error"
  | .critical => "Critical"
  | .none => "None"

/-- The severity of a name. -/
def ofName? (s : String) : Option Severity := all.find? fun v => v.name = s

@[simp] theorem ofName?_name (v : Severity) : ofName? v.name = some v := by cases v <;> decide

/-- The place in the order. -/
def rank : Severity → Nat
  | .trace => 0
  | .debug => 1
  | .information => 2
  | .warning => 3
  | .error => 4
  | .critical => 5
  | .none => 6

/-- The order of two severities. -/
def compare (a b : Severity) : Ordering := Ord.compare a.rank b.rank

/-- The more severe of two. -/
def max (a b : Severity) : Severity := if a.rank ≤ b.rank then b else a

end Severity

end TracePattern
