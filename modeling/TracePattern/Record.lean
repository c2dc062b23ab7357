import TracePattern.Value.Text

/-!
# Records

A record is one captured event: who produced it, when, and an ordered list of named values.  Names
may repeat; a look-up finds the first.

* `Property`, `Record`, `Record.empty`;
* `Record.get?`, `Record.push`;
* `Record.equal`: equality with the equality of values, under which a record with a foreign value
  equals nothing.
-/

namespace TracePattern

/-- A named value. -/
structure Property where
  name : String
  value : Value
  deriving DecidableEq

namespace Property

/-! Properties by the kind of their value. -/

def null (name : String) : Property := ⟨name, .null⟩
def string (name s : String) : Property := ⟨name, .string s⟩
def integer (name : String) (n : Int64) : Property := ⟨name, .integer n⟩
def boolean (name : String) (b : Bool) : Property := ⟨name, .boolean b⟩
def symbol (name typeName variant : String) : Property := ⟨name, .symbol ⟨typeName, variant⟩⟩
def severity (name : String) (v : Severity) : Property := ⟨name, .severity v⟩
def double (name : String) (d : Double) : Property := ⟨name, .double d⟩
def timestamp (name : String) (t : Instant) : Property := ⟨name, .timestamp t⟩
def zoned (name : String) (t : Zoned) : Property := ⟨name, .zoned t⟩
def uuid (name : String) (u : Uuid) : Property := ⟨name, .uuid u⟩

/-- A property whose value was not recognised, with a text of the value. -/
def foreign (name text : String) : Property := ⟨name, .foreign text⟩

/-- The property of a value, through the constructor for its kind. -/
def ofValue (name : String) : Value → Property
  | .null => null name
  | .string s => string name s
  | .integer n => integer name n
  | .boolean b => boolean name b
  | .symbol s => symbol name s.typeName s.variant
  | .severity v => severity name v
  | .double d => double name d
  | .timestamp t => timestamp name t
  | .zoned t => zoned name t
  | .uuid u => uuid name u
  | .foreign s => foreign name s

end Property

/-- Equality of properties. -/
def Property.equal (a b : Property) : Bool := a.name = b.name && a.value.equal b.value

/-- What a hash function is fed of a property. -/
def Property.digest (p : Property) : List Int := Value.textDigest p.name ++ p.value.digest

/-- One captured event. -/
structure Record where
  provider : String
  scope : String
  message : String
  timestamp : Instant
  properties : List Property
  deriving DecidableEq

namespace Record

/-- The record without content, at the first instant of 1970. -/
def empty : Record := ⟨"", "", "", .epoch, []⟩

instance : Inhabited Record := ⟨empty⟩

/-- The record with one more property at the end. -/
def push (r : Record) (p : Property) : Record := { r with properties := r.properties ++ [p] }

/-- The first property of a name. -/
def property? (r : Record) (name : String) : Option Property :=
  r.properties.find? fun p => p.name = name

/-- The value of the first property of a name. -/
def get? (r : Record) (name : String) : Option Value := (r.property? name).map Property.value

/-- Equality of lists of properties, in order. -/
def equalProperties : List Property → List Property → Bool
  | [], [] => true
  | p :: ps, q :: qs => p.equal q && equalProperties ps qs
  | _, _ => false

/-- Equality of records. -/
def equal (a b : Record) : Bool :=
  a.provider = b.provider && a.scope = b.scope && a.message = b.message &&
    a.timestamp = b.timestamp && equalProperties a.properties b.properties

end Record

end TracePattern
