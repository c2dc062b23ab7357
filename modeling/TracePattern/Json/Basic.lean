import TracePattern.Double.Basic

/-!
# JSON values

* `Json`: a value, in which whole numbers and floating-point numbers are told apart, and an object
  keeps its fields as they came; what is well formed but has no value has a place of its own;
* `Json.Number`: a number, by the form of its literal;
* `Json.normal`: the value as a set of fields, each key once and the keys in order.
-/

namespace TracePattern

/-- A number of a JSON text. -/
inductive Json.Number
  | whole (n : Int)
  | float (d : Double)
  deriving DecidableEq, Repr

/-- A JSON value. -/
inductive Json
  | null
  | bool (b : Bool)
  | number (n : Json.Number)
  | string (s : String)
  | array (items : List Json)
  | object (fields : List (String × Json))
  /-- What a text spells well but cannot mean: a number that is too large, a string with half a
  surrogate pair, or an object with such a string for a key. It may stand only where nothing reads
  it, as in a field that no structure knows. -/
  | unreadable
  deriving Repr

namespace Json

instance : Inhabited Json := ⟨.null⟩

/-- A whole number. -/
def ofInt (n : Int) : Json := .number (.whole n)

/-- A whole number. -/
def ofNat (n : Nat) : Json := .number (.whole n)

/-- A floating-point number; one that is not finite has no JSON text and becomes `null`. -/
def ofDouble (d : Double) : Json :=
  match d.shape with
  | .finite .. => .number (.float d)
  | _ => .null

/-- The text, or `null` for none. -/
def ofString? : Option String → Json
  | some s => .string s
  | none => .null

/-- The last field of an object with the given key. -/
def get? (key : String) : Json → Option Json
  | .object fields => (fields.reverse.find? fun f => f.1 = key).map Prod.snd
  | _ => none

/-- The text of a string value. -/
def string? : Json → Option String
  | .string s => some s
  | _ => none

/-- The items of an array. -/
def array? : Json → Option (List Json)
  | .array items => some items
  | _ => none

/-- The value of a boolean. -/
def bool? : Json → Option Bool
  | .bool b => some b
  | _ => none

/-- The value of a whole number. -/
def int? : Json → Option Int
  | .number (.whole n) => some n
  | _ => none

/-! ### Normal form -/

/-- Puts a field in its place among fields with ascending keys. A field of the same key that is
there already stays, so that of fields put in from the last to the first the last one counts. -/
def insertField (f : String × Json) : List (String × Json) → List (String × Json)
  | [] => [f]
  | g :: rest =>
    if f.1 = g.1 then g :: rest
    else if f.1 < g.1 then f :: g :: rest
    else g :: insertField f rest

mutual
/-- The value with the fields of every object in ascending order of their keys; of several fields
with one key the last one counts. -/
def normal : Json → Json
  | .array items => .array (normalItems items)
  | .object fields => .object (normalFields fields)
  | other => other

/-- The items in normal form. -/
def normalItems : List Json → List Json
  | [] => []
  | j :: rest => j.normal :: normalItems rest

/-- The fields in normal form. -/
def normalFields : List (String × Json) → List (String × Json)
  | [] => []
  | (key, j) :: rest => insertField (key, j.normal) (normalFields rest)
end

end Json

end TracePattern
