import TracePattern.Double.Basic
import TracePattern.Time.Basic
import TracePattern.Uuid
import TracePattern.Value.Symbol
import TracePattern.Value.Tag

/-!
# Values

A value is a scalar of one of eleven kinds.  The kind `foreign` is for values of a shape that was
not recognised: it keeps a text of the value and equals nothing, not even itself.

* `Value` and `Value.tag`;
* `Value.equal`: the equality of values, which keeps kinds apart, compares floating-point numbers by
  their bits and local times by instant and offset;
* `Value.digest`: what a hash function is fed of a value.
-/

namespace TracePattern

/-- A typed scalar. -/
inductive Value
  | null
  | string (s : String)
  | integer (n : Int64)
  | boolean (b : Bool)
  | symbol (s : Symbol)
  | severity (v : Severity)
  | double (d : Double)
  | timestamp (t : Instant)
  | zoned (t : Zoned)
  | uuid (u : Uuid)
  | foreign (text : String)
  deriving DecidableEq

namespace Value

instance : Inhabited Value := ⟨.null⟩

/-- The kind of a value. -/
def tag : Value → Tag
  | .null => .null
  | .string _ => .string
  | .integer _ => .integer
  | .boolean _ => .boolean
  | .symbol _ => .symbol
  | .severity _ => .severity
  | .double _ => .double
  | .timestamp _ => .timestamp
  | .zoned _ => .zoned
  | .uuid _ => .uuid
  | .foreign _ => .foreign

/-- Equality of values. Foreign values equal nothing. -/
def equal (a b : Value) : Bool := a.tag ≠ .foreign && decide (a = b)

theorem equal_iff {a b : Value} : a.equal b = true ↔ a.tag ≠ .foreign ∧ a = b := by
  simp [equal]

/-! ### Access by kind -/

/-- The value is null. -/
def isNull : Value → Bool
  | .null => true
  | _ => false

def string? : Value → Option String
  | .string s => some s
  | _ => none

def integer? : Value → Option Int64
  | .integer n => some n
  | _ => none

def boolean? : Value → Option Bool
  | .boolean b => some b
  | _ => none

def symbol? : Value → Option Symbol
  | .symbol s => some s
  | _ => none

def severity? : Value → Option Severity
  | .severity v => some v
  | _ => none

def double? : Value → Option Double
  | .double d => some d
  | _ => none

def timestamp? : Value → Option Instant
  | .timestamp t => some t
  | _ => none

def zoned? : Value → Option Zoned
  | .zoned t => some t
  | _ => none

def uuid? : Value → Option Uuid
  | .uuid u => some u
  | _ => none

/-- The text of a foreign value. -/
def foreign? : Value → Option String
  | .foreign s => some s
  | _ => none

/-! ### Digests -/

/-- The words a hash function is fed of a text: its bytes and a byte that no text holds. -/
def textDigest (s : String) : List Int := s.toUTF8.toList.map (fun b => (b.toNat : Int)) ++ [255]

/-- The words a hash function is fed of a value. Foreign values are fed like strings of their own
kind, so equal texts give equal digests. -/
def digest : Value → List Int
  | .null => [0]
  | .string s => 1 :: textDigest s
  | .integer n => [2, n.toInt]
  | .boolean b => [3, if b then 1 else 0]
  | .symbol s => 4 :: (textDigest s.typeName ++ textDigest s.variant)
  | .severity v => [5, v.rank]
  | .double d => [6, d.bits.toNat]
  | .timestamp t => [7, t.seconds, t.nanos]
  | .zoned t => [8, t.instant.seconds, t.instant.nanos, t.offset]
  | .uuid u => [9, u.bits.toNat]
  | .foreign s => 10 :: textDigest s

/-- Equal values are fed alike. -/
theorem digest_eq_of_equal {a b : Value} (h : a.equal b = true) : a.digest = b.digest :=
  congrArg digest (equal_iff.1 h).2

end Value

end TracePattern
