import TracePattern.Double.Rounding
import TracePattern.Json.Basic

/-!
# Structures and variants in JSON

* `Json.fields?`: the fields of a structure, which is an object with named fields or an array of
  the field values in order;
* `Json.variant?`: the variant of a sum, which is a string, or an object with one field that holds
  what the variant carries;
* `Json.double?`, `Json.natural?`: numbers of a range.
-/

namespace TracePattern.Json

/-- The values of the named fields. In an object no named field may come twice, and fields of other
names do not matter; an array may end early but not hold more. -/
def fields? (names : List String) : Json → Option (List (Option Json))
  | .object fields =>
    let values := names.map fun name => (fields.filter fun f => f.1 = name).map Prod.snd
    if values.all fun vs => vs.length ≤ 1 then some (values.map List.head?) else none
  | .array items =>
    if items.length ≤ names.length then
      some (items.map some ++ List.replicate (names.length - items.length) none)
    else none
  | _ => none

/-- The name of a variant and what it carries. -/
def variant? : Json → Option (String × Option Json)
  | .string name => some (name, none)
  | .object [(name, content)] => some (name, some content)
  | _ => none

/-- The name of a variant that carries nothing. -/
def plainVariant? (j : Json) : Option String :=
  match j.variant? with
  | some (name, none) => some name
  | some (name, some .null) => some name
  | _ => none

/-- A number as a floating-point number. -/
def double? : Json → Option Double
  | .number (.whole n) => some (Double.ofDecimal (decide (n < 0)) n.natAbs 0)
  | .number (.float d) => some d
  | _ => none

/-- A natural number of 64 bits. -/
def natural? (j : Json) : Option Nat :=
  j.int?.bind fun n => if 0 ≤ n ∧ n < UInt64.size then some n.toNat else none

end TracePattern.Json
