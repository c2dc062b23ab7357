import TracePattern.Double.Basic

/-!
# TOML values and tables

The statements of a document and the fields of an inline table define a tree of tables.  Nothing is
defined twice; which tables may be extended depends on how they came into being.

* `Toml`, `Toml.get?`: a value, in which a table keeps its fields in the order in which they were
  written, and the field of a table;
* `Node`: a defined value, a table with its `Origin`, or an array of tables;
* `Node.alter?`: a change of the table at the end of a path;
* `Fields.put?`: the definition of a value; `Fields.openTable?` and `Fields.openElement?`: headers.
-/

namespace TracePattern

/-- A TOML value. -/
inductive Toml
  | string (s : String)
  | integer (n : Int64)
  | float (d : Double)
  | boolean (b : Bool)
  /-- A date, a time of day or both, as it was written. -/
  | moment (text : String)
  | array (items : List Toml)
  | table (fields : List (String × Toml))
  deriving Repr

namespace Toml

/-- The field of a table with the given key. -/
def get? (key : String) : Toml → Option Toml
  | .table fields => fields.lookup key
  | _ => none

/-! ### Definitions -/

/-- How a table came into being. -/
inductive Origin
  /-- By a header of its own. -/
  | header
  /-- As a table on the way to another one that has a header. -/
  | implied
  /-- By a key with points in it. -/
  | dotted
  deriving DecidableEq, Repr

/-- What is defined under a key. -/
inductive Node
  | leaf (v : Toml)
  | table (origin : Origin) (fields : List (String × Node))
  /-- An array of tables, the last one first. -/
  | tables (elements : List (List (String × Node)))

/-- What is defined in a table. -/
abbrev Fields := List (String × Node)

/-- Defines or redefines a key. -/
def Fields.set (key : String) (node : Node) : Fields → Fields
  | [] => [(key, node)]
  | f :: rest => if f.1 = key then (key, node) :: rest else f :: Fields.set key node rest

/--
Changes the table at the end of a path; tables that are missing on the way come into being.

The path may lead through tables and through the last table of an array of tables.  The points of
a key do not lead into a table that has a header.
-/
def Fields.alter? (points : Bool) (f : Origin → Fields → Option Fields) :
    List String → Origin → Fields → Option Fields
  | [], origin, fields => f origin fields
  | key :: path, _, fields =>
    match fields.lookup key with
    | none =>
      let origin : Origin := if points then .dotted else .implied
      (alter? points f path origin []).map fun inner => fields.set key (.table origin inner)
    | some (.leaf _) => none
    | some (.tables []) => none
    | some (.tables (last :: earlier)) =>
      (alter? points f path .header last).map fun inner =>
        fields.set key (.tables (inner :: earlier))
    | some (.table origin inner) =>
      if points ∧ origin = .header then none
      else (alter? points f path origin inner).map fun inner =>
        fields.set key (.table origin inner)

/-- Defines a value in a table, under a key that may have points in it. A key with points defines
values only in tables that came into being by such keys. -/
def Fields.put? (path : List String) (key : String) (v : Toml) (fields : Fields) : Option Fields :=
  fields.alter? true (fun origin fields =>
    if path ≠ [] ∧ origin ≠ .dotted then none
    else match fields.lookup key with
      | some _ => none
      | none => some (fields.set key (.leaf v))) path .header

/-- Opens a table by its header. Only a table that was implied before may be there already. -/
def Fields.openTable? (path : List String) (key : String) (fields : Fields) : Option Fields :=
  fields.alter? false (fun _ fields =>
    match fields.lookup key with
    | none => some (fields.set key (.table .header []))
    | some (.table .implied inner) => some (fields.set key (.table .header inner))
    | some _ => none) path .header

/-- Opens a further table of an array of tables. -/
def Fields.openElement? (path : List String) (key : String) (fields : Fields) : Option Fields :=
  fields.alter? false (fun _ fields =>
    match fields.lookup key with
    | none => some (fields.set key (.tables [[]]))
    | some (.tables elements) => some (fields.set key (.tables ([] :: elements)))
    | some _ => none) path .header

mutual
/-- The value of a definition. -/
def Node.value : Node → Toml
  | .leaf v => v
  | .table _ fields => .table (fieldValues fields)
  | .tables elements => .array (elementValues elements).reverse

/-- The values of the definitions in a table. -/
def fieldValues : List (String × Node) → List (String × Toml)
  | [] => []
  | (key, node) :: rest => (key, node.value) :: fieldValues rest

/-- The tables of an array of tables. -/
def elementValues : List (List (String × Node)) → List Toml
  | [] => []
  | fields :: rest => .table (fieldValues fields) :: elementValues rest
end

end Toml

end TracePattern
