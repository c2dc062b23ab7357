/-!
# Symbols

A symbol is a variant of a named enumeration.  Its text is `Type.Variant`, or `Variant` alone
for an enumeration without a name; a backslash stands in front of every point and backslash that
belongs to one of the two parts.

* `Symbol.text`, `Symbol.parse?`: the text and its reader, which allows one unquoted point at most;
* `Symbol.display`: the text without the backslashes.
-/

namespace TracePattern

/-- A variant of an enumeration; the name of the enumeration may be empty. -/
structure Symbol where
  typeName : String
  variant : String
  deriving DecidableEq, Repr

namespace Symbol

/-- A part with a backslash in front of every point and backslash. -/
def escape : List Char → List Char
  | [] => []
  | c :: rest => if c = '.' ∨ c = '\\' then '\\' :: c :: escape rest else c :: escape rest

/-- The text as characters. -/
def chars (typeName variant : List Char) : List Char :=
  if typeName = [] then escape variant else escape typeName ++ '.' :: escape variant

/-- The text of a symbol. -/
def text (s : Symbol) : String := String.ofList (chars s.typeName.toList s.variant.toList)

/-- The parts of a text at its unquoted points, without the quoting backslashes. A backslash at
the end quotes nothing. -/
def parts? : List Char → Option (List (List Char))
  | [] => some [[]]
  | '\\' :: [] => none
  | '\\' :: c :: rest => (parts? rest).map fun
    | part :: more => (c :: part) :: more
    | [] => [[c]]
  | c :: rest => (parts? rest).map fun parts =>
    if c = '.' then [] :: parts
    else match parts with
      | part :: more => (c :: part) :: more
      | [] => [[c]]

/-- The symbol of a text. -/
def parse? (s : String) : Option Symbol :=
  match parts? s.toList with
  | some [variant] => some ⟨"", String.ofList variant⟩
  | some [typeName, variant] => some ⟨String.ofList typeName, String.ofList variant⟩
  | _ => none

/-- The text with the parts as they are. -/
def display (s : Symbol) : String :=
  if s.typeName = "" then s.variant else s.typeName ++ "." ++ s.variant

end Symbol

end TracePattern
