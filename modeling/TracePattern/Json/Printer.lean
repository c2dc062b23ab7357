import TracePattern.Digits
import TracePattern.Double.Text
import TracePattern.Json.Basic

/-!
# Printing JSON

* `Json.quote`: a text as a string literal;
* `Json.compact`: a value without any white space; what has no value is printed as `null`;
* `Json.pretty`: a value over several lines, each level indented by two blanks.
-/

namespace TracePattern.Json

/-- Floating-point numbers have a point or an exponent; the exponent is used below 10^(-5) and from
10^16 on, and ties go to the even digit. -/
def floatStyle : Double.Style := ⟨.toEven, some (-5), some 16, ".0"⟩

/-- The text of a number. -/
def Number.text : Number → String
  | .whole n => Integer.decimal n
  | .float d =>
    match d.shape with
    | .finite significand exponent =>
      (if d.isNegative then "-" else "") ++
        Double.finiteText floatStyle d.magnitude significand exponent
    | _ => "null"

/-- A character as it stands inside a string literal. Quotes, backslashes and control characters
are escaped and nothing else. -/
def escape (c : Char) : List Char :=
  let n := c.toNat
  if c = '"' then ['\\', '"']
  else if c = '\\' then ['\\', '\\']
  else if n = 8 then ['\\', 'b']
  else if n = 9 then ['\\', 't']
  else if n = 10 then ['\\', 'n']
  else if n = 12 then ['\\', 'f']
  else if n = 13 then ['\\', 'r']
  else if n < 32 then ['\\', 'u', '0', '0', Nat.digitChar (n / 16), Nat.digitChar (n % 16)]
  else [c]

/-- A text as a string literal. -/
def quote (s : String) : String := "\"" ++ String.ofList (s.toList.flatMap escape) ++ "\""

mutual
/-- The value without white space. -/
def compact : Json → String
  | .null => "null"
  | .bool b => if b then "true" else "false"
  | .number n => n.text
  | .string s => quote s
  | .array items => "[" ++ compactItems items ++ "]"
  | .object fields => "\x7b" ++ compactFields fields ++ "\x7d"
  | .unreadable => "null"

/-- Items with commas between them. -/
def compactItems : List Json → String
  | [] => ""
  | [j] => j.compact
  | j :: rest => j.compact ++ "," ++ compactItems rest

/-- Fields with commas between them. -/
def compactFields : List (String × Json) → String
  | [] => ""
  | [(key, j)] => quote key ++ ":" ++ j.compact
  | (key, j) :: rest => quote key ++ ":" ++ j.compact ++ "," ++ compactFields rest
end

/-- The start of a line at a level. -/
def newline (level : Nat) : String := "\n" ++ String.ofList (List.replicate (2 * level) ' ')

mutual
/-- The value at a level of indentation. Empty arrays and objects take no lines. -/
def prettyAt (level : Nat) : Json → String
  | .array [] => "[]"
  | .array items => "[" ++ prettyItems (level + 1) items ++ newline level ++ "]"
  | .object [] => "\x7b\x7d"
  | .object fields => "\x7b" ++ prettyFields (level + 1) fields ++ newline level ++ "\x7d"
  | .null => "null"
  | .bool b => if b then "true" else "false"
  | .number n => n.text
  | .string s => quote s
  | .unreadable => "null"

/-- Items on lines of their own. -/
def prettyItems (level : Nat) : List Json → String
  | [] => ""
  | [j] => newline level ++ prettyAt level j
  | j :: rest => newline level ++ prettyAt level j ++ "," ++ prettyItems level rest

/-- Fields on lines of their own. -/
def prettyFields (level : Nat) : List (String × Json) → String
  | [] => ""
  | [(key, j)] => newline level ++ quote key ++ ": " ++ prettyAt level j
  | (key, j) :: rest =>
    newline level ++ quote key ++ ": " ++ prettyAt level j ++ "," ++ prettyFields level rest
end

/-- The value over several lines. -/
def pretty (j : Json) : String := prettyAt 0 j

end TracePattern.Json
