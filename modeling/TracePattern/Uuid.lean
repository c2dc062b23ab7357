/-!
# Universally unique identifiers

* `Uuid`: 128 bits;
* `Uuid.text`: thirty-two hexadecimal digits in groups of 8, 4, 4, 4 and 12;
* `Uuid.read?`: that form, the digits without hyphens, and the hyphenated form in braces or after
  `urn:uuid:`; all letters in either case.
-/

namespace TracePattern

/-- An identifier of 128 bits. -/
structure Uuid where
  bits : BitVec 128
  deriving DecidableEq

namespace Uuid

/-- The lower-case hexadecimal digit of a number below sixteen. -/
def hexDigit (n : Nat) : Char := Nat.digitChar (n % 16)

/-- The number of a hexadecimal digit in either case. -/
def hexValue? (c : Char) : Option Nat :=
  if '0' ≤ c ∧ c ≤ '9' then some (c.toNat - 48)
  else if 'a' ≤ c ∧ c ≤ 'f' then some (c.toNat - 87)
  else if 'A' ≤ c ∧ c ≤ 'F' then some (c.toNat - 55)
  else none

/-- The `count` lowest hexadecimal digits of `n`, most significant first. -/
def hexDigits : (count n : Nat) → List Char
  | 0, _ => []
  | count + 1, n => hexDigits count (n / 16) ++ [hexDigit n]

/-- All thirty-two digits. -/
def digits (u : Uuid) : List Char := hexDigits 32 u.bits.toNat

/-- The lengths of the groups between hyphens. -/
def groups : List Nat := [8, 4, 4, 4, 12]

/-- A text cut into groups of the given lengths, with hyphens between them. -/
def hyphenate : List Nat → List Char → List Char
  | [], cs => cs
  | [_], cs => cs
  | n :: ns, cs => cs.take n ++ '-' :: hyphenate ns (cs.drop n)

/-- The hyphenated form. -/
def text (u : Uuid) : String := String.ofList (hyphenate groups u.digits)

/-- The identifier of thirty-two hexadecimal digits. -/
def ofDigits? (cs : List Char) : Option Uuid :=
  if cs.length = 32 then
    (cs.mapM hexValue?).map fun ns => ⟨BitVec.ofNat 128 (ns.foldl (fun n d => 16 * n + d) 0)⟩
  else none

/-- The digits of a hyphenated text, whose hyphens must stand where the groups end. -/
def unhyphenate? : List Nat → List Char → Option (List Char)
  | [], cs => if cs = [] then some [] else none
  | [n], cs => if cs.length = n then some cs else none
  | n :: ns, cs =>
    match cs.drop n with
    | '-' :: rest => (unhyphenate? ns rest).map (cs.take n ++ ·)
    | _ => none

/-- The identifier of a hyphenated text. -/
def ofHyphenated? (cs : List Char) : Option Uuid := (unhyphenate? groups cs).bind ofDigits?

/-- What stands in front of an identifier that is written as a name, in lower case. -/
def urn : List Char := "urn:uuid:".toList

/-- An identifier in any of its four forms, which are told apart by their lengths. -/
def read? (s : String) : Option Uuid :=
  let cs := s.toList
  if cs.length = 32 then ofDigits? cs
  else if cs.length = 36 then ofHyphenated? cs
  else if cs.length = 38 ∧ cs.head? = some '{' ∧ cs.getLast? = some '}' then
    ofHyphenated? (cs.drop 1).dropLast
  else if cs.length = 45 ∧ (cs.take 9).map Char.toLower = urn then ofHyphenated? (cs.drop 9)
  else none

end Uuid

end TracePattern
