import TracePattern.Double.Shortest

/-!
# The text of a floating-point number

A finite number is written with the shortest digits that read back.  How they are laid out is a
`Double.Style`; the names of the numbers that are not finite belong to the format that uses it.

* `Double.Style` and `Double.finiteText`: a layout and the text of a finite number in it;
* `Double.text`: the text of any number, in positional notation throughout;
* `Double.read?`: reads a number in decimal notation, and the names of infinity and not-a-number.
-/

namespace TracePattern.Double

/-- How the shortest digits of a finite number are laid out. -/
structure Style where
  /-- The choice between two equally near decimals. -/
  tie : Tie
  /-- The least decimal exponent of the first digit that is written in positional notation. -/
  leastPlain : Option Int
  /-- The first decimal exponent of the first digit that is no longer written so. -/
  firstScientific : Option Int
  /-- What follows a whole number. -/
  wholeSuffix : String

/-- Digits with the decimal point after the first `point` of them. -/
def positional (style : Style) (digits : List Char) (point : Int) : String :=
  let zeros (n : Int) : List Char := List.replicate n.toNat '0'
  if point ≤ 0 then String.ofList ('0' :: '.' :: zeros (-point) ++ digits)
  else if point < digits.length then
    String.ofList (digits.take point.toNat ++ '.' :: digits.drop point.toNat)
  else String.ofList (digits ++ zeros (point - digits.length)) ++ style.wholeSuffix

/-- Digits with the decimal point after the first one, and an exponent with its sign. -/
def scientific (digits : List Char) (exponent : Int) : String :=
  let mantissa := match digits with
    | first :: second :: rest => first :: '.' :: second :: rest
    | short => short
  let sign := if exponent < 0 then '-' else '+'
  String.ofList (mantissa ++ 'e' :: sign :: Digits.ofNat exponent.natAbs)

/-- The text of `significand * 2 ^ exponent`, whose magnitude is `w`, without a sign. -/
def finiteText (style : Style) (w significand : Nat) (exponent : Int) : String :=
  if significand = 0 then "0" ++ style.wholeSuffix
  else
    let decimal := shortest style.tie w significand exponent
    let digits := Digits.ofNat decimal.digits
    let point := digits.length + decimal.exponent
    let tooSmall := style.leastPlain.any fun least => point - 1 < least
    let tooLarge := style.firstScientific.any fun first => first ≤ point - 1
    if tooSmall || tooLarge then scientific digits (point - 1) else positional style digits point

/-- Values are written without exponents, whole ones without a point, and ties go up. -/
def plainStyle : Style := ⟨.up, none, none, ""⟩

/-- The text of a number. Only finite numbers and infinities show their sign. -/
def text (d : Double) : String :=
  let sign := if d.isNegative then "-" else ""
  match d.shape with
  | .finite significand exponent => sign ++ finiteText plainStyle d.magnitude significand exponent
  | .infinite => sign ++ "inf"
  | .notNumber => "NaN"

/-! ### Reading -/

/-- The exponent part of a number: nothing, or `e` with an optional sign and digits. -/
def readExponent? : List Char → Option Int
  | [] => some 0
  | e :: rest =>
    if e = 'e' ∨ e = 'E' then Digits.readSigned? rest else none

/-- Digits with an optional point among them, at least one digit in all, and an exponent part. -/
def readDecimal? (cs : List Char) : Option Decimal :=
  let whole := Digits.take cs
  let fraction := match whole.2 with
    | '.' :: rest => Digits.take rest
    | rest => ([], rest)
  let digits := whole.1 ++ fraction.1
  if digits = [] then none
  else (readExponent? fraction.2).map fun e => ⟨Digits.toNat digits, e - fraction.1.length⟩

/-- A number without its sign. Names are read in any case of their letters. -/
def readMagnitude? (cs : List Char) : Option Nat :=
  let name := String.ofList (cs.map Char.toLower)
  if name = "inf" ∨ name = "infinity" then some infinite
  else if name = "nan" then some quiet
  else (readDecimal? cs).map fun d => magnitudeOfDecimal d.digits d.exponent

/-- A number in decimal notation with an optional sign. -/
def read? (s : String) : Option Double :=
  let signed := Digits.sign s.toList
  (readMagnitude? signed.2).map (ofMagnitude signed.1)

end TracePattern.Double
