import TracePattern.Double.Text
import TracePattern.Json.Basic

/-!
# Numbers of a JSON text

A literal without point and exponent is a whole number as long as it fits 64 bits, with or without
a sign.  Any other literal is a floating-point number: its digits, as many as fit 64 bits, are
rounded to a floating-point number, which is then multiplied or divided by a power of ten and
rounded again.  A literal of few digits is exact in both steps.

* `Json.Literal`: the parts of a literal;
* `Json.Literal.number?`: its number, if it is not too large.
-/

namespace TracePattern.Json

/-- The parts of a number as it is written. -/
structure Literal where
  negative : Bool
  whole : List Char
  /-- The digits after the point, if there is a point. -/
  fraction : Option (List Char)
  /-- The exponent, if there is one. -/
  exponent : Option Int
  deriving Repr

namespace Literal

/-- Adds digits to `significand` while it fits 64 bits; the second number counts the digits that
were left out from the first one on that did not fit. -/
def gather : List Char → (significand skipped : Nat) → Nat × Nat
  | [], significand, skipped => (significand, skipped)
  | c :: rest, significand, skipped =>
    let next := 10 * significand + Digits.toNat [c]
    if skipped = 0 ∧ next < UInt64.size then gather rest next 0
    else gather rest significand (skipped + 1)

/-- The magnitude of `a * 10 ^ k`, where `a` is a magnitude. -/
def timesPower (a k : Nat) : Nat :=
  match Double.Shape.ofMagnitude a, Double.Shape.ofMagnitude (Double.magnitudeOfDecimal 1 k) with
  | .finite m e, .finite n f =>
    let q := scaled 2 (m * n) 1 (-(e + f))
    Double.nearest q.1 q.2
  | _, _ => Double.infinite

/-- The magnitude of `a / 10 ^ k`, where `a` is a magnitude. -/
def overPower (a k : Nat) : Nat :=
  match Double.Shape.ofMagnitude a, Double.Shape.ofMagnitude (Double.magnitudeOfDecimal 1 k) with
  | .finite m e, .finite n f =>
    let q := scaled 2 m n (-(e - f))
    Double.nearest q.1 q.2
  | _, _ => 0

/-- The magnitude of `significand * 10 ^ exponent` in two roundings, three for an exponent below
the least power of ten; none if it is infinite. -/
def magnitude? (significand : Nat) (exponent : Int) : Option Nat :=
  let start := Double.magnitudeOfDecimal significand 0
  if start = 0 then some 0
  else if 0 ≤ exponent then
    let w := if exponent ≤ 308 then timesPower start exponent.toNat else Double.infinite
    if w < Double.infinite then some w else none
  else
    let k := (-exponent).toNat
    if k ≤ 308 then some (overPower start k)
    else
      let next := overPower start 308
      if k - 308 ≤ 308 then some (overPower next (k - 308)) else some 0

/-- The floating-point number of a literal. -/
def float? (l : Literal) : Option Double :=
  let whole := gather l.whole 0 0
  let fraction := l.fraction.getD []
  let rest := gather fraction whole.1 0
  let taken := fraction.length - rest.2
  let exponent : Int := l.exponent.getD 0 + whole.2 - taken
  (magnitude? rest.1 exponent).map (Double.ofMagnitude l.negative)

/-- The number of a literal. Minus zero is a floating-point number, as there is no such integer. -/
def number? (l : Literal) : Option Number :=
  let n : Int := Digits.toNat l.whole
  if l.fraction = none ∧ l.exponent = none ∧
      (if l.negative then n ≠ 0 ∧ Int64.minValue.toInt ≤ -n else n < UInt64.size) then
    some (.whole (if l.negative then -n else n))
  else l.float?.map .float

end Literal

end TracePattern.Json
