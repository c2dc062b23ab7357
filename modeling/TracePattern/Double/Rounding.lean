import TracePattern.Digits
import TracePattern.Double.Basic

/-!
# Rounding to the nearest binary floating-point number

* `roundHalfEven`: a quotient to the nearest integer, a half to the even neighbour;
* `Double.nearest`: the magnitude nearest to a quotient of two natural numbers;
* `Double.ofDecimal`: the number nearest to `digits * 10 ^ exponent`.
-/

namespace TracePattern

/-- The integer nearest to `num / den`; a half goes to the even neighbour. -/
def roundHalfEven (num den : Nat) : Nat :=
  let low := num / den
  let rest := num % den
  if 2 * rest < den then low
  else if den < 2 * rest then low + 1
  else if low % 2 = 0 then low
  else low + 1

/-- The quotient `num / den` divided by `base ^ k`, again as a quotient. -/
def scaled (base num den : Nat) (k : Int) : Nat × Nat :=
  if 0 ≤ k then (num, den * base.pow k.toNat) else (num * base.pow (-k).toNat, den)

namespace Double

/--
The magnitude nearest to `num / den`, a half going to the even magnitude.

`k` is chosen so that the significand has 53 bits, or fewer below the smallest normal number.  A
significand that rounding carries to 54 bits needs no case of its own: the carry runs into the
exponent field.
-/
def nearest (num den : Nat) : Nat :=
  if num = 0 then 0
  else
    let least : Int := max ((Nat.log2 num : Int) - Nat.log2 den - 53) (-1074)
    let first := scaled 2 num den least
    let k := if first.1 / first.2 < 2 * hiddenBit then least else least + 1
    let q := scaled 2 num den k
    min infinite ((k + 1074).toNat * hiddenBit + roundHalfEven q.1 q.2)

/--
The magnitude nearest to `digits * 10 ^ exponent`.

Numbers of 10^310 and more are infinite, numbers below 10^(-330) are zero; the two early answers
keep the powers of ten small.
-/
def magnitudeOfDecimal (digits : Nat) (exponent : Int) : Nat :=
  if digits = 0 then 0
  else
    let point : Int := (Digits.ofNat digits).length + exponent
    if 310 < point then infinite
    else if point < -330 then 0
    else
      let q := scaled 10 digits 1 (-exponent)
      nearest q.1 q.2

/-- The number nearest to `digits * 10 ^ exponent`, with the given sign. -/
def ofDecimal (negative : Bool) (digits : Nat) (exponent : Int) : Double :=
  ofMagnitude negative (magnitudeOfDecimal digits exponent)

end Double

end TracePattern
