import TracePattern.Double.Rounding

/-!
# The shortest decimal that reads back

Of all decimals that round to a given number the shortest ones are those with the fewest digits,
and of these the nearest is chosen.  On each grid of decimals with a fixed number of digits only
the two neighbours of the value can be nearest, so the search looks at two decimals per length.

* `Decimal`: `digits * 10 ^ exponent`;
* `Double.onGrid`: the better of the two neighbours on one grid, if either reads back;
* `Double.shortest`: the first grid with a hit.
-/

namespace TracePattern

/-- The decimal number `digits * 10 ^ exponent`. -/
structure Decimal where
  digits : Nat
  exponent : Int
  deriving DecidableEq, Repr

/-- The same decimal without trailing zeros. -/
def Decimal.trim (d : Decimal) : Decimal :=
  if h : d.digits ≠ 0 ∧ d.digits % 10 = 0 then
    Decimal.trim ⟨d.digits / 10, d.exponent + 1⟩
  else d
termination_by d.digits
decreasing_by
  have := h.1
  omega

/-- Where a value half-way between two decimals goes. -/
inductive Tie
  | up
  | toEven
  deriving DecidableEq, Repr

namespace Double

/-- The position of the decimal point of `num / den`: the quotient is at least
`10 ^ (point - 1)` and less than `10 ^ point`. -/
def decimalPoint (num den : Nat) : Int :=
  let guess : Int := (Digits.ofNat num).length - (Digits.ofNat den).length
  let q := scaled 10 num den guess
  if q.2 ≤ q.1 then guess + 1 else guess

/-- Of the two multiples of `10 ^ k` around `num / den`, the nearer one that has magnitude `w`. -/
def onGrid (tie : Tie) (w num den : Nat) (k : Int) : Option Decimal :=
  let q := scaled 10 num den k
  let low := q.1 / q.2
  let rest := q.1 % q.2
  let lowHits := magnitudeOfDecimal low k = w
  let highHits := rest ≠ 0 ∧ magnitudeOfDecimal (low + 1) k = w
  let lowNearer := 2 * rest < q.2 ∨ (2 * rest = q.2 ∧ tie = .toEven ∧ low % 2 = 0)
  if lowHits ∧ (lowNearer ∨ ¬ highHits) then some ⟨low, k⟩
  else if highHits then some ⟨low + 1, k⟩
  else none

/-- The decimal with all the digits of `significand * 2 ^ exponent`. -/
def exactDecimal (significand : Nat) (exponent : Int) : Decimal :=
  if 0 ≤ exponent then ⟨significand * Nat.pow 2 exponent.toNat, 0⟩
  else ⟨significand * Nat.pow 5 (-exponent).toNat, exponent⟩

/-- The decimal with the fewest digits that has magnitude `w`, where `w` is the magnitude of
`significand * 2 ^ exponent`. Seventeen digits are always enough. -/
def shortest (tie : Tie) (w significand : Nat) (exponent : Int) : Decimal :=
  let q := scaled 2 significand 1 (-exponent)
  let point := decimalPoint q.1 q.2
  let found := (List.range 17).findSome? fun (n : Nat) =>
    onGrid tie w q.1 q.2 (point - (n + 1))
  (found.getD (exactDecimal significand exponent)).trim

end Double

end TracePattern
