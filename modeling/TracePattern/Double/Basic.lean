/-!
# Binary floating-point numbers

A number of the format with one sign bit, eleven exponent bits and fifty-two fraction bits, held
as its bits.  Equality is equality of bits: a not-a-number equals itself, and the two zeros differ.

* `Double`, its sign `Double.isNegative` and its `Double.magnitude` (the bits without the sign);
* `Double.Shape`: what a magnitude stands for, with the value `significand * 2 ^ exponent` of a
  finite one.
-/

namespace TracePattern

/-- A binary floating-point number of 64 bits. -/
structure Double where
  bits : UInt64
  deriving DecidableEq, Repr

namespace Double

/-- The sign bit. -/
def signBit : Nat := 0x8000000000000000

/-- The leading bit of a significand, which the bits of the number leave out. -/
def hiddenBit : Nat := 0x10000000000000

/-- The sign bit is set. -/
def isNegative (d : Double) : Bool := decide (signBit ≤ d.bits.toNat)

/-- The bits without the sign bit; magnitudes are ordered as the numbers are. -/
def magnitude (d : Double) : Nat := d.bits.toNat % signBit

/-- The number with the given sign and magnitude. -/
def ofMagnitude (negative : Bool) (magnitude : Nat) : Double :=
  ⟨UInt64.ofNat (if negative then signBit + magnitude else magnitude)⟩

/-- The magnitude of the infinities; all above it are not numbers. -/
def infinite : Nat := 0x7ff0000000000000

/-- The magnitude of the not-a-number that reading produces. -/
def quiet : Nat := 0x7ff8000000000000

/-- What a magnitude stands for. -/
inductive Shape
  /-- The value `significand * 2 ^ exponent`. -/
  | finite (significand : Nat) (exponent : Int)
  | infinite
  | notNumber
  deriving DecidableEq, Repr

/-- The meaning of a magnitude. An exponent field of zero has no hidden bit. -/
def Shape.ofMagnitude (w : Nat) : Shape :=
  if w < Double.infinite then
    if w < Double.hiddenBit then .finite w (-1074)
    else .finite (Double.hiddenBit + w % Double.hiddenBit) (w / Double.hiddenBit - 1075)
  else if w = Double.infinite then .infinite
  else .notNumber

/-- What the number stands for, without its sign. -/
def shape (d : Double) : Shape := .ofMagnitude d.magnitude

theorem magnitude_ofMagnitude {negative : Bool} {w : Nat} (h : w < signBit) :
    (ofMagnitude negative w).magnitude = w := by
  unfold signBit at h
  cases negative <;> simp [ofMagnitude, magnitude, signBit, UInt64.toNat_ofNat'] <;> omega

/-- Sign and magnitude make up the number. -/
@[simp] theorem ofMagnitude_magnitude (d : Double) :
    ofMagnitude d.isNegative d.magnitude = d := by
  have hd := d.bits.toNat_lt
  have : (ofMagnitude d.isNegative d.magnitude).bits.toNat = d.bits.toNat := by
    unfold ofMagnitude isNegative magnitude signBit
    by_cases h : 0x8000000000000000 ≤ d.bits.toNat
    · rw [if_pos (decide_eq_true h), UInt64.toNat_ofNat']
      omega
    · rw [if_neg (by simpa using h), UInt64.toNat_ofNat']
      omega
  exact congrArg Double.mk (UInt64.toNat_inj.1 this)

end Double

end TracePattern
