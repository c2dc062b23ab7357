/-!
# Decimal digits and integers

* `Digits.ofNat`, `Digits.toNat`: a number and its run of decimal digits;
* `Digits.padded`: the digits of a number, filled up with zeros to a width;
* `Digits.take`, `Digits.sign`: the run of digits, or the sign, that a text starts with;
* `Digits.read?`, `Digits.readSigned?`: the number of a text that consists of digits only, the
  second after an optional sign;
* `Integer.text`, `Integer.read?`: a 64-bit integer in decimal notation, which is read with an
  optional plus sign and leading zeros too, within range.
-/

namespace TracePattern.Digits

/-- The decimal digits of `n`, most significant first, without leading zeros. -/
def ofNat (n : Nat) : List Char := Nat.toDigits 10 n

/-- The number that a run of decimal digits denotes. -/
def toNat (cs : List Char) : Nat := Nat.ofDigitChars 10 cs 0

@[simp] theorem toNat_ofNat (n : Nat) : toNat (ofNat n) = n :=
  Nat.ofDigitChars_ten_toDigits

theorem ofNat_ne_nil (n : Nat) : ofNat n ≠ [] := Nat.toDigits_ne_nil

theorem isDigit_of_mem_ofNat {n : Nat} {c : Char} (h : c ∈ ofNat n) : c.isDigit = true :=
  Nat.isDigit_of_mem_toDigits (by decide) (by decide) h

/-- The digits of `n` with zeros in front, up to `width` characters; a longer number is not cut. -/
def padded (width n : Nat) : List Char :=
  List.replicate (width - (ofNat n).length) '0' ++ ofNat n

@[simp] theorem toNat_padded (width n : Nat) : toNat (padded width n) = n := by
  simp [padded, toNat, ofNat, Nat.ofDigitChars_append]

/-- The digits at the front of a text, and what follows them. -/
def take (cs : List Char) : List Char × List Char :=
  (cs.takeWhile Char.isDigit, cs.dropWhile Char.isDigit)

theorem take_append (cs : List Char) : (take cs).1 ++ (take cs).2 = cs :=
  List.takeWhile_append_dropWhile

theorem length_take (cs : List Char) : (take cs).2.length ≤ cs.length :=
  (List.dropWhile_suffix _).length_le

theorem length_take_lt {cs : List Char} (h : (take cs).1 ≠ []) :
    (take cs).2.length < cs.length := by
  have := congrArg List.length (take_append cs)
  have := List.length_pos_iff.2 h
  rw [List.length_append] at *
  omega

/-- Whether a text starts with a minus sign, and what follows an optional sign. -/
def sign : List Char → Bool × List Char
  | '-' :: rest => (true, rest)
  | '+' :: rest => (false, rest)
  | rest => (false, rest)

theorem length_sign (cs : List Char) : (sign cs).2.length ≤ cs.length := by
  unfold sign
  split <;> simp

/-- The number of a non-empty text of digits. -/
def read? (cs : List Char) : Option Nat :=
  if cs ≠ [] ∧ cs.all Char.isDigit then some (toNat cs) else none

@[simp] theorem read?_ofNat (n : Nat) : read? (ofNat n) = some n := by
  rw [read?, if_pos ⟨ofNat_ne_nil n, List.all_eq_true.2 fun _ h => isDigit_of_mem_ofNat h⟩,
    toNat_ofNat]

/-- The integer of a text of digits with an optional sign. -/
def readSigned? (cs : List Char) : Option Int :=
  (read? (sign cs).2).map fun n => if (sign cs).1 then -(n : Int) else n

end TracePattern.Digits

namespace TracePattern.Integer

/-- The decimal text of an integer. -/
def decimal (n : Int) : String :=
  if n < 0 then String.ofList ('-' :: Digits.ofNat n.natAbs)
  else String.ofList (Digits.ofNat n.natAbs)

/-- The decimal text of a 64-bit integer. -/
def text (n : Int64) : String := decimal n.toInt

/-- The integer is representable in 64 bits with sign. -/
def InRange (n : Int) : Prop := Int64.minValue.toInt ≤ n ∧ n ≤ Int64.maxValue.toInt

instance (n : Int) : Decidable (InRange n) := inferInstanceAs (Decidable (_ ∧ _))

/-- The 64-bit integer of this value, if there is one. -/
def ofInt? (n : Int) : Option Int64 := if InRange n then some (Int64.ofInt n) else none

/-- A 64-bit integer in decimal notation. -/
def read? (s : String) : Option Int64 := (Digits.readSigned? s.toList).bind ofInt?

end TracePattern.Integer
