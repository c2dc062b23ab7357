import Mathlib.Algebra.Ring.Nat
import Mathlib.Data.Int.Notation
import Mathlib.Tactic.Common
import TracePattern.Digits

/-!
# Reading decimal digits back

* `Digits.take_digits`: a run of digits ends where something else begins;
* `Digits.length_padded`: a number that fits is written with exactly the given width;
* `Digits.toNat_lt`: a run of digits denotes less than the power of ten of its length;
* `Digits.length_ofNat_mul_ten`: ten times as much has one digit more;
* `Integer.read?_text`: every 64-bit integer is read back from its text.
-/

namespace TracePattern

namespace Digits

/-- A text that does not go on with a digit. -/
def Ends (rest : List Char) : Prop := ∀ c, rest.head? = some c → c.isDigit = false

theorem Ends.nil : Ends [] := by
  intro c h
  cases h

theorem Ends.cons {c : Char} {rest : List Char} (h : c.isDigit = false) : Ends (c :: rest) := by
  intro d hd
  cases hd
  exact h

variable {cs rest : List Char}

theorem Ends.take (ends : Ends rest) (k : ℕ) : Ends (rest.take k) := by
  cases rest with
  | nil => simpa using ends
  | cons c rest =>
    cases k with
    | zero => exact Ends.nil
    | succ k => exact Ends.cons (ends c rfl)

theorem Ends.dropWhile (ends : Ends rest) : rest.dropWhile Char.isDigit = rest := by
  cases rest with
  | nil => rfl
  | cons c rest => simp [ends c rfl]

/-- The digits up to the end of a run. -/
theorem take_digits (digits : ∀ c ∈ cs, c.isDigit = true) (ends : Ends rest) :
    take (cs ++ rest) = (cs, rest) := by
  rw [take, List.takeWhile_append_of_pos digits, List.dropWhile_append_of_pos digits]
  cases rest with
  | nil => simp
  | cons c rest => simp [ends c rfl]

theorem isDigit_of_mem_padded {width n : ℕ} {c : Char} (mem : c ∈ padded width n) :
    c.isDigit = true := by
  rcases List.mem_append.1 mem with zero | digit
  · rw [List.eq_of_mem_replicate zero]
    rfl
  · exact isDigit_of_mem_ofNat digit

theorem le_length_padded (width n : ℕ) : width ≤ (padded width n).length := by
  rw [padded, List.length_append, List.length_replicate]
  omega

theorem length_ofNat_pos (n : ℕ) : 0 < (ofNat n).length := Nat.length_toDigits_pos

theorem length_ofNat_le {n k : ℕ} (pos : 0 < k) (fits : n < 10 ^ k) : (ofNat n).length ≤ k :=
  (Nat.length_toDigits_le_iff (by decide) pos).2 fits

theorem lt_length_ofNat {n k : ℕ} (large : 10 ^ k ≤ n) : k < (ofNat n).length := by
  by_contra short
  have pos := length_ofNat_pos n
  have fits := (Nat.length_toDigits_le_iff (by decide) (by omega)).1 (Nat.not_lt.1 short)
  omega

theorem length_padded {width n : ℕ} (pos : 0 < width) (fits : n < 10 ^ width) :
    (padded width n).length = width := by
  have short := length_ofNat_le pos fits
  simp [padded, short]

theorem toNat_append (cs ds : List Char) :
    toNat (cs ++ ds) = 10 ^ ds.length * toNat cs + toNat ds := by
  rw [toNat, Nat.ofDigitChars_append, Nat.ofDigitChars_eq_ofDigitChars_zero]
  rfl

theorem toNat_zeros (n : ℕ) : toNat (List.replicate n '0') = 0 := by
  simp [toNat]

theorem length_ofNat_mul_ten {n : ℕ} (pos : 0 < n) :
    (ofNat (10 * n)).length = (ofNat n).length + 1 := by
  have split := Nat.toDigits_append_toDigits (b := 10) (d := 0) (by decide) pos (by decide)
  rw [Nat.add_zero] at split
  rw [ofNat, ofNat, ← split, List.length_append]
  rfl

/-- A digit stands for less than ten. -/
theorem digit_lt {c : Char} (digit : c.isDigit = true) : c.toNat - '0'.toNat < 10 := by
  have upper : c.toNat ≤ 57 := by
    simp only [Char.isDigit, ge_iff_le, Bool.and_eq_true, decide_eq_true_eq] at digit
    exact digit.2
  show c.toNat - 48 < 10
  omega

theorem toNat_lt (digits : ∀ c ∈ cs, c.isDigit = true) : toNat cs < 10 ^ cs.length := by
  induction cs with
  | nil => decide
  | cons c cs ih =>
    have here : toNat [c] < 10 := by
      simpa [toNat, Nat.ofDigitChars_cons] using digit_lt (digits c (List.mem_cons_self ..))
    have there := ih fun d mem => digits d (List.mem_cons_of_mem _ mem)
    rw [show c :: cs = [c] ++ cs from rfl, toNat_append, List.length_append, List.length_singleton,
      Nat.pow_add, Nat.pow_one]
    calc 10 ^ cs.length * toNat [c] + toNat cs
        < 10 ^ cs.length * toNat [c] + 10 ^ cs.length := Nat.add_lt_add_left there _
      _ = 10 ^ cs.length * (toNat [c] + 1) := by rw [Nat.mul_add, Nat.mul_one]
      _ ≤ 10 ^ cs.length * 10 := Nat.mul_le_mul_left _ here
      _ = 10 * 10 ^ cs.length := Nat.mul_comm _ _

/-- Digits have no sign in front. -/
theorem sign_of_digit (digit : ∃ c, cs.head? = some c ∧ c.isDigit = true) :
    sign cs = (false, cs) := by
  obtain ⟨c, first, digit⟩ := digit
  unfold sign
  split
  · cases first
    cases digit
  · cases first
    cases digit
  · rfl

theorem head?_ofNat (n : ℕ) : ∃ c, (ofNat n).head? = some c ∧ c.isDigit = true := by
  obtain ⟨c, rest, eq⟩ := List.exists_cons_of_ne_nil (ofNat_ne_nil n)
  exact ⟨c, by rw [eq]; rfl, isDigit_of_mem_ofNat (n := n) (by simp [eq])⟩

end Digits

namespace Integer

theorem readSigned?_decimal (n : ℤ) : Digits.readSigned? (decimal n).toList = some n := by
  unfold decimal
  split
  case isTrue negative =>
    rw [String.toList_ofList, Digits.readSigned?, Digits.sign, Digits.read?_ofNat]
    exact congrArg some (show -(n.natAbs : ℤ) = n by omega)
  case isFalse positive =>
    rw [String.toList_ofList, Digits.readSigned?, Digits.sign_of_digit (Digits.head?_ofNat _),
      Digits.read?_ofNat]
    exact congrArg some (show (n.natAbs : ℤ) = n by omega)

/-- **A 64-bit integer is read back from its text.** -/
theorem read?_text (n : Int64) : read? (text n) = some n := by
  have range : InRange n.toInt := ⟨Int64.minValue_le_toInt n, Int64.toInt_le n⟩
  rw [read?, text, readSigned?_decimal, Option.bind_some, ofInt?, if_pos range, Int64.ofInt_toInt]

end Integer

end TracePattern
