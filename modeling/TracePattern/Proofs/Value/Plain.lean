import Mathlib.Algebra.Ring.Nat
import Mathlib.Data.Nat.Notation
import Mathlib.Tactic.Common
import TracePattern.Uuid
import TracePattern.Value.Symbol

/-!
# Symbols and identifiers read back

Every symbol and every identifier is found again in its text.

* `Symbol.parts?_escape_append`: a quoted part is one part, whatever it holds;
* `Uuid.unhyphenate?_hyphenate`, `Uuid.foldl_hexDigits`: groups and digits;
* `Symbol.parse?_text`, `Uuid.read?_text`: the results.
-/

namespace TracePattern

namespace Symbol

/-- A quoted part goes on with the first part of what follows. -/
theorem parts?_escape_append (cs : List Char) {rest part : List Char} {more : List (List Char)}
    (h : parts? rest = some (part :: more)) :
    parts? (escape cs ++ rest) = some ((cs ++ part) :: more) := by
  induction cs with
  | nil => exact h
  | cons c cs ih =>
    by_cases special : c = '.' ∨ c = '\\'
    · rw [escape, if_pos special]
      show parts? ('\\' :: c :: (escape cs ++ rest)) = _
      rw [parts?, ih]
      rfl
    · obtain ⟨point, backslash⟩ := not_or.1 special
      rw [escape, if_neg special]
      show parts? (c :: (escape cs ++ rest)) = _
      rw [parts?, ih]
      · simp [point]
      all_goals simp [backslash]

theorem parts?_escape (cs : List Char) : parts? (escape cs) = some [cs] := by
  have alone : parts? (escape cs ++ []) = some [cs ++ []] := parts?_escape_append cs rfl
  rwa [List.append_nil, List.append_nil] at alone

/-- **A symbol is read back from its text.** -/
theorem parse?_text (s : Symbol) : parse? s.text = some s := by
  obtain ⟨typeName, variant⟩ := s
  simp only [parse?, text, String.toList_ofList, chars]
  by_cases unnamed : typeName.toList = []
  · rw [if_pos unnamed, parts?_escape]
    simp [String.toList_eq_nil_iff.1 unnamed]
  · have second : parts? ('.' :: escape variant.toList) = some [[], variant.toList] := by
      rw [parts?, parts?_escape]
      · rfl
      all_goals simp
    rw [if_neg unnamed, parts?_escape_append _ second]
    simp

end Symbol

namespace Uuid

theorem hexValue?_hexDigit (n : ℕ) : hexValue? (hexDigit n) = some (n % 16) := by
  have all : ∀ m < 16, hexValue? (Nat.digitChar m) = some m := by decide
  exact all (n % 16) (Nat.mod_lt n (by decide))

theorem length_hexDigits (count n : ℕ) : (hexDigits count n).length = count := by
  induction count generalizing n with
  | zero => rfl
  | succ count ih => simp [hexDigits, ih]

/-- The digits have their values, which make up the number as far as they reach. -/
theorem foldl_hexDigits (count n : ℕ) : ∃ ns, (hexDigits count n).mapM hexValue? = some ns ∧
    ns.foldl (fun n d => 16 * n + d) 0 = n % 16 ^ count := by
  induction count generalizing n with
  | zero => exact ⟨[], rfl, (Nat.mod_one n).symm⟩
  | succ count ih =>
    obtain ⟨ns, digits, value⟩ := ih (n / 16)
    refine ⟨ns ++ [n % 16], ?_, ?_⟩
    · simp [hexDigits, digits, hexValue?_hexDigit]
    · rw [List.foldl_append, value, Nat.pow_succ', Nat.mod_mul]
      exact Nat.add_comm _ _

theorem length_digits (u : Uuid) : u.digits.length = 32 := length_hexDigits ..

theorem ofDigits?_digits (u : Uuid) : ofDigits? u.digits = some u := by
  obtain ⟨ns, read, value⟩ := foldl_hexDigits 32 u.bits.toNat
  have all : u.bits.toNat % 16 ^ 32 = u.bits.toNat := Nat.mod_eq_of_lt u.bits.isLt
  rw [ofDigits?, if_pos u.length_digits, digits, read, Option.map_some]
  simp only [value, all, BitVec.ofNat_toNat, BitVec.setWidth_eq]

theorem unhyphenate?_hyphenate {groups : List ℕ} (h : groups ≠ []) {cs : List Char}
    (length : cs.length = groups.sum) : unhyphenate? groups (hyphenate groups cs) = some cs := by
  fun_induction hyphenate groups cs with
  | case1 => exact absurd rfl h
  | case2 cs n => rw [unhyphenate?, if_pos (by simpa using length)]
  | case3 n ns cs more ih =>
    have whole : cs.length = n + ns.sum := by simpa using length
    have group : (cs.take n).length = n := by
      rw [List.length_take]
      omega
    have others := ih (by simpa using more) (by rw [List.length_drop]; omega)
    rw [unhyphenate?]
    · simp [List.drop_left' group, List.take_left' group, others, List.take_append_drop]
    · simpa using more

/-- **An identifier is read back from its text.** -/
theorem read?_text (u : Uuid) : read? u.text = some u := by
  have all : (hyphenate groups u.digits).length = 36 := by
    simp [hyphenate, groups, u.length_digits]
  have hyphenated : ofHyphenated? (hyphenate groups u.digits) = some u := by
    have length : u.digits.length = groups.sum := u.length_digits.trans rfl
    rw [ofHyphenated?, unhyphenate?_hyphenate (by decide) length, Option.bind_some,
      ofDigits?_digits]
  simp [read?, text, all, hyphenated]

end Uuid

end TracePattern
