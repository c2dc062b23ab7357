import Mathlib.Algebra.Order.Field.Power
import Mathlib.Data.Rat.Cast.Order
import Mathlib.Tactic.FieldSimp
import Mathlib.Tactic.Linarith
import Mathlib.Tactic.NormNum
import Mathlib.Tactic.Positivity
import Mathlib.Tactic.Ring
import TracePattern.Double.Rounding

/-!
# Rounding depends on the value alone

The nearest magnitude is computed from a numerator and a denominator.  It is the same for all
quotients of one value, and for the value of a finite number it is the magnitude of that number.

* `Double.Spaced`: the exponent of the unit in which numbers of a size are counted, which a value
  determines;
* `Double.nearest_congr`, `Double.nearest_of_shape`: the two statements for quotients.
-/

namespace TracePattern

/-! ### Quotients -/

section Quotients

variable {num den num' den' : ℕ}

theorem roundHalfEven_mul_left (num den : ℕ) {c : ℕ} (pos : 0 < c) :
    roundHalfEven (c * num) (c * den) = roundHalfEven num den := by
  have below : 2 * (c * (num % den)) < c * den ↔ 2 * (num % den) < den := by
    rw [Nat.mul_left_comm]
    exact Nat.mul_lt_mul_left pos
  have above : c * den < 2 * (c * (num % den)) ↔ den < 2 * (num % den) := by
    rw [Nat.mul_left_comm 2]
    exact Nat.mul_lt_mul_left pos
  simp only [roundHalfEven, Nat.mul_div_mul_left _ _ pos, Nat.mul_mod_mul_left, below, above]

/-- Rounding depends on the value of the quotient alone. -/
theorem roundHalfEven_congr (hden : den ≠ 0) (hden' : den' ≠ 0)
    (same : (num / den : ℚ) = num' / den') : roundHalfEven num den = roundHalfEven num' den' := by
  have cross : den' * num = den * num' := by
    rw [div_eq_div_iff (by exact_mod_cast hden) (by exact_mod_cast hden')] at same
    have same : num * den' = num' * den := by exact_mod_cast same
    linarith
  calc roundHalfEven num den
      = roundHalfEven (den' * num) (den' * den) :=
        (roundHalfEven_mul_left _ _ (Nat.pos_of_ne_zero hden')).symm
    _ = roundHalfEven (den * num') (den * den') := by rw [cross, Nat.mul_comm den']
    _ = roundHalfEven num' den' := roundHalfEven_mul_left _ _ (Nat.pos_of_ne_zero hden)

/-- An integer is not rounded. -/
theorem roundHalfEven_of_eq {n : ℕ} (hden : den ≠ 0) (exact_ : (num / den : ℚ) = n) :
    roundHalfEven num den = n := by
  have whole : (num / den : ℚ) = (n : ℕ) / (1 : ℕ) := by simpa using exact_
  rw [roundHalfEven_congr hden Nat.one_ne_zero whole]
  simp [roundHalfEven, Nat.mod_one]

theorem scaled_den_ne_zero {base : ℕ} (hbase : base ≠ 0) (hden : den ≠ 0) (k : ℤ) :
    (scaled base num den k).2 ≠ 0 := by
  unfold scaled
  split
  · exact Nat.mul_ne_zero hden (pow_ne_zero _ hbase)
  · exact hden

/-- The value of a scaled quotient. -/
theorem scaled_ratio {base : ℕ} (hbase : base ≠ 0) (num den : ℕ) (k : ℤ) :
    ((scaled base num den k).1 / (scaled base num den k).2 : ℚ) =
      (num / den : ℚ) / (base : ℚ) ^ k := by
  have nonzero : (base : ℚ) ≠ 0 := by exact_mod_cast hbase
  unfold scaled
  split
  case isTrue pos =>
    obtain ⟨n, rfl⟩ := Int.eq_ofNat_of_zero_le pos
    simp only [Nat.pow_eq, Int.toNat_natCast, Nat.cast_mul, Nat.cast_pow, zpow_natCast]
    rw [div_div]
  case isFalse neg =>
    obtain ⟨n, eq⟩ := Int.eq_ofNat_of_zero_le (show 0 ≤ -k by omega)
    obtain rfl : k = -n := by omega
    simp only [Nat.pow_eq, neg_neg, Int.toNat_natCast, Nat.cast_mul, Nat.cast_pow, zpow_neg,
      zpow_natCast, div_inv_eq_mul]
    ring

theorem div_lt_iff_ratio (hden : den ≠ 0) (m : ℕ) : num / den < m ↔ (num / den : ℚ) < m := by
  rw [Nat.div_lt_iff_lt_mul (Nat.pos_of_ne_zero hden),
    div_lt_iff₀ (by exact_mod_cast Nat.pos_of_ne_zero hden)]
  exact_mod_cast Iff.rfl

end Quotients

namespace Double

/-! ### The unit of a size -/

/-- Numbers of the size of `x` are multiples of `2 ^ k`: the significand of `x` in this unit has 53
bits, or fewer if the unit is the smallest one. -/
structure Spaced (x : ℚ) (k : ℤ) : Prop where
  least : -1074 ≤ k
  lt : x < 2 ^ (k + 53)
  le : k = -1074 ∨ 2 ^ (k + 52) ≤ x

theorem two_zpow_le {i j : ℤ} (h : i ≤ j) : (2 : ℚ) ^ i ≤ 2 ^ j :=
  zpow_le_zpow_right₀ (by norm_num) h

/-- The unit is determined by the value. -/
theorem Spaced.unique {x : ℚ} {k l : ℤ} (hk : Spaced x k) (hl : Spaced x l) : k = l := by
  have not_lt {k l : ℤ} (hk : Spaced x k) (hl : Spaced x l) : ¬ k < l := by
    intro below
    have least := hk.least
    rcases hl.le with bottom | large
    · omega
    · have small := hk.lt
      have grows := two_zpow_le (show k + 53 ≤ l + 52 by omega)
      linarith
  have := not_lt hk hl
  have := not_lt hl hk
  omega

variable {num den num' den' : ℕ}

/-- The binary logarithms of numerator and denominator enclose the quotient. -/
theorem log2_bounds (hnum : num ≠ 0) (hden : den ≠ 0) :
    (2 : ℚ) ^ ((Nat.log2 num : ℤ) - Nat.log2 den - 1) ≤ num / den ∧
      (num / den : ℚ) < 2 ^ ((Nat.log2 num : ℤ) - Nat.log2 den + 1) := by
  have pos : (0 : ℚ) < den := by exact_mod_cast Nat.pos_of_ne_zero hden
  have num_le : (2 : ℚ) ^ (Nat.log2 num : ℤ) ≤ num := by
    rw [zpow_natCast]
    exact_mod_cast Nat.log2_self_le hnum
  have lt_num : (num : ℚ) < 2 ^ ((Nat.log2 num : ℤ) + 1) := by
    rw [← Nat.cast_succ, zpow_natCast]
    exact_mod_cast Nat.lt_log2_self
  have den_le : (2 : ℚ) ^ (Nat.log2 den : ℤ) ≤ den := by
    rw [zpow_natCast]
    exact_mod_cast Nat.log2_self_le hden
  have lt_den : (den : ℚ) < 2 ^ ((Nat.log2 den : ℤ) + 1) := by
    rw [← Nat.cast_succ, zpow_natCast]
    exact_mod_cast Nat.lt_log2_self
  constructor
  · rw [le_div_iff₀ pos]
    calc (2 : ℚ) ^ ((Nat.log2 num : ℤ) - Nat.log2 den - 1) * den
        ≤ 2 ^ ((Nat.log2 num : ℤ) - Nat.log2 den - 1) * 2 ^ ((Nat.log2 den : ℤ) + 1) :=
          mul_le_mul_of_nonneg_left lt_den.le (by positivity)
      _ = 2 ^ (Nat.log2 num : ℤ) := by
          rw [← zpow_add₀ (by norm_num)]
          congr 1
          ring
      _ ≤ num := num_le
  · rw [div_lt_iff₀ pos]
    calc (num : ℚ) < 2 ^ ((Nat.log2 num : ℤ) + 1) := lt_num
      _ = 2 ^ ((Nat.log2 num : ℤ) - Nat.log2 den + 1) * 2 ^ (Nat.log2 den : ℤ) := by
          rw [← zpow_add₀ (by norm_num)]
          congr 1
          ring
      _ ≤ 2 ^ ((Nat.log2 num : ℤ) - Nat.log2 den + 1) * den :=
          mul_le_mul_of_nonneg_left den_le (by positivity)

/-- The magnitude with the given unit that is nearest to a quotient. -/
def nearestAt (num den : ℕ) (k : ℤ) : ℕ :=
  let q := scaled 2 num den k
  min infinite ((k + 1074).toNat * hiddenBit + roundHalfEven q.1 q.2)

/-- **The nearest magnitude** is taken in the unit of the size of the value. -/
theorem exists_nearest_eq (hnum : num ≠ 0) (hden : den ≠ 0) :
    ∃ k, Spaced (num / den) k ∧ nearest num den = nearestAt num den k := by
  set least : ℤ := max ((Nat.log2 num : ℤ) - Nat.log2 den - 53) (-1074) with least_def
  obtain ⟨lower, upper⟩ := log2_bounds hnum hden
  have first : (scaled 2 num den least).1 / (scaled 2 num den least).2 < 2 * hiddenBit ↔
      (num / den : ℚ) < 2 ^ (least + 53) := by
    rw [div_lt_iff_ratio (scaled_den_ne_zero two_ne_zero hden least),
      scaled_ratio two_ne_zero, div_lt_iff₀ (by positivity)]
    have bits : ((2 * hiddenBit : ℕ) : ℚ) = 2 ^ (53 : ℤ) := by norm_num [hiddenBit]
    rw [bits, Nat.cast_ofNat, ← zpow_add₀ (by norm_num), add_comm (53 : ℤ)]
  have unfolded : nearest num den = nearestAt num den
      (if (scaled 2 num den least).1 / (scaled 2 num den least).2 < 2 * hiddenBit then least
      else least + 1) := by
    rw [nearest, if_neg hnum]
    rfl
  by_cases small : (num / den : ℚ) < 2 ^ (least + 53)
  · rw [if_pos (first.2 small)] at unfolded
    refine ⟨least, ⟨le_max_right .., small, ?_⟩, unfolded⟩
    rcases max_choice ((Nat.log2 num : ℤ) - Nat.log2 den - 53) (-1074) with normal | bottom
    · refine .inr (le_trans (two_zpow_le ?_) lower)
      omega
    · exact .inl bottom
  · rw [if_neg (mt first.1 small)] at unfolded
    have grows := two_zpow_le
      (show (Nat.log2 num : ℤ) - Nat.log2 den + 1 ≤ least + 1 + 53 by omega)
    refine ⟨least + 1, ⟨by omega, upper.trans_le grows, .inr ?_⟩, unfolded⟩
    rw [show least + 1 + 52 = least + 53 by ring]
    exact not_lt.1 small

theorem nearest_eq (hnum : num ≠ 0) (hden : den ≠ 0) {k : ℤ} (unit : Spaced (num / den) k) :
    nearest num den = nearestAt num den k := by
  obtain ⟨l, unit', eq⟩ := exists_nearest_eq hnum hden
  rw [eq, unit'.unique unit]

theorem nearestAt_congr (hden : den ≠ 0) (hden' : den' ≠ 0)
    (same : (num / den : ℚ) = num' / den') (k : ℤ) :
    nearestAt num den k = nearestAt num' den' k := by
  have rounded : roundHalfEven (scaled 2 num den k).1 (scaled 2 num den k).2 =
      roundHalfEven (scaled 2 num' den' k).1 (scaled 2 num' den' k).2 :=
    roundHalfEven_congr (scaled_den_ne_zero two_ne_zero hden k)
      (scaled_den_ne_zero two_ne_zero hden' k)
      (by rw [scaled_ratio two_ne_zero, scaled_ratio two_ne_zero, same])
  simp only [nearestAt, rounded]

theorem nearest_zero (den : ℕ) : nearest 0 den = 0 := by
  rw [nearest, if_pos rfl]

/-- **Quotients of one value have one nearest magnitude.** -/
theorem nearest_congr (hden : den ≠ 0) (hden' : den' ≠ 0)
    (same : (num / den : ℚ) = num' / den') : nearest num den = nearest num' den' := by
  by_cases hnum : num = 0
  · subst hnum
    obtain rfl : num' = 0 := by simpa [hden', eq_comm] using same
    rw [nearest_zero, nearest_zero]
  · have hnum' : num' ≠ 0 := by
      rintro rfl
      simp [hnum, hden] at same
    obtain ⟨k, unit, eq⟩ := exists_nearest_eq hnum hden
    rw [eq, nearest_eq hnum' hden' (same ▸ unit), nearestAt_congr hden hden' same]

/-! ### The value of a number -/

/-- The value of a finite number is spaced by its exponent, and the number is found again. -/
theorem spaced_of_shape {w s : ℕ} {e : ℤ} (shape : Shape.ofMagnitude w = .finite s e) :
    Spaced (s * 2 ^ e) e ∧ w = (e + 1074).toNat * hiddenBit + s ∧ w < infinite := by
  have scale (m : ℕ) : (2 : ℚ) ^ (e + m) = 2 ^ m * 2 ^ e := by
    rw [zpow_add₀ (by norm_num), zpow_natCast, mul_comm]
  have pos : (0 : ℚ) < 2 ^ e := by positivity
  have lt (small : s < 2 ^ 53) : (s * 2 ^ e : ℚ) < 2 ^ (e + 53) := by
    rw [show (53 : ℤ) = (53 : ℕ) from rfl, scale]
    exact mul_lt_mul_of_pos_right (by exact_mod_cast small) pos
  unfold Shape.ofMagnitude at shape
  split at shape
  case isFalse => split at shape <;> cases shape
  case isTrue finite =>
    split at shape <;> cases shape
    case isTrue small =>
      unfold hiddenBit at small
      exact ⟨⟨le_rfl, lt (by omega), .inl rfl⟩, by simp, finite⟩
    case isFalse large =>
      unfold hiddenBit at large lt scale ⊢
      refine ⟨⟨by omega, lt (by omega), .inr ?_⟩, by omega, finite⟩
      rw [show (52 : ℤ) = (52 : ℕ) from rfl, scale]
      refine mul_le_mul_of_nonneg_right ?_ pos.le
      push_cast
      norm_num

/-- **The value of a finite number is rounded to its own magnitude.** -/
theorem nearest_of_shape {w s : ℕ} {e : ℤ} (shape : Shape.ofMagnitude w = .finite s e)
    (hden : den ≠ 0) (value : (num / den : ℚ) = s * 2 ^ e) : nearest num den = w := by
  obtain ⟨unit, sum, finite⟩ := spaced_of_shape shape
  by_cases hnum : num = 0
  · subst hnum
    obtain rfl : s = 0 := by
      have : (2 : ℚ) ^ e ≠ 0 := by positivity
      simpa [this] using value.symm
    rcases unit.le with rfl | large
    · simp [nearest_zero, sum]
    · have : (0 : ℚ) < 2 ^ (e + 52) := by positivity
      simp at large
      linarith
  · rw [nearest_eq hnum hden (value ▸ unit)]
    have whole : ((scaled 2 num den e).1 / (scaled 2 num den e).2 : ℚ) = s := by
      rw [scaled_ratio two_ne_zero, value, Nat.cast_ofNat, mul_div_assoc,
        div_self (by positivity), mul_one]
    rw [nearestAt, roundHalfEven_of_eq (scaled_den_ne_zero two_ne_zero hden e) whole, ← sum]
    exact min_eq_right finite.le

end Double

end TracePattern
