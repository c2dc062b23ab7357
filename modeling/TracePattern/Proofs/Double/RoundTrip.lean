import TracePattern.Double.Text
import TracePattern.Proofs.Digits
import TracePattern.Proofs.Double.Nearest

/-!
# Floating-point numbers read back

The digits that are written for a finite number round to it, and the layout does not change the
decimal that is read.  So every number but a not-a-number is read back from its text; of those only
one is.

* `Decimal.Denotes`: a decimal that rounds to a magnitude;
* `Double.denotes_shortest`: the digits that are written;
* `Double.Numeral`, `Double.numeral_positional`: what is read from positional notation;
* `Double.read?_text`, `Double.read?_text_iff`: the results;
* `Double.read?_notNumber`: the two not-a-numbers that are ever read.
-/

namespace TracePattern

/-- The decimal is rounded to the magnitude `w`. -/
def Decimal.Denotes (d : Decimal) (w : ℕ) : Prop :=
  Double.magnitudeOfDecimal d.digits d.exponent = w

namespace Double

/-! ### Decimals of one value -/

/-- Ten times the digits with the exponent one less. -/
theorem magnitudeOfDecimal_mul_ten (n : ℕ) (e : ℤ) :
    magnitudeOfDecimal (10 * n) e = magnitudeOfDecimal n (e + 1) := by
  by_cases hn : n = 0
  · simp [hn, magnitudeOfDecimal]
  have point : ((Digits.ofNat (10 * n)).length : ℤ) + e = (Digits.ofNat n).length + (e + 1) := by
    rw [Digits.length_ofNat_mul_ten (Nat.pos_of_ne_zero hn)]
    push_cast
    ring
  have same : nearest (scaled 10 (10 * n) 1 (-e)).1 (scaled 10 (10 * n) 1 (-e)).2 =
      nearest (scaled 10 n 1 (-(e + 1))).1 (scaled 10 n 1 (-(e + 1))).2 := by
    have base : (10 : ℕ) ≠ 0 := by decide
    refine nearest_congr (scaled_den_ne_zero base one_ne_zero _)
      (scaled_den_ne_zero base one_ne_zero _) ?_
    rw [scaled_ratio base, scaled_ratio base]
    push_cast
    rw [neg_add, zpow_add₀ (by norm_num), zpow_neg_one, div_mul_eq_div_div, div_inv_eq_mul]
    ring
  simp only [magnitudeOfDecimal, if_neg hn, if_neg (Nat.mul_ne_zero (by decide : 10 ≠ 0) hn), point,
    same]

theorem magnitudeOfDecimal_mul_pow (n m : ℕ) (e : ℤ) :
    magnitudeOfDecimal (10 ^ m * n) e = magnitudeOfDecimal n (e + m) := by
  induction m generalizing e with
  | zero => simp
  | succ m ih =>
    rw [pow_succ', mul_assoc, magnitudeOfDecimal_mul_ten, ih]
    push_cast
    ring_nf

theorem denotes_trim (d : Decimal) {w : ℕ} : d.trim.Denotes w ↔ d.Denotes w := by
  fun_induction Decimal.trim d with
  | case1 d h ih =>
    obtain ⟨n, e⟩ := d
    have tenfold : 10 * (n / 10) = n := Nat.mul_div_cancel' (Nat.dvd_of_mod_eq_zero h.2)
    rw [ih, Decimal.Denotes, Decimal.Denotes, ← magnitudeOfDecimal_mul_ten, tenfold]
  | case2 => rfl

/-! ### The digits that are written -/

/-- The decimal that is found on a grid has been tried. -/
theorem denotes_onGrid {tie : Tie} {w num den : ℕ} {k : ℤ} {d : Decimal}
    (found : onGrid tie w num den k = some d) : d.Denotes w := by
  simp only [onGrid] at found
  split at found
  case isTrue low =>
    cases found
    exact low.1
  case isFalse =>
    split at found
    case isTrue high =>
      cases found
      exact high.2
    case isFalse => cases found

/-- Within the two early answers nothing but the nearest magnitude counts. -/
theorem magnitudeOfDecimal_eq_nearest {n : ℕ} {e : ℤ} (hn : n ≠ 0)
    (high : (Digits.ofNat n).length + e ≤ 310) (low : -330 ≤ (Digits.ofNat n).length + e) :
    magnitudeOfDecimal n e = nearest (scaled 10 n 1 (-e)).1 (scaled 10 n 1 (-e)).2 := by
  rw [magnitudeOfDecimal, if_neg hn]
  simp only [if_neg (not_lt.2 high), if_neg (not_lt.2 low)]

/-- The exponent of a finite number, and the size of its significand. -/
theorem shape_bounds {w s : ℕ} {e : ℤ} (shape : Shape.ofMagnitude w = .finite s e) :
    -1074 ≤ e ∧ e ≤ 971 ∧ s < 2 ^ 53 := by
  unfold Shape.ofMagnitude at shape
  split at shape
  case isFalse => split at shape <;> cases shape
  case isTrue finite =>
    unfold infinite at finite
    split at shape <;> cases shape
    case isTrue small =>
      unfold hiddenBit at small
      omega
    case isFalse large =>
      unfold hiddenBit at large ⊢
      omega

/-- All the digits of a whole number. -/
theorem denotes_exactDecimal_whole {w s k : ℕ} (shape : Shape.ofMagnitude w = .finite s k)
    (hs : s ≠ 0) : (exactDecimal s k).Denotes w := by
  obtain ⟨-, upper, small⟩ := shape_bounds shape
  have few : s * 2 ^ k < 10 ^ 310 :=
    calc s * 2 ^ k < 2 ^ 53 * 2 ^ k := Nat.mul_lt_mul_of_pos_right small (by positivity)
      _ ≤ 2 ^ 53 * 2 ^ 971 := Nat.mul_le_mul_left _ (Nat.pow_le_pow_right (by decide) (by omega))
      _ ≤ 10 ^ 310 := by decide +kernel
  have length_le := Digits.length_ofNat_le (by decide) few
  have length_pos := Digits.length_ofNat_pos (s * 2 ^ k)
  have all : exactDecimal s k = ⟨s * 2 ^ k, 0⟩ := by simp [exactDecimal]
  have near : magnitudeOfDecimal (s * 2 ^ k) 0 = _ :=
    magnitudeOfDecimal_eq_nearest (by positivity) (by omega) (by omega)
  rw [all]
  refine near.trans (nearest_of_shape shape (scaled_den_ne_zero (by decide) one_ne_zero _) ?_)
  rw [scaled_ratio (by decide)]
  simp

/-- All the digits of a number with a fraction of `m` bits. -/
theorem denotes_exactDecimal_fraction {w s m : ℕ} (shape : Shape.ofMagnitude w = .finite s (-m))
    (hs : s ≠ 0) : (exactDecimal s (-m)).Denotes w := by
  obtain ⟨lower, -, small⟩ := shape_bounds shape
  by_cases whole : m = 0
  · subst whole
    exact denotes_exactDecimal_whole shape hs
  have all : exactDecimal s (-m) = ⟨s * 5 ^ m, -m⟩ := by
    rw [exactDecimal, if_neg (by omega)]
    simp
  have few : s * 5 ^ m < 10 ^ (16 + m) :=
    calc s * 5 ^ m < 2 ^ 53 * 5 ^ m := Nat.mul_lt_mul_of_pos_right small (by positivity)
      _ ≤ 10 ^ 16 * 10 ^ m := Nat.mul_le_mul (by norm_num) (Nat.pow_le_pow_left (by decide) m)
      _ = 10 ^ (16 + m) := (pow_add ..).symm
  -- a fraction of no more than 1074 bits does not begin after the 330th decimal
  have low : (-330 : ℤ) ≤ (Digits.ofNat (s * 5 ^ m)).length + -(m : ℤ) := by
    have length_pos := Digits.length_ofNat_pos (s * 5 ^ m)
    by_cases short : m ≤ 331
    · omega
    · obtain ⟨l, rfl⟩ : ∃ l, m = 331 + l := ⟨m - 331, by omega⟩
      have many : 10 ^ l ≤ s * 5 ^ (331 + l) :=
        calc 10 ^ l = 2 ^ l * 5 ^ l := Nat.mul_pow 2 5 l
          _ ≤ 5 ^ 331 * 5 ^ l := Nat.mul_le_mul_right _ <|
              (Nat.pow_le_pow_right (by decide) (show l ≤ 743 by omega)).trans (by decide +kernel)
          _ = 5 ^ (331 + l) := (pow_add ..).symm
          _ ≤ s * 5 ^ (331 + l) := Nat.le_mul_of_pos_left _ (Nat.pos_of_ne_zero hs)
      have := Digits.lt_length_ofNat many
      omega
  have length_le := Digits.length_ofNat_le (by omega) few
  have near : magnitudeOfDecimal (s * 5 ^ m) (-m) = _ :=
    magnitudeOfDecimal_eq_nearest (by positivity) (by omega) low
  rw [all]
  refine near.trans (nearest_of_shape shape (scaled_den_ne_zero (by decide) one_ne_zero _) ?_)
  rw [scaled_ratio (by decide), neg_neg, zpow_natCast, zpow_neg, zpow_natCast]
  push_cast
  rw [show (10 : ℚ) = 2 * 5 by norm_num, mul_pow]
  field_simp

/-- **All the digits of a finite number round to it.** -/
theorem denotes_exactDecimal {w s : ℕ} {e : ℤ} (shape : Shape.ofMagnitude w = .finite s e)
    (hs : s ≠ 0) : (exactDecimal s e).Denotes w := by
  rcases Int.eq_nat_or_neg e with ⟨n, rfl | rfl⟩
  · exact denotes_exactDecimal_whole shape hs
  · exact denotes_exactDecimal_fraction shape hs

/-- **The digits that are written for a finite number round to it.** -/
theorem denotes_shortest (tie : Tie) {w s : ℕ} {e : ℤ} (shape : Shape.ofMagnitude w = .finite s e)
    (hs : s ≠ 0) : (shortest tie w s e).Denotes w := by
  rw [shortest, denotes_trim]
  set q := scaled 2 s 1 (-e)
  set point := decimalPoint q.1 q.2
  cases found : (List.range 17).findSome? fun (n : ℕ) => onGrid tie w q.1 q.2 (point - (n + 1)) with
  | none => exact denotes_exactDecimal shape hs
  | some d =>
    obtain ⟨n, -, hit⟩ := List.exists_of_findSome?_eq_some found
    exact denotes_onGrid hit

/-! ### Positional notation -/

/-- The text begins with a digit and is a decimal that rounds to the magnitude `w`. -/
structure Numeral (t : String) (w : ℕ) : Prop where
  head : ∃ c, t.toList.head? = some c ∧ c.isDigit = true
  value : ∃ d, readDecimal? t.toList = some d ∧ d.Denotes w

/-- Digits with a point among them. -/
theorem readDecimal?_point {whole fraction : List Char} (h : whole ++ fraction ≠ [])
    (digits : ∀ c ∈ whole ++ fraction, c.isDigit = true) :
    readDecimal? (whole ++ '.' :: fraction) =
      some ⟨Digits.toNat (whole ++ fraction), -fraction.length⟩ := by
  have front := Digits.take_digits (fun c mem => digits c (List.mem_append_left _ mem))
    (show Digits.Ends ('.' :: fraction) from Digits.Ends.cons rfl)
  have back := Digits.take_digits (fun c mem => digits c (List.mem_append_right _ mem))
    Digits.Ends.nil
  rw [List.append_nil] at back
  simp only [readDecimal?, front, back, if_neg h, readExponent?, Option.map_some, zero_sub]

/-- Digits without a point. -/
theorem readDecimal?_digits {ds : List Char} (h : ds ≠ [])
    (digits : ∀ c ∈ ds, c.isDigit = true) : readDecimal? ds = some ⟨Digits.toNat ds, 0⟩ := by
  have all := Digits.take_digits digits Digits.Ends.nil
  rw [List.append_nil] at all
  simp [readDecimal?, all, h, readExponent?]

theorem isDigit_of_mem_zeros {n : ℕ} {c : Char} (mem : c ∈ List.replicate n '0') :
    c.isDigit = true := by
  rw [List.eq_of_mem_replicate mem]
  rfl

/-- **The digits of a number in positional notation** are read as the same decimal. -/
theorem numeral_positional {n w : ℕ} {e : ℤ} (denotes : Decimal.Denotes ⟨n, e⟩ w) :
    Numeral (positional plainStyle (Digits.ofNat n) ((Digits.ofNat n).length + e)) w := by
  obtain ⟨ds, hds⟩ : ∃ ds, ds = Digits.ofNat n := ⟨_, rfl⟩
  have value : Digits.toNat ds = n := by rw [hds, Digits.toNat_ofNat]
  have digits : ∀ c ∈ ds, c.isDigit = true := fun c mem =>
    Digits.isDigit_of_mem_ofNat (hds ▸ mem)
  obtain ⟨first, others, split⟩ := List.exists_cons_of_ne_nil (hds ▸ Digits.ofNat_ne_nil n)
  have head : first.isDigit = true := digits first (by simp [split])
  rw [← hds]
  unfold positional
  -- the point is left of the digits, among them, or right of them
  split
  case isTrue small =>
    obtain ⟨k, eq⟩ : ∃ k : ℕ, (k : ℤ) = -(ds.length + e) := ⟨(-(ds.length + e)).toNat, by omega⟩
    refine ⟨⟨'0', by simp, rfl⟩, ⟨n, e⟩, ?_, denotes⟩
    have read := @readDecimal?_point ['0'] (List.replicate k '0' ++ ds) (by simp) (by
      intro c mem
      simp only [List.singleton_append, List.mem_cons, List.mem_append] at mem
      rcases mem with rfl | zero | digit
      · rfl
      · exact isDigit_of_mem_zeros zero
      · exact digits c digit)
    have number : Digits.toNat (['0'] ++ (List.replicate k '0' ++ ds)) = n := by
      rw [Digits.toNat_append, Digits.toNat_append, Digits.toNat_zeros, value]
      simp [Digits.toNat, Nat.ofDigitChars_cons]
    have exponent : -((List.replicate k '0' ++ ds).length : ℤ) = e := by
      simp only [List.length_append, List.length_replicate]
      omega
    rw [number, exponent] at read
    rw [← eq]
    simpa using read
  case isFalse large =>
    split
    case isTrue inside =>
      obtain ⟨k, eq⟩ : ∃ k : ℕ, (k : ℤ) = ds.length + e := ⟨(ds.length + e).toNat, by omega⟩
      obtain ⟨j, rfl⟩ : ∃ j, k = j + 1 := ⟨k - 1, by omega⟩
      rw [← eq]
      refine ⟨⟨first, by simp [split], head⟩, ⟨n, e⟩, ?_, denotes⟩
      have whole : ds.take (j + 1) ++ ds.drop (j + 1) = ds := List.take_append_drop ..
      have read := @readDecimal?_point (ds.take (j + 1)) (ds.drop (j + 1)) (by simp [split])
        (by rwa [whole])
      have exponent : -((ds.drop (j + 1)).length : ℤ) = e := by
        rw [List.length_drop]
        omega
      rw [whole, value, exponent] at read
      simpa using read
    case isFalse outside =>
      obtain ⟨k, rfl⟩ := Int.eq_ofNat_of_zero_le (show 0 ≤ e by omega)
      refine ⟨⟨first, by simp [split], head⟩, ⟨10 ^ k * n, 0⟩, ?_, ?_⟩
      · have read := @readDecimal?_digits (ds ++ List.replicate k '0') (by simp [split]) (by
          intro c mem
          rcases List.mem_append.1 mem with digit | zero
          · exact digits c digit
          · exact isDigit_of_mem_zeros zero)
        have number : Digits.toNat (ds ++ List.replicate k '0') = 10 ^ k * n := by
          rw [Digits.toNat_append, Digits.toNat_zeros, value, List.length_replicate, Nat.add_zero]
        rw [number] at read
        simpa [plainStyle] using read
      · rw [Decimal.Denotes, magnitudeOfDecimal_mul_pow, zero_add]
        exact denotes

/-! ### Numbers with their sign -/

/-- No name of a number begins with a digit. -/
theorem Numeral.readMagnitude? {t : String} {w : ℕ} (numeral : Numeral t w) :
    readMagnitude? t.toList = some w := by
  obtain ⟨⟨c, first, digit⟩, d, read, denotes⟩ := numeral
  obtain ⟨cs, toList⟩ : ∃ cs, t.toList = c :: cs := List.head?_eq_some_iff.1 first
  have same : c.toLower = c := by
    simp only [Char.isDigit, ge_iff_le, Bool.and_eq_true, decide_eq_true_eq] at digit
    have below : ¬ (c.val ≥ 65 ∧ c.val ≤ 90) := fun upper =>
      absurd (UInt32.le_trans upper.1 digit.2) (by decide)
    exact dif_neg below
  have unnamed (name : String) {letter : Char} {rest : List Char}
      (letters : name.toList = letter :: rest) (noDigit : letter.isDigit = false) :
      String.ofList (t.toList.map Char.toLower) ≠ name := by
    rintro rfl
    rw [String.toList_ofList, toList, List.map_cons, same] at letters
    rw [(List.cons.inj letters).1, noDigit] at digit
    cases digit
  have inf := unnamed "inf" rfl rfl
  have infinity := unnamed "infinity" rfl rfl
  have nan := unnamed "nan" rfl rfl
  simp only [Double.readMagnitude?, inf, infinity, nan, or_self, if_false, read, Option.map_some]
  exact congrArg some denotes

/-- **The text of a finite number** is read as its magnitude. -/
theorem numeral_finiteText {w s : ℕ} {e : ℤ} (shape : Shape.ofMagnitude w = .finite s e) :
    Numeral (finiteText plainStyle w s e) w := by
  unfold finiteText
  split
  case isTrue zero =>
    subst zero
    obtain ⟨unit, sum, -⟩ := spaced_of_shape shape
    have least : e = -1074 := by
      rcases unit.le with bottom | large
      · exact bottom
      · have : (0 : ℚ) < 2 ^ (e + 52) := by positivity
        rw [Nat.cast_zero, zero_mul] at large
        linarith
    obtain rfl : w = 0 := by simpa [least] using sum
    exact ⟨⟨'0', rfl, rfl⟩, ⟨0, 0⟩, rfl, rfl⟩
  case isFalse nonzero =>
    exact numeral_positional (denotes_shortest plainStyle.tie shape nonzero)

theorem magnitude_of_infinite {d : Double} (unbounded : d.shape = .infinite) :
    d.magnitude = infinite := by
  unfold shape Shape.ofMagnitude at unbounded
  split at unbounded
  · split at unbounded <;> cases unbounded
  · split at unbounded
    · assumption
    · cases unbounded

/-- The sign is read first, and what follows it as the magnitude. -/
theorem read?_signed {d : Double} {t : String} (unsigned : Digits.sign t.toList = (false, t.toList))
    (magnitude : readMagnitude? t.toList = some d.magnitude) :
    read? ((if d.isNegative then "-" else "") ++ t) = some d := by
  cases negative : d.isNegative with
  | true =>
    have sign : Digits.sign ("-" ++ t).toList = (true, t.toList) := by
      rw [String.toList_append]
      rfl
    rw [if_pos rfl, read?, sign, magnitude, Option.map_some, ← negative, ofMagnitude_magnitude]
  | false =>
    have plain : (if false = true then "-" else "") ++ t = t := by simp
    rw [plain, read?, unsigned, magnitude, Option.map_some, ← negative, ofMagnitude_magnitude]

/-- **A number is read back from its text.** -/
theorem read?_text {d : Double} (number : d.shape ≠ .notNumber) : read? d.text = some d := by
  unfold text
  cases shape : d.shape with
  | finite s e =>
    have numeral : Numeral (finiteText plainStyle d.magnitude s e) d.magnitude :=
      numeral_finiteText shape
    exact read?_signed (Digits.sign_of_digit numeral.head) numeral.readMagnitude?
  | infinite =>
    refine read?_signed rfl ?_
    rw [magnitude_of_infinite shape]
    decide
  | notNumber => exact absurd shape number

/-! ### Not-a-numbers -/

/-- The not-a-number that is read from its name. -/
def nan : Double := ⟨0x7ff8000000000000⟩

/-- The not-a-number that is read from its name after a minus sign. -/
def negativeNan : Double := ⟨0xfff8000000000000⟩

/-- **A number is read back from its text** unless it is a not-a-number other than `nan`. -/
theorem read?_text_iff (d : Double) : read? d.text = some d ↔ (d.shape = .notNumber → d = nan) := by
  by_cases shape : d.shape = .notNumber
  · have name : read? d.text = some nan := by
      simp only [text, shape]
      decide
    simp [name, shape, eq_comm]
  · simp [read?_text shape, shape]

theorem magnitudeOfDecimal_le (n : ℕ) (e : ℤ) : magnitudeOfDecimal n e ≤ infinite := by
  have nearest_le (num den : ℕ) : nearest num den ≤ infinite := by
    unfold nearest
    split
    · exact Nat.zero_le _
    · exact min_le_left ..
  simp only [magnitudeOfDecimal]
  split
  · exact Nat.zero_le _
  · split
    · exact le_rfl
    · split
      · exact Nat.zero_le _
      · exact nearest_le ..

/-- **Only two not-a-numbers are read**, whatever the text. -/
theorem read?_notNumber {s : String} {d : Double} (read : read? s = some d)
    (shape : d.shape = .notNumber) : d = nan ∨ d = negativeNan := by
  obtain ⟨w, magnitude, rfl⟩ := Option.map_eq_some_iff.1 read
  have number {w : ℕ} {negative : Bool} (le : w ≤ infinite) :
      (ofMagnitude negative w).shape ≠ .notNumber := by
    rw [Double.shape, magnitude_ofMagnitude (lt_of_le_of_lt le (by decide)), Shape.ofMagnitude]
    rcases le.lt_or_eq with below | rfl
    · rw [if_pos below]
      split <;> simp
    · simp
  simp only [readMagnitude?] at magnitude
  split at magnitude
  case isTrue =>
    cases magnitude
    exact absurd shape (number le_rfl)
  case isFalse =>
    split at magnitude
    case isTrue =>
      cases magnitude
      cases (Digits.sign s.toList).1
      · exact .inl rfl
      · exact .inr rfl
    case isFalse =>
      obtain ⟨decimal, -, rfl⟩ := Option.map_eq_some_iff.1 magnitude
      exact absurd shape (number (magnitudeOfDecimal_le ..))

end Double

end TracePattern
