import Mathlib.Data.Int.Notation
import Mathlib.Tactic.Common
import TracePattern.Proofs.Digits
import TracePattern.Proofs.Time.Calendar
import TracePattern.Time.Reader

/-!
# Instants read back

The strict reader finds an instant and its offset again in their text when the text shows them: the
local year has four digits, the offset no seconds, and a fraction of a second or more belongs to the
last second of a minute.  It never gives anything else.

* `Clock.Shown`: what the strict form can say of a date and a time of day;
* `Clock.ofInstant_toInstant`, `Clock.toInstant_ofInstant`: clocks and instants;
* `TimeReader.strict_text`, `TimeReader.strict_cases`: the reader on a text of this form, and what
  any text it accepts gives;
* `Zoned.readBack_iff`, `Instant.readBack_iff`: the result, for the predicate `Zoned.Writable`.
-/

namespace TracePattern

/-- The fraction is shorter than a second, or the instant is in a leap second, which follows the
last second of a minute. -/
def Instant.Regular (i : Instant) : Prop :=
  i.nanos < 1000000000 ∨ i.seconds % 60 = 59 ∧ i.nanos < 2000000000

instance (i : Instant) : Decidable i.Regular := inferInstanceAs (Decidable (_ ∨ _))

namespace Clock

/-! ### Clocks -/

/-- A date that exists and a time of day, which may be in a leap second. -/
structure Shown (c : Clock) : Prop where
  date : c.date.IsValid
  hour : c.hour < 24
  minute : c.minute < 60
  second : c.second < 60
  nanos : c.nanos < 1000000000 ∨ c.second = 59 ∧ c.nanos < 2000000000

theorem toInstant_ofInstant (i : Instant) (offset : ℤ) :
    (ofInstant i offset).toInstant offset = i := by
  obtain ⟨seconds, nanos⟩ := i
  simp only [toInstant, ofInstant, Date.toDays_ofDays, Instant.mk.injEq, and_true]
  omega

theorem ofInstant_toInstant {c : Clock} (shown : c.Shown) (offset : ℤ) :
    ofInstant (c.toInstant offset) offset = c := by
  obtain ⟨valid, hour, minute, second, -⟩ := shown
  obtain ⟨date, h, m, s, nanos⟩ := c
  dsimp only at valid hour minute second
  have total : date.toDays * 86400 + (h * 3600 + m * 60 + s : ℕ) - offset + offset =
      date.toDays * 86400 + (h * 3600 + m * 60 + s : ℕ) := by omega
  have days : (date.toDays * 86400 + (h * 3600 + m * 60 + s : ℕ)) / 86400 = date.toDays := by omega
  have ofDay : ((date.toDays * 86400 + (h * 3600 + m * 60 + s : ℕ)) % 86400).toNat =
      h * 3600 + m * 60 + s := by omega
  simp only [toInstant, ofInstant, total, days, ofDay, Date.ofDays_toDays valid, Clock.mk.injEq,
    true_and, and_true]
  omega

theorem shown_ofInstant {i : Instant} (regular : i.Regular) {offset : ℤ}
    (minutes : offset % 60 = 0) : (ofInstant i offset).Shown := by
  obtain ⟨seconds, nanos⟩ := i
  unfold Instant.Regular at regular
  dsimp only at regular
  refine ⟨Date.isValid_ofDays _, ?_, ?_, ?_, ?_⟩ <;>
  · simp only [ofInstant]
    omega

theorem Shown.regular {c : Clock} (shown : c.Shown) {offset : ℤ} (minutes : offset % 60 = 0) :
    (c.toInstant offset).Regular := by
  have nanos := shown.nanos
  simp only [Instant.Regular, toInstant]
  omega

end Clock

namespace TimeReader

variable {α β : Type} {x : Reader α} {f : α → Reader β} {cs rest : List Char}

/-! ### One reader after another -/

theorem run_bind_of_ok {a : α} (h : x.run cs = .ok (a, rest)) :
    (x >>= f).run cs = (f a).run rest := by
  rw [StateT.run_bind, h]
  rfl

theorem bind_cases {r : β × List Char} (h : (x >>= f).run cs = .ok r) :
    ∃ a rest, x.run cs = .ok (a, rest) ∧ (f a).run rest = .ok r := by
  rw [StateT.run_bind] at h
  cases first : x.run cs with
  | error e =>
    rw [first] at h
    cases h
  | ok p =>
    rw [first] at h
    exact ⟨p.1, p.2, rfl, h⟩

theorem run_lift_of_ok {e : Except TimeError α} {a : α} (h : e = .ok a) :
    (liftM e : Reader α).run cs = .ok (a, cs) := by
  rw [h]
  rfl

theorem lift_cases {e : Except TimeError α} {a : α}
    (h : (liftM e : Reader α).run cs = .ok (a, rest)) : e = .ok a := by
  cases e with
  | error e => cases h
  | ok b =>
    cases h
    rfl

/-! ### The parts of a text -/

theorem digits_padded {width n : ℕ} (pos : 0 < width) (fits : n < 10 ^ width) :
    (digits width).run (Digits.padded width n ++ rest) = .ok (n, rest) := by
  have length := Digits.length_padded pos fits
  have all : (Digits.padded width n).all Char.isDigit = true :=
    List.all_eq_true.2 fun c mem => Digits.isDigit_of_mem_padded mem
  have front : (Digits.padded width n ++ rest).take width = Digits.padded width n :=
    List.take_left' length
  have back : (Digits.padded width n ++ rest).drop width = rest := List.drop_left' length
  show digits width (Digits.padded width n ++ rest) = _
  simp only [digits, front, back, length, all, and_self, if_true, Digits.toNat_padded]

theorem expect_cons (c : Char) : (expect c).run (c :: rest) = .ok ((), rest) := by
  show expect c (c :: rest) = _
  simp [expect]

theorem pair_padded {n : ℕ} (fits : n < 100) :
    pair.run (Digits.padded 2 n ++ rest) = .ok (n, rest) := by
  obtain ⟨a, b, eq⟩ : ∃ a b, Digits.padded 2 n = [a, b] := by
    have length : (Digits.padded 2 n).length = 2 := Digits.length_padded (by decide) fits
    match Digits.padded 2 n, length with
    | [a, b], _ => exact ⟨a, b, rfl⟩
  have digits : ∀ c ∈ [a, b], c.isDigit = true := fun c mem =>
    Digits.isDigit_of_mem_padded (eq ▸ mem)
  have da := digits a (by simp)
  have db := digits b (by simp)
  have value : Digits.toNat [a, b] = n := by rw [← eq, Digits.toNat_padded]
  rw [eq]
  show pair (a :: b :: rest) = _
  simp [pair, da, db, value]

theorem someDigits_padded {most width n : ℕ} (pos : 0 < width) (le : width ≤ most)
    (fits : n < 10 ^ width) (ends : Digits.Ends rest) :
    (someDigits most).run (Digits.padded width n ++ rest) = .ok ((n, width), rest) := by
  have length := Digits.length_padded pos fits
  have front : ((Digits.padded width n ++ rest).take most).takeWhile Char.isDigit =
      Digits.padded width n := by
    rw [List.take_append, List.take_of_length_le (by omega)]
    exact congrArg Prod.fst
      (Digits.take_digits (fun c mem => Digits.isDigit_of_mem_padded mem) (ends.take _))
  have nonempty : Digits.padded width n ≠ [] := List.ne_nil_of_length_pos (by omega)
  obtain ⟨c, cs, eq⟩ := List.exists_cons_of_ne_nil nonempty
  have cons : Digits.padded width n ++ rest = c :: (cs ++ rest) := by
    rw [eq]
    rfl
  rw [cons] at front ⊢
  show someDigits most (c :: (cs ++ rest)) = _
  simp only [someDigits, front, if_neg nonempty, Digits.toNat_padded, length]
  rw [← cons, List.drop_left' length]

theorem fraction_point {width n : ℕ} (pos : 0 < width) (le : width ≤ 9) (fits : n < 10 ^ width)
    (ends : Digits.Ends rest) :
    fraction.run ('.' :: Digits.padded width n ++ rest) = .ok (n * 10 ^ (9 - width), rest) := by
  have read : someDigits 9 (Digits.padded width n ++ rest) = .ok ((n, width), rest) :=
    someDigits_padded pos le fits ends
  show fraction ('.' :: (Digits.padded width n ++ rest)) = _
  simp only [fraction, read]
  show Except.ok (n * 10 ^ (9 - width), rest.dropWhile Char.isDigit) = _
  rw [ends.dropWhile]

/-- The fraction is read, whether it has 0, 3, 6 or 9 digits. -/
theorem fraction_text {nanos : ℕ} (fits : nanos < 1000000000) (ends : Digits.Ends rest)
    (noPoint : rest.head? ≠ some '.') :
    fraction.run (fractionText nanos ++ rest) = .ok (nanos, rest) := by
  unfold fractionText
  split
  case isTrue none =>
    subst none
    show fraction rest = _
    unfold fraction
    split
    · simp at noPoint
    · rfl
  case isFalse =>
    split
    case isTrue millis =>
      rw [fraction_point (by decide) (by decide) (by omega) ends]
      congr 2
      omega
    case isFalse =>
      split
      case isTrue micros =>
        rw [fraction_point (by decide) (by decide) (by omega) ends]
        congr 2
        omega
      case isFalse =>
        rw [fraction_point (by decide) (by decide) fits ends]
        simp

/-- After a sign, hours and minutes. -/
theorem offset_sign {c : Char} (sign : c = '+' ∨ c = '-') {hours minutes : ℕ} (hh : hours < 100)
    (mm : minutes < 60) :
    (offset (expect ':')).run (c :: (Digits.padded 2 hours ++ ':' :: Digits.padded 2 minutes)) =
      .ok (if c = '+' then ((hours * 3600 + minutes * 60 : ℕ) : ℤ)
        else -((hours * 3600 + minutes * 60 : ℕ) : ℤ), []) := by
  have last : pair.run (Digits.padded 2 minutes ++ []) = .ok (minutes, []) :=
    pair_padded (by omega)
  rw [List.append_nil] at last
  have within : ¬ 60 ≤ minutes := by omega
  have start : (offset (expect ':')).run
      (c :: (Digits.padded 2 hours ++ ':' :: Digits.padded 2 minutes)) =
      (do
        let hours ← pair
        expect ':'
        let minutes ← pair
        if 60 ≤ minutes then throw .outOfRange
        let seconds : ℤ := (hours * 3600 + minutes * 60 : ℕ)
        return if c = '+' then seconds else -seconds : Reader ℤ).run
        (Digits.padded 2 hours ++ ':' :: Digits.padded 2 minutes) := by
    rcases sign with rfl | rfl <;> rfl
  rw [start, run_bind_of_ok (pair_padded hh), run_bind_of_ok (expect_cons ':'), run_bind_of_ok last]
  simp only [if_neg within]
  rfl

/-- What stands behind the time of day. -/
def zoneText (zulu : Bool) (o : ℤ) : List Char := if zulu && o = 0 then ['Z'] else offsetText o

/-- The offset is read at the end of a text. -/
theorem offset_text {o : ℤ} (minutes : o % 60 = 0) (day : o.natAbs < 86400) (zulu : Bool) :
    (offset (expect ':')).run (zoneText zulu o) = .ok (o, []) := by
  unfold zoneText
  split
  case isTrue zero =>
    have both : zulu = true ∧ o = 0 := by simpa using zero
    obtain rfl := both.2
    rfl
  case isFalse =>
    have whole : (o.natAbs + 30) / 60 = o.natAbs / 60 := by omega
    by_cases negative : o < 0
    · have value : -((o.natAbs / 60 / 60 * 3600 + o.natAbs / 60 % 60 * 60 : ℕ) : ℤ) = o := by omega
      simp only [offsetText, whole, if_pos negative]
      rw [offset_sign (.inr rfl) (by omega) (by omega), if_neg (by decide), value]
    · have value : ((o.natAbs / 60 / 60 * 3600 + o.natAbs / 60 % 60 * 60 : ℕ) : ℤ) = o := by omega
      simp only [offsetText, whole, if_neg negative]
      rw [offset_sign (.inl rfl) (by omega) (by omega), if_pos rfl, value]

/-- It ends the fraction. -/
theorem zoneText_eq_cons (zulu : Bool) (o : ℤ) :
    ∃ c cs, zoneText zulu o = c :: cs ∧ c.isDigit = false ∧ c ≠ '.' := by
  unfold zoneText
  split
  case isTrue => exact ⟨'Z', [], rfl, rfl, by decide⟩
  case isFalse =>
    refine ⟨_, _, rfl, ?_⟩
    split <;> exact ⟨rfl, by decide⟩

/-! ### The strict form -/

theorem timeOfDay_shown {c : Clock} (shown : c.Shown) :
    timeOfDay c.date c.hour c.minute (c.second + c.nanos / 1000000000) (c.nanos % 1000000000) =
      .ok c := by
  obtain ⟨-, hour, minute, second, nanos⟩ := shown
  obtain ⟨date, h, m, s, n⟩ := c
  dsimp only at hour minute second nanos ⊢
  by_cases leap : n < 1000000000
  · have whole : n / 1000000000 = 0 := by omega
    have part : n % 1000000000 = n := by omega
    rw [timeOfDay, whole, part, if_pos (by omega), if_neg (by omega), Nat.add_zero]
  · obtain rfl : s = 59 := by omega
    have whole : n / 1000000000 = 1 := by omega
    have part : 1000000000 + n % 1000000000 = n := by omega
    rw [timeOfDay, whole, part, if_pos (by omega), if_pos rfl]

/-- **The text of a clock is read**, with the offset behind it. -/
theorem strict_text {c : Clock} (shown : c.Shown) (year : 0 ≤ c.date.year ∧ c.date.year ≤ 9999)
    {o : ℤ} (minutes : o % 60 = 0) (day : o.natAbs < 86400) (zulu : Bool) :
    strict.run (c.text ++ zoneText zulu o) = .ok (⟨c.toInstant o, o⟩, []) := by
  obtain ⟨mark, others, suffix, noDigit, noPoint⟩ := zoneText_eq_cons zulu o
  have read := offset_text minutes day zulu
  rw [suffix] at read ⊢
  obtain ⟨-, month, -, day_le⟩ := shown.date
  have days := Date.daysIn_le c.date.year c.date.month
  have hours := shown.hour
  have minute := shown.minute
  have second := shown.second
  have nanos := shown.nanos
  have number : ((c.date.year.toNat : ℕ) : ℤ) = c.date.year := by omega
  have date : TimeReader.date (c.date.year.toNat : ℕ) c.date.month c.date.day = .ok c.date := by
    rw [number, TimeReader.date, if_pos shown.date]
  have text : c.text ++ mark :: others =
      Digits.padded 4 c.date.year.toNat ++ '-' :: (Digits.padded 2 c.date.month ++ '-' ::
        (Digits.padded 2 c.date.day ++ 'T' :: (Digits.padded 2 c.hour ++ ':' ::
          (Digits.padded 2 c.minute ++ ':' ::
            (Digits.padded 2 (c.second + c.nanos / 1000000000) ++
              (fractionText (c.nanos % 1000000000) ++ mark :: others)))))) := by
    simp [Clock.text, yearText, year]
  have letter (rest : List Char) : separator.run ('T' :: rest) = .ok ((), rest) := rfl
  -- every part is read up to where the next one begins
  rw [text, strict, run_bind_of_ok (digits_padded (by decide) (by omega)),
    run_bind_of_ok (expect_cons '-'),
    run_bind_of_ok (digits_padded (by decide) (by omega)),
    run_bind_of_ok (expect_cons '-'),
    run_bind_of_ok (digits_padded (by decide) (by omega)),
    run_bind_of_ok (run_lift_of_ok date),
    run_bind_of_ok (letter _),
    run_bind_of_ok (digits_padded (by decide) (by omega)),
    run_bind_of_ok (expect_cons ':'),
    run_bind_of_ok (digits_padded (by decide) (by omega)),
    run_bind_of_ok (expect_cons ':'),
    run_bind_of_ok (digits_padded (by decide) (by omega)),
    run_bind_of_ok (fraction_text (by omega) (Digits.Ends.cons noDigit) (by simpa using noPoint)),
    run_bind_of_ok (run_lift_of_ok (timeOfDay_shown shown)),
    run_bind_of_ok read]
  show (liftM (zoned c o) : Reader Zoned).run [] = _
  rw [run_lift_of_ok (a := ⟨c.toInstant o, o⟩) (by rw [zoned, if_pos day])]

/-! ### What is read -/

theorem digits_cases {n k : ℕ} (h : (digits n).run cs = .ok (k, rest)) :
    k < 10 ^ n ∧ ∀ c ∈ cs.take n, c.isDigit = true := by
  change digits n cs = _ at h
  simp only [digits] at h
  split at h
  case isFalse => cases h
  case isTrue front =>
    cases h
    have all := List.all_eq_true.1 front.2
    have below := Digits.toNat_lt all
    rw [front.1] at below
    exact ⟨below, all⟩

theorem someDigits_cases {most n count : ℕ}
    (h : (someDigits most).run cs = .ok ((n, count), rest)) : n < 10 ^ count ∧ count ≤ most := by
  change someDigits most cs = _ at h
  unfold someDigits at h
  split at h
  case h_1 => cases h
  case h_2 =>
    dsimp only at h
    split at h <;> cases h
    refine ⟨Digits.toNat_lt (List.all_eq_true.1 List.all_takeWhile), ?_⟩
    exact Nat.le_trans (List.takeWhile_prefix _).length_le (List.length_take_le ..)

theorem fraction_lt {n : ℕ} (h : fraction.run cs = .ok (n, rest)) : n < 1000000000 := by
  change fraction cs = _ at h
  unfold fraction at h
  split at h
  case h_1 cs =>
    cases read : someDigits 9 cs with
    | error e =>
      rw [read] at h
      cases h
    | ok r =>
      obtain ⟨⟨k, count⟩, after⟩ := r
      rw [read] at h
      cases h
      obtain ⟨below, few⟩ := someDigits_cases read
      have pos : 0 < 10 ^ (9 - count) := Nat.pow_pos (by decide)
      calc k * 10 ^ (9 - count)
          < 10 ^ count * 10 ^ (9 - count) := Nat.mul_lt_mul_of_pos_right below pos
        _ = 10 ^ 9 := by rw [← Nat.pow_add, Nat.add_sub_cancel' few]
        _ = 1000000000 := by decide
  case h_2 =>
    cases h
    exact Nat.zero_lt_succ _

/-- Only hours and minutes are read. -/
theorem offset_minutes {separator : Reader Unit} {o : ℤ}
    (h : (offset separator).run cs = .ok (o, rest)) : o % 60 = 0 := by
  obtain ⟨_, _, -, h⟩ := bind_cases h
  split at h
  case h_1 => cases h
  case h_2 c _ =>
    obtain ⟨-, _, -, h⟩ := bind_cases h
    split at h
    case isTrue =>
      cases h
      rfl
    case isFalse =>
      split at h
      case isFalse => cases h
      case isTrue =>
        obtain ⟨hours, _, -, h⟩ := bind_cases h
        obtain ⟨-, _, -, h⟩ := bind_cases h
        obtain ⟨minutes, _, -, h⟩ := bind_cases h
        dsimp only at h
        split at h
        case isTrue => cases h
        case isFalse =>
          split at h <;>
          · cases h
            omega

theorem timeOfDay_cases {d : Date} {hour minute second nanos : ℕ} {c : Clock}
    (h : timeOfDay d hour minute second nanos = .ok c) (valid : d.IsValid)
    (fits : nanos < 1000000000) : c.Shown ∧ c.date = d := by
  unfold timeOfDay at h
  split at h
  case isFalse => cases h
  case isTrue bounds =>
    split at h <;> cases h
    case isTrue => exact ⟨⟨valid, bounds.1, bounds.2.1, by simp, .inr ⟨rfl, by simp; omega⟩⟩, rfl⟩
    case isFalse ordinary =>
      exact ⟨⟨valid, bounds.1, bounds.2.1, by dsimp only; omega, .inl fits⟩, rfl⟩

theorem date_cases {year : ℤ} {month day : ℕ} {d : Date}
    (h : TimeReader.date year month day = .ok d) : d.IsValid ∧ d.year = year := by
  unfold TimeReader.date at h
  split at h
  case isFalse => cases h
  case isTrue valid =>
    cases h
    exact ⟨valid, rfl⟩

/-- **What the strict reader accepts** is shown by a clock. -/
theorem strict_cases {z : Zoned} (h : strict.run cs = .ok (z, rest)) :
    ∃ c : Clock, c.Shown ∧ (0 ≤ c.date.year ∧ c.date.year ≤ 9999) ∧ z.offset % 60 = 0 ∧
      z.offset.natAbs < 86400 ∧ z.instant = c.toInstant z.offset := by
  unfold strict at h
  -- what was read before is known only by its results: the date exists, the time of day is in range
  obtain ⟨year, _, hyear, h⟩ := bind_cases h
  obtain ⟨-, _, -, h⟩ := bind_cases h
  obtain ⟨month, _, -, h⟩ := bind_cases h
  obtain ⟨-, _, -, h⟩ := bind_cases h
  obtain ⟨day, _, -, h⟩ := bind_cases h
  obtain ⟨date, _, hdate, h⟩ := bind_cases h
  obtain ⟨-, _, -, h⟩ := bind_cases h
  obtain ⟨hour, _, -, h⟩ := bind_cases h
  obtain ⟨-, _, -, h⟩ := bind_cases h
  obtain ⟨minute, _, -, h⟩ := bind_cases h
  obtain ⟨-, _, -, h⟩ := bind_cases h
  obtain ⟨second, _, -, h⟩ := bind_cases h
  obtain ⟨nanos, _, hnanos, h⟩ := bind_cases h
  obtain ⟨clock, _, hclock, h⟩ := bind_cases h
  obtain ⟨offset, _, hoffset, h⟩ := bind_cases h
  obtain ⟨left, _, -, h⟩ := bind_cases h
  obtain ⟨valid, sameYear⟩ := date_cases (lift_cases hdate)
  obtain ⟨shown, sameDate⟩ := timeOfDay_cases (lift_cases hclock) valid (fraction_lt hnanos)
  have below := (digits_cases hyear).1
  have minutes := offset_minutes hoffset
  dsimp only at h
  split at h
  case isTrue =>
    have result := lift_cases h
    unfold zoned at result
    split at result
    case isFalse => cases result
    case isTrue day =>
      cases result
      exact ⟨clock, shown, by rw [sameDate]; omega, minutes, day, rfl⟩
  case isFalse => cases h

end TimeReader

/-! ### The text of an instant -/

/-- What the local clock shows. -/
def Zoned.clock (z : Zoned) : Clock := Clock.ofInstant z.instant z.offset

/-- The strict form has room for the instant and its offset: the local year has four digits, the
offset is in whole minutes and shorter than a day, and a fraction of a second or more belongs to the
last second of a minute.  Such a fraction at any other second makes an instant too, but its text
shows the next second. -/
structure Zoned.Writable (z : Zoned) : Prop where
  regular : z.instant.Regular
  year : 0 ≤ z.clock.date.year ∧ z.clock.date.year ≤ 9999
  minutes : z.offset % 60 = 0
  day : z.offset.natAbs < 86400

theorem length_le_utf8ByteSize (cs : List Char) : cs.length ≤ (String.ofList cs).utf8ByteSize := by
  show cs.length ≤ cs.utf8Encode.size
  induction cs with
  | nil => simp
  | cons c cs ih =>
    have pos := c.utf8Size_pos
    rw [List.utf8Encode_cons, ByteArray.size_append, List.utf8Encode_singleton,
      List.size_toByteArray, String.length_utf8EncodeChar, List.length_cons]
    omega

/-- A text of this form is never too short. -/
theorem Clock.length_text {c : Clock} (year : 0 ≤ c.date.year ∧ c.date.year ≤ 9999) :
    19 ≤ c.text.length := by
  have four := Digits.le_length_padded 4 c.date.year.toNat
  have two := Digits.le_length_padded 2
  have month := two c.date.month
  have day := two c.date.day
  have hour := two c.hour
  have minute := two c.minute
  have second := two (c.second + c.nanos / 1000000000)
  simp only [text, yearText, if_pos year, List.length_append, List.length_cons]
  omega

namespace Zoned

theorem text_eq (z : Zoned) (zulu : Bool) :
    z.text zulu = String.ofList (z.clock.text ++ TimeReader.zoneText zulu z.offset) := rfl

theorem strict_of_read? {s : String} {z : Zoned} (h : read? s = .ok z) :
    ∃ rest, TimeReader.strict.run s.toList = .ok (z, rest) := by
  unfold read? at h
  split at h
  case isTrue => cases h
  case isFalse =>
    cases read : TimeReader.strict.run s.toList with
    | error e =>
      rw [read] at h
      cases h
    | ok r =>
      rw [read] at h
      cases h
      exact ⟨r.2, rfl⟩

/-- What is read can be written. -/
theorem writable_of_read? {s : String} {z : Zoned} (h : read? s = .ok z) : z.Writable := by
  obtain ⟨rest, read⟩ := strict_of_read? h
  obtain ⟨c, shown, year, minutes, day, same⟩ := TimeReader.strict_cases read
  have clock : z.clock = c := by rw [Zoned.clock, same, Clock.ofInstant_toInstant shown]
  exact ⟨same ▸ shown.regular minutes, clock ▸ year, minutes, day⟩

theorem read?_text {z : Zoned} (writable : z.Writable) (zulu : Bool) :
    read? (z.text zulu) = .ok z := by
  obtain ⟨regular, year, minutes, day⟩ := writable
  have shown : z.clock.Shown := Clock.shown_ofInstant regular minutes
  have long : ¬ (z.text zulu).utf8ByteSize < 19 := by
    have bytes := length_le_utf8ByteSize (z.clock.text ++ TimeReader.zoneText zulu z.offset)
    rw [← text_eq, List.length_append] at bytes
    have := Clock.length_text year
    omega
  rw [read?, if_neg long, text_eq, String.toList_ofList,
    TimeReader.strict_text shown year minutes day zulu]
  simp only [Zoned.clock, Clock.toInstant_ofInstant]
  rfl

/-- The instant and its offset are read back from their text. -/
def ReadBack (z : Zoned) : Prop := read? (z.text false) = .ok z

/-- **An instant with an offset is read back from its text** just if the strict form has room for
it. -/
theorem readBack_iff (z : Zoned) : z.ReadBack ↔ z.Writable :=
  ⟨writable_of_read?, fun writable => read?_text writable false⟩

/-- A year outside the four digits is written with a sign, which the strict form does not allow. -/
theorem year_of_read?_text {z w : Zoned} {zulu : Bool} (h : read? (z.text zulu) = .ok w) :
    0 ≤ z.clock.date.year ∧ z.clock.date.year ≤ 9999 := by
  by_contra outside
  obtain ⟨sign, rest, text, noDigit⟩ : ∃ sign rest, (z.text zulu).toList = sign :: rest ∧
      sign.isDigit = false := by
    rw [text_eq, String.toList_ofList]
    simp only [Clock.text, yearText, if_neg outside, List.cons_append]
    refine ⟨_, _, rfl, ?_⟩
    split <;> rfl
  obtain ⟨_, read⟩ := strict_of_read? h
  obtain ⟨year, _, hyear, -⟩ := TimeReader.bind_cases read
  have digit := (TimeReader.digits_cases hyear).2 sign (by simp [text])
  rw [noDigit] at digit
  cases digit

end Zoned

namespace Instant

/-- The year in universal time. -/
def year (i : Instant) : ℤ := (Clock.ofInstant i 0).date.year

/-- The instant has a text of the strict form in universal time. -/
def Writable (i : Instant) : Prop := Zoned.Writable ⟨i, 0⟩

/-- The instant is read back from its text. -/
def ReadBack (i : Instant) : Prop := ∃ z, Zoned.read? i.text = .ok z ∧ z.instant = i

/-- **An instant is read back from its text** just if its year in universal time has four digits,
and a fraction of a second or more belongs to the last second of a minute. -/
theorem readBack_iff (i : Instant) : i.ReadBack ↔ i.Writable := by
  constructor
  · rintro ⟨z, read, rfl⟩
    exact ⟨(Zoned.writable_of_read? read).regular, Zoned.year_of_read?_text read, rfl, by simp⟩
  · intro writable
    exact ⟨⟨i, 0⟩, Zoned.read?_text writable true, rfl⟩

/-- Of the instants with a year of four digits those are read back whose fraction is shorter than a
second, or that are in a leap second. -/
theorem readBack_iff_regular {i : Instant} (year : 0 ≤ i.year ∧ i.year ≤ 9999) :
    i.ReadBack ↔ i.Regular := by
  rw [readBack_iff]
  exact ⟨fun writable => writable.regular, fun regular => ⟨regular, year, rfl, by simp⟩⟩

end Instant

end TracePattern
