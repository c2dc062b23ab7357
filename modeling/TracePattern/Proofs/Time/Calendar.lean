import Mathlib.Data.Int.Notation
import Mathlib.Tactic.Common
import TracePattern.Time.Calendar

/-!
# Dates and day numbers

The two conversions of the calendar undo each other.  A day of an era is found by its century, the
cycle of four years, the year and the day, all counted from zero and from March; the last year of a
cycle has a day more, unless it ends a century that does not end the era.

* `Date.InEra`: such a place in an era;
* `Date.ofDays_place`: the date of a place;
* `Date.isValid_ofDays`, `Date.toDays_ofDays`, `Date.ofDays_toDays`: the results.
-/

namespace TracePattern.Date

/-- Century, cycle of four years, year and day within an era. -/
structure InEra (c q r s : ℤ) : Prop where
  century : 0 ≤ c ∧ c ≤ 3
  cycle : 0 ≤ q ∧ q ≤ 24
  year : 0 ≤ r ∧ r ≤ 3
  day : 0 ≤ s ∧ s ≤ 365
  leap : s = 365 → r = 3 ∧ (q ≤ 23 ∨ c = 3)

/-- The number of a day within its era. -/
def dayOfEra (c q r s : ℤ) : ℤ := 36524 * c + 1461 * q + 365 * r + s

/-- Every day of an era has its place. -/
theorem exists_inEra {d : ℤ} (first : 0 ≤ d) (last : d < 146097) :
    ∃ c q r s, InEra c q r s ∧ d = dayOfEra c q r s := by
  unfold dayOfEra
  obtain ⟨c, hc⟩ : ∃ c, c = min (d / 36524) 3 := ⟨_, rfl⟩
  obtain ⟨rest, hrest⟩ : ∃ rest, rest = d - 36524 * c := ⟨_, rfl⟩
  obtain ⟨r, hr⟩ : ∃ r, r = min (rest % 1461 / 365) 3 := ⟨_, rfl⟩
  exact ⟨c, rest / 1461, r, rest % 1461 - 365 * r,
    ⟨by omega, by omega, by omega, by omega, by omega⟩, by omega⟩

variable {c q r s : ℤ}

theorem InEra.dayOfEra_lt (h : InEra c q r s) :
    0 ≤ dayOfEra c q r s ∧ dayOfEra c q r s < 146097 := by
  obtain ⟨hc, hq, hr, hs, leap⟩ := h
  unfold dayOfEra
  omega

/-- The year of a day of the era. -/
theorem InEra.yearOfEra (h : InEra c q r s) {d : ℤ} (hd : d = dayOfEra c q r s) :
    (d - d / 1460 + d / 36524 - d / 146096) / 365 = 100 * c + 4 * q + r := by
  obtain ⟨hc, hq, hr, hs, leap⟩ := h
  unfold dayOfEra at hd
  -- only the last day of the era is one too many for its century
  have centuries : d / 36524 - d / 146096 = c := by
    by_cases last : d = 146096
    · omega
    · have : d / 146096 = 0 := by omega
      have : 1461 * q + 365 * r + s < 36524 := by omega
      omega
  -- a cycle is a day longer than the divisor, so the quotient may be early, but not by New Year
  have cycles : d / 1460 = 25 * c + q ∨ d / 1460 = 25 * c + q + 1 := by omega
  have start : s = 0 → d / 1460 = 25 * c + q := by omega
  have finish : s = 365 → d / 1460 = 25 * c + q + 1 := by omega
  omega

/-- The days of the era before a year. -/
theorem InEra.yearStart (h : InEra c q r s) :
    365 * (100 * c + 4 * q + r) + (100 * c + 4 * q + r) / 4 - (100 * c + 4 * q + r) / 100 =
      dayOfEra c q r 0 := by
  obtain ⟨hc, hq, hr, -, -⟩ := h
  unfold dayOfEra
  omega

/-! ### Months -/

/-- The days of a year before a month, both counted from March. -/
def monthStart (m : ℤ) : ℤ := (153 * m + 2) / 5

/-- The month of a day of the year. -/
def monthOf (s : ℤ) : ℤ := (5 * s + 2) / 153

/-- The month in the civil year, counted from one. -/
def civil (m : ℤ) : ℤ := if m < 10 then m + 3 else m - 9

theorem monthOf_spec (day : 0 ≤ s ∧ s ≤ 365) :
    (0 ≤ monthOf s ∧ monthOf s ≤ 11) ∧ monthStart (monthOf s) ≤ s ∧
      s < monthStart (monthOf s + 1) := by
  unfold monthOf monthStart
  omega

theorem monthOf_eq {m : ℤ} (first : monthStart m ≤ s) (last : s < monthStart (m + 1)) :
    monthOf s = m := by
  unfold monthStart at first last
  unfold monthOf
  omega

/-- The length of a month. February is the last one. -/
theorem daysIn_civil {m : ℤ} (month : 0 ≤ m ∧ m ≤ 11) (year : ℤ) :
    (daysIn year (civil m).toNat : ℤ) =
      if m = 11 then (if isLeap year then 29 else 28) else monthStart (m + 1) - monthStart m := by
  by_cases february : m = 11
  · subst february
    show ((if isLeap year then 29 else 28 : ℕ) : ℤ) = if isLeap year then 29 else 28
    split <;> rfl
  · rw [if_neg february]
    obtain rfl | rfl | rfl | rfl | rfl | rfl | rfl | rfl | rfl | rfl | rfl : m = 0 ∨ m = 1 ∨ m = 2 ∨
        m = 3 ∨ m = 4 ∨ m = 5 ∨ m = 6 ∨ m = 7 ∨ m = 8 ∨ m = 9 ∨ m = 10 := by omega
    all_goals rfl

theorem daysIn_le (year : ℤ) (month : ℕ) : daysIn year month ≤ 31 := by
  unfold daysIn
  split
  · split <;> decide
  · split <;> decide

/-! ### The date of a place -/

/-- The civil year begins two months before the end of the year. -/
def civilYear (era c q r m : ℤ) : ℤ :=
  100 * c + 4 * q + r + era * 400 + (if civil m ≤ 2 then 1 else 0)

/-- The date of a place in an era. -/
def ofPlace (era c q r s : ℤ) : Date :=
  let m := monthOf s
  ⟨civilYear era c q r m, (civil m).toNat, (s - monthStart m + 1).toNat⟩

/-- February is in a leap year where the place has room for a 366th day. -/
theorem InEra.isLeap_iff (h : InEra c q r s) (era : ℤ) :
    isLeap (100 * c + 4 * q + r + era * 400 + 1) = true ↔ r = 3 ∧ (q ≤ 23 ∨ c = 3) := by
  obtain ⟨hc, hq, hr, -, -⟩ := h
  simp only [isLeap, Bool.and_eq_true, Bool.or_eq_true, decide_eq_true_eq]
  omega

theorem ofDays_place (h : InEra c q r s) (era : ℤ) :
    ofDays (era * 146097 + dayOfEra c q r s - 719468) = ofPlace era c q r s := by
  obtain ⟨d, hd⟩ : ∃ d, d = dayOfEra c q r s := ⟨_, rfl⟩
  have bounds := h.dayOfEra_lt
  have whole : (era * 146097 + d - 719468 + 719468) / 146097 = era := by omega
  have part : (era * 146097 + d - 719468 + 719468) % 146097 = d := by omega
  have day : d - dayOfEra c q r 0 = s := by
    unfold dayOfEra at *
    omega
  rw [← hd]
  simp only [ofDays, whole, part, h.yearOfEra hd, h.yearStart, day]
  rfl

theorem toDays_ofPlace (h : InEra c q r s) (era : ℤ) :
    toDays (ofPlace era c q r s) = era * 146097 + dayOfEra c q r s - 719468 := by
  obtain ⟨month, first, last⟩ := monthOf_spec h.day
  have start := h.yearStart
  obtain ⟨hc, hq, hr, hs, -⟩ := h
  obtain ⟨m, hm⟩ : ∃ m, m = monthOf s := ⟨_, rfl⟩
  obtain ⟨y, hy⟩ : ∃ y, y = 100 * c + 4 * q + r := ⟨_, rfl⟩
  rw [← hm] at month first
  rw [← hy] at start
  have shifted : (((civil m).toNat + 9) % 12 : ℕ) = m := by
    unfold civil
    split <;> omega
  have year : (if (civil m).toNat ≤ 2 then
      y + era * 400 + (if civil m ≤ 2 then 1 else 0) - 1
      else y + era * 400 + (if civil m ≤ 2 then 1 else 0)) = y + era * 400 := by
    unfold civil
    split <;> split <;> omega
  have whole : (y + era * 400) / 400 = era := by omega
  have part : (y + era * 400) % 400 = y := by omega
  have day : ((s - monthStart m + 1).toNat : ℤ) = s - monthStart m + 1 := by omega
  unfold dayOfEra at start ⊢
  simp only [toDays, ofPlace, civilYear, ← hm, ← hy, year, whole, part, shifted, day]
  unfold monthStart
  omega

/-- The length of February fits the room for a 366th day. -/
theorem InEra.daysIn_february (h : InEra c q r s) (era : ℤ) :
    (daysIn (civilYear era c q r 11) 2 : ℤ) = if r = 3 ∧ (q ≤ 23 ∨ c = 3) then 29 else 28 := by
  have length := daysIn_civil (m := 11) (by decide) (civilYear era c q r 11)
  rw [if_pos rfl] at length
  have year : civilYear era c q r 11 = 100 * c + 4 * q + r + era * 400 + 1 := rfl
  rw [year] at length ⊢
  refine length.trans (if_congr (h.isLeap_iff era) rfl rfl)

theorem isValid_ofPlace (h : InEra c q r s) (era : ℤ) : (ofPlace era c q r s).IsValid := by
  obtain ⟨month, first, last⟩ := monthOf_spec h.day
  obtain ⟨m, hm⟩ : ∃ m, m = monthOf s := ⟨_, rfl⟩
  have february := h.daysIn_february era
  have length := daysIn_civil month (civilYear era c q r m)
  have leap := h.leap
  have day := h.day
  simp only [IsValid, ofPlace]
  rw [← hm] at month first last length ⊢
  have number : 1 ≤ (civil m).toNat ∧ (civil m).toNat ≤ 12 := by
    unfold civil
    split <;> omega
  refine ⟨number.1, number.2, by omega, ?_⟩
  by_cases last_month : m = 11
  · subst last_month
    have start : monthStart 11 = 337 := rfl
    show (s - monthStart 11 + 1).toNat ≤ daysIn (civilYear era c q r 11) 2
    split at february <;> omega
  · rw [if_neg last_month] at length
    omega

/-- A day of a month has its place in the year. -/
theorem InEra.dayOfYear (h : InEra c q r s) {era m : ℤ} {day : ℕ} (month : 0 ≤ m ∧ m ≤ 11)
    (first : 1 ≤ day) (last : day ≤ daysIn (civilYear era c q r m) (civil m).toNat) :
    InEra c q r (monthStart m + day - 1) ∧ monthOf (monthStart m + day - 1) = m := by
  have february := h.daysIn_february era
  have length := daysIn_civil month (civilYear era c q r m)
  obtain ⟨hc, hq, hr, -, -⟩ := h
  by_cases last_month : m = 11
  · subst last_month
    have start : monthStart 11 = 337 := rfl
    have after : monthStart (11 + 1) = 367 := rfl
    change day ≤ daysIn (civilYear era c q r 11) 2 at last
    refine ⟨⟨hc, hq, hr, ?_, ?_⟩, monthOf_eq (by omega) ?_⟩ <;>
    · split at february <;> omega
  · rw [if_neg last_month] at length
    have before : monthStart m + day - 1 < monthStart (m + 1) := by omega
    refine ⟨⟨hc, hq, hr, ?_, ?_⟩, monthOf_eq (by omega) before⟩ <;>
    · unfold monthStart at *
      omega

/-- Every date that exists has its place. -/
theorem exists_ofPlace {d : Date} (valid : d.IsValid) :
    ∃ era c q r s, InEra c q r s ∧ d = ofPlace era c q r s := by
  obtain ⟨year, month, day⟩ := d
  obtain ⟨january, december, first, last⟩ := valid
  dsimp only at january december first last
  obtain ⟨m, hm⟩ : ∃ m : ℤ, m = ((month + 9) % 12 : ℕ) := ⟨_, rfl⟩
  have number : (civil m).toNat = month := by
    unfold civil
    split <;> omega
  obtain ⟨y, hy⟩ : ∃ y, y = year - (if civil m ≤ 2 then 1 else 0) := ⟨_, rfl⟩
  have frame : InEra (y % 400 / 100) (y % 400 % 100 / 4) (y % 4) 0 :=
    ⟨by omega, by omega, by omega, by omega, by omega⟩
  have sameYear : civilYear (y / 400) (y % 400 / 100) (y % 400 % 100 / 4) (y % 4) m = year := by
    unfold civilYear
    omega
  have lastDay : day ≤ daysIn (civilYear (y / 400) (y % 400 / 100) (y % 400 % 100 / 4) (y % 4) m)
      (civil m).toNat := by rwa [sameYear, number]
  obtain ⟨place, sameMonth⟩ := frame.dayOfYear (m := m) (by omega) first lastDay
  refine ⟨y / 400, _, _, _, monthStart m + day - 1, place, ?_⟩
  have sameDay : (monthStart m + day - 1 - monthStart m + 1).toNat = day := by omega
  simp only [ofPlace, sameMonth, sameYear, number, sameDay]

/-- **Every number has a date**, which exists. -/
theorem exists_place (n : ℤ) :
    ∃ era c q r s, InEra c q r s ∧ n = era * 146097 + dayOfEra c q r s - 719468 := by
  obtain ⟨c, q, r, s, h, place⟩ := exists_inEra (d := (n + 719468) % 146097) (by omega) (by omega)
  exact ⟨(n + 719468) / 146097, c, q, r, s, h, by omega⟩

theorem isValid_ofDays (n : ℤ) : (ofDays n).IsValid := by
  obtain ⟨era, c, q, r, s, h, rfl⟩ := exists_place n
  rw [ofDays_place h]
  exact isValid_ofPlace h era

/-- **A number is found again from its date.** -/
theorem toDays_ofDays (n : ℤ) : (ofDays n).toDays = n := by
  obtain ⟨era, c, q, r, s, h, rfl⟩ := exists_place n
  rw [ofDays_place h, toDays_ofPlace h]

/-- **A date that exists is found again from its number.** -/
theorem ofDays_toDays {d : Date} (valid : d.IsValid) : ofDays d.toDays = d := by
  obtain ⟨era, c, q, r, s, h, rfl⟩ := exists_ofPlace valid
  rw [toDays_ofPlace h, ofDays_place h]

end TracePattern.Date
