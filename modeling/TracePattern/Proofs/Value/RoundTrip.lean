import TracePattern.Proofs.Double.RoundTrip
import TracePattern.Proofs.Time.RoundTrip
import TracePattern.Proofs.Value.Plain
import TracePattern.Value.Text

/-!
# Values read back

A value is read back from its tag and its text just if the strict form of instants has room for it
and it is not one of the not-a-numbers that reading does not produce.  So of the values that are
read from any text two kinds are not stable under printing: the not-a-number with a minus sign, and
an instant whose offset takes its year out of the four digits.

* `Value.Restorable`, `Value.parse_text_iff`: the values that are read back;
* `Value.InRange`, `Value.TimeReadBack`: the ranges of the text forms, and whether times are read
  back from theirs;
* `Value.reparse_iff`: the stable ones among the values that are read from a text.
-/

namespace TracePattern

namespace Value

/-- The text of the value shows all of it. -/
def Restorable : Value → Prop
  | .double d => d.shape = .notNumber → d = .nan
  | .timestamp t => t.Writable
  | .zoned z => z.Writable
  | _ => True

theorem parse_eq_ok {tag : Tag} {s : String} {v : Value} :
    parse tag s = .ok v ↔ parse? tag s = some v := by
  unfold parse
  cases parse? tag s <;> simp

/-- What is read has the tag it is read with. -/
theorem tag_of_parse? {tag : Tag} {s : String} {v : Value} (h : parse? tag s = some v) :
    v.tag = tag := by
  cases tag <;> simp only [parse?, Option.map_eq_some_iff, Option.some.injEq] at h
  case null | string | foreign =>
    subst h
    rfl
  all_goals
    obtain ⟨_, -, rfl⟩ := h
    rfl

theorem toOption_eq_some {ε α : Type} {e : Except ε α} {a : α} :
    e.toOption = some a ↔ e = .ok a := by
  cases e <;> simp [Except.toOption]

/-- **A value is read back from its text** just if it is restorable. -/
theorem parse_text_iff (v : Value) : parse v.tag v.text = .ok v ↔ v.Restorable := by
  rw [parse_eq_ok]
  cases v with
  | null => simp [parse?, tag, Restorable]
  | string s => simp [parse?, tag, text, Restorable]
  | integer n => simp [parse?, tag, text, Restorable, Integer.read?_text]
  | boolean b => cases b <;> simp [parse?, tag, text, Restorable, readBoolean?]
  | symbol s => simp [parse?, tag, text, Restorable, Symbol.parse?_text]
  | severity v => simp [parse?, tag, text, Restorable]
  | double d =>
    simp only [parse?, tag, text, Restorable, Option.map_eq_some_iff, Value.double.injEq,
      exists_eq_right]
    exact Double.read?_text_iff d
  | timestamp t =>
    simp only [parse?, tag, text, Restorable, Option.map_eq_some_iff, Value.timestamp.injEq,
      toOption_eq_some]
    exact t.readBack_iff
  | zoned z =>
    simp only [parse?, tag, text, Restorable, Option.map_eq_some_iff, Value.zoned.injEq,
      exists_eq_right, toOption_eq_some]
    exact z.readBack_iff
  | uuid u => simp [parse?, tag, text, Restorable, Uuid.read?_text]
  | foreign s => simp [parse?, tag, text, Restorable]

/-- The value is in the range of its text form: the year of an instant has four digits, the offset
of a clock is in whole minutes, and a not-a-number is the one that is read. -/
def InRange : Value → Prop
  | .double d => d.shape = .notNumber → d = .nan
  | .timestamp t => 0 ≤ t.year ∧ t.year ≤ 9999
  | .zoned z => (0 ≤ z.clock.date.year ∧ z.clock.date.year ≤ 9999) ∧ z.offset % 60 = 0
  | _ => True

/-- If the value is a time, it is read back from its text. -/
def TimeReadBack : Value → Prop
  | .timestamp t => t.ReadBack
  | .zoned z => z.ReadBack
  | _ => True

/-- In the ranges of the text forms only times could fail to be read back. -/
theorem restorable_of_inRange {v : Value} (inRange : v.InRange) (time : v.TimeReadBack) :
    v.Restorable := by
  cases v with
  | double d => exact inRange
  | timestamp t => exact t.readBack_iff.1 time
  | zoned z => exact z.readBack_iff.1 time
  | _ => trivial

/-- The values that are read from a text, and of these the restorable ones. -/
theorem restorable_iff_of_parse? {tag : Tag} {s : String} {v : Value} (h : parse? tag s = some v) :
    v.Restorable ↔
      v ≠ .double .negativeNan ∧ ∀ t, v = .timestamp t → 0 ≤ t.year ∧ t.year ≤ 9999 := by
  have same := tag_of_parse? h
  cases v with
  | double d =>
    subst same
    obtain ⟨_, read, eq⟩ := Option.map_eq_some_iff.1 h
    cases eq
    simp only [Restorable, ne_eq, Value.double.injEq, reduceCtorEq, false_implies, implies_true,
      and_true]
    constructor
    · rintro restorable rfl
      exact absurd (restorable (by decide)) (by decide)
    · intro other shape
      exact (Double.read?_notNumber read shape).resolve_right other
  | timestamp t =>
    subst same
    obtain ⟨z, read, eq⟩ := Option.map_eq_some_iff.1 h
    cases eq
    have regular := (Zoned.writable_of_read? (toOption_eq_some.1 read)).regular
    simp only [Restorable, ne_eq, reduceCtorEq, not_false_eq_true, Value.timestamp.injEq,
      forall_eq', true_and]
    exact ⟨fun writable => writable.year, fun year => ⟨regular, year, rfl, by simp⟩⟩
  | zoned z =>
    subst same
    obtain ⟨_, read, eq⟩ := Option.map_eq_some_iff.1 h
    cases eq
    simpa [Restorable] using Zoned.writable_of_read? (toOption_eq_some.1 read)
  | _ => simp [Restorable]

/-- **Parsing is stable under printing** for every accepted text of a recognised kind, except where
the value is a not-a-number with a minus sign, or an instant outside the years 0 to 9999. -/
theorem reparse_iff {tag : Tag} {s : String} {v : Value} (known : tag ≠ .foreign)
    (accepted : parse tag s = .ok v) :
    (∃ w, parse tag v.text = .ok w ∧ v.equal w = true) ↔
      v ≠ .double .negativeNan ∧ ∀ t, v = .timestamp t → 0 ≤ t.year ∧ t.year ≤ 9999 := by
  have read := parse_eq_ok.1 accepted
  have same := tag_of_parse? read
  rw [← restorable_iff_of_parse? read, ← parse_text_iff, same]
  constructor
  · rintro ⟨w, again, equal⟩
    obtain rfl := (equal_iff.1 equal).2
    exact again
  · intro again
    exact ⟨v, again, equal_iff.2 ⟨same ▸ known, rfl⟩⟩

/-- The leap second at the end of 2016 by a clock of another offset. -/
theorem reparse_leap_second :
    parse .timestamp "2017-01-01T05:29:60.5+05:30" = .ok (.timestamp ⟨1483228799, 1500000000⟩) ∧
      ∃ w, parse .timestamp (Value.timestamp ⟨1483228799, 1500000000⟩).text = .ok w ∧
        (Value.timestamp ⟨1483228799, 1500000000⟩).equal w = true := by
  have accepted : parse .timestamp "2017-01-01T05:29:60.5+05:30" =
      .ok (.timestamp ⟨1483228799, 1500000000⟩) := by decide +kernel
  refine ⟨accepted, (reparse_iff (by decide) accepted).2 ⟨by decide, ?_⟩⟩
  intro t eq
  cases eq
  decide

/-- An offset takes an accepted instant out of the four digits of the year; the printed year has a
sign and is not accepted. -/
theorem reparse_before_year_zero :
    ∃ v, parse .timestamp "0000-01-01T00:30:00+01:00" = .ok v ∧
      v.text = "-0001-12-31T23:30:00Z" ∧
      parse .timestamp v.text = .error (.invalidValue .timestamp v.text) := by
  refine ⟨.timestamp ⟨-62167221000, 0⟩, ?_, ?_, ?_⟩ <;> decide +kernel

/-- The minus sign of a not-a-number is not printed. -/
theorem reparse_negative_nan :
    parse .double "-nan" = .ok (.double .negativeNan) ∧
      parse .double (Value.double .negativeNan).text = .ok (.double .nan) := by
  constructor <;> decide +kernel

end Value

end TracePattern
