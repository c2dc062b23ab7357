import TracePattern.Digits
import TracePattern.Time.Calendar

/-!
# Instants and their text

An instant is a second on the scale of universal time with a fraction.  A leap second is kept as the
second before it with a fraction of one second or more, and written as second 60.

* `Instant`, and `Zoned`: an instant with the offset of a local clock;
* `Clock`: date and time of day as a local clock shows them, to and from instants;
* `Zoned.text`: the text `2024-05-01T12:00:00.5+02:00` of an instant, with as few digits of
  the fraction as 0, 3, 6 or 9.
-/

namespace TracePattern

/-- Seconds from 1970-01-01T00:00:00Z, and nanoseconds; in a leap second these are a thousand
million and more. -/
structure Instant where
  seconds : Int
  nanos : Nat
  deriving DecidableEq, Repr

/-- The first instant of 1970. -/
def Instant.epoch : Instant := ⟨0, 0⟩

/-- An instant with the offset, in seconds, of the local clock that recorded it. -/
structure Zoned where
  instant : Instant
  offset : Int
  deriving DecidableEq, Repr

/-- What a clock shows. `second` is at most 59; a leap second shows in `nanos`. -/
structure Clock where
  date : Date
  hour : Nat
  minute : Nat
  second : Nat
  nanos : Nat
  deriving DecidableEq, Repr

namespace Clock

/-- The instant at which a clock of the given offset shows this. -/
def toInstant (c : Clock) (offset : Int) : Instant :=
  ⟨c.date.toDays * 86400 + (c.hour * 3600 + c.minute * 60 + c.second : Nat) - offset, c.nanos⟩

/-- What a clock of the given offset shows at an instant. -/
def ofInstant (i : Instant) (offset : Int) : Clock :=
  let seconds := i.seconds + offset
  let ofDay := (seconds % 86400).toNat
  { date := Date.ofDays (seconds / 86400)
    hour := ofDay / 3600
    minute := ofDay / 60 % 60
    second := ofDay % 60
    nanos := i.nanos }

end Clock

/-! ### Printing -/

/-- Four digits, or a sign and at least four digits outside the years 0 to 9999. -/
def yearText (year : Int) : List Char :=
  if 0 ≤ year ∧ year ≤ 9999 then Digits.padded 4 year.toNat
  else (if year < 0 then '-' else '+') :: Digits.padded 4 year.natAbs

/-- The fraction of a second with the fewest digits among 0, 3, 6 and 9. -/
def fractionText (nanos : Nat) : List Char :=
  if nanos = 0 then []
  else if nanos % 1000000 = 0 then '.' :: Digits.padded 3 (nanos / 1000000)
  else if nanos % 1000 = 0 then '.' :: Digits.padded 6 (nanos / 1000)
  else '.' :: Digits.padded 9 nanos

/-- Sign, hours and minutes of an offset, which is rounded to the nearest minute. -/
def offsetText (offset : Int) : List Char :=
  let minutes := (offset.natAbs + 30) / 60
  (if offset < 0 then '-' else '+') ::
    (Digits.padded 2 (minutes / 60) ++ ':' :: Digits.padded 2 (minutes % 60))

/-- The date and time of day of a clock. A leap second counts as second 60. -/
def Clock.text (c : Clock) : List Char :=
  let leap := c.nanos / 1000000000
  yearText c.date.year ++ '-' :: Digits.padded 2 c.date.month ++ '-' :: Digits.padded 2 c.date.day ++
    'T' :: Digits.padded 2 c.hour ++ ':' :: Digits.padded 2 c.minute ++
    ':' :: Digits.padded 2 (c.second + leap) ++ fractionText (c.nanos % 1000000000)

/-- The local time and the offset. With `zulu`, an offset of zero is written `Z`. -/
def Zoned.text (zulu : Bool) (z : Zoned) : String :=
  let offset := if zulu && z.offset = 0 then ['Z'] else offsetText z.offset
  String.ofList ((Clock.ofInstant z.instant z.offset).text ++ offset)

/-- The time in universal time. -/
def Instant.text (i : Instant) : String := Zoned.text true ⟨i, 0⟩

end TracePattern
