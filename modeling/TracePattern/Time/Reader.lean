import TracePattern.Text
import TracePattern.Time.Basic

/-!
# Reading instants

Two readers of the text form of an instant with its offset.

* `Zoned.read?`: the strict form, `2024-05-01T12:00:00Z` with an optional fraction, the letter in
  either case or a space, and an offset of less than a day;
* `Zoned.readLoose?`: the same with spaces between the parts, numbers of fewer digits and years
  with a sign;
* `TimeError`: why a text is no instant.
-/

namespace TracePattern

/-- Why a text is not read as an instant. -/
inductive TimeError
  | invalid
  | tooShort
  | trailing
  | outOfRange
  deriving DecidableEq, Repr

/-- The wording of a reading error. -/
def TimeError.message : TimeError → String
  | .invalid => "input contains invalid characters"
  | .tooShort => "premature end of input"
  | .trailing => "trailing input"
  | .outOfRange => "input is out of range"

namespace TimeReader

/-- A reader takes characters from the front of a text. -/
abbrev Reader := StateT (List Char) (Except TimeError)

/-- The given character must come next. -/
def expect (c : Char) : Reader Unit := fun
  | [] => .error .tooShort
  | d :: rest => if d = c then .ok ((), rest) else .error .invalid

/-- Exactly `n` digits, as their number. -/
def digits (n : Nat) : Reader Nat := fun cs =>
  let front := cs.take n
  if front.length = n ∧ front.all Char.isDigit then .ok (Digits.toNat front, cs.drop n)
  else .error .invalid

/-- One digit up to `most` digits, as their number and count. -/
def someDigits (most : Nat) : Reader (Nat × Nat) := fun cs =>
  match cs with
  | [] => .error .tooShort
  | _ =>
    let front := (cs.take most).takeWhile Char.isDigit
    if front = [] then .error .invalid
    else .ok ((Digits.toNat front, front.length), cs.drop front.length)

/-- A point and digits. The first nine count, all are taken. Without a point there is no
fraction. -/
def fraction : Reader Nat := fun
  | '.' :: rest => do
    let ((n, count), rest) ← someDigits 9 rest
    .ok (n * Nat.pow 10 (9 - count), rest.dropWhile Char.isDigit)
  | cs => .ok (0, cs)

/-- Two characters that must be digits. -/
def pair : Reader Nat := fun
  | a :: b :: rest =>
    if a.isDigit && b.isDigit then .ok (Digits.toNat [a, b], rest) else .error .invalid
  | [c] => if c.toNat < 128 then .error .tooShort else .error .invalid
  | [] => .error .tooShort

/-- `Z`, or a sign, hours and minutes with `separator` between them, in seconds. -/
def offset (separator : Reader Unit) : Reader Int := do
  match ← get with
  | [] => throw .tooShort
  | c :: rest =>
    set rest
    if c = 'Z' ∨ c = 'z' then return 0
    else if c = '+' ∨ c = '-' ∨ c = '−' then
      let hours ← pair
      separator
      let minutes ← pair
      if 60 ≤ minutes then throw .outOfRange
      let seconds : Int := (hours * 3600 + minutes * 60 : Nat)
      return if c = '+' then seconds else -seconds
    else throw .invalid

/-- A time of day. Second 60 is a leap second. -/
def timeOfDay (date : Date) (hour minute second nanos : Nat) : Except TimeError Clock :=
  if hour < 24 ∧ minute < 60 ∧ second ≤ 60 then
    if second = 60 then .ok ⟨date, hour, minute, 59, 1000000000 + nanos⟩
    else .ok ⟨date, hour, minute, second, nanos⟩
  else .error .outOfRange

/-- A date that must exist. -/
def date (year : Int) (month day : Nat) : Except TimeError Date :=
  if Date.IsValid ⟨year, month, day⟩ then .ok ⟨year, month, day⟩ else .error .outOfRange

/-- What a clock of the given offset shows, as an instant; offsets are shorter than a day. -/
def zoned (clock : Clock) (offset : Int) : Except TimeError Zoned :=
  if offset.natAbs < 86400 then .ok ⟨clock.toInstant offset, offset⟩ else .error .outOfRange

/-- The letter or blank between date and time. -/
def separator : Reader Unit := fun
  | [] => .error .tooShort
  | c :: rest => if c = 'T' ∨ c = 't' ∨ c = ' ' then .ok ((), rest) else .error .invalid

/-- The strict form from date to offset. -/
def strict : Reader Zoned := do
  let year ← digits 4
  expect '-'
  let month ← digits 2
  expect '-'
  let day ← digits 2
  let date ← TimeReader.date year month day
  separator
  let hour ← digits 2
  expect ':'
  let minute ← digits 2
  expect ':'
  let second ← digits 2
  let nanos ← fraction
  let clock ← timeOfDay date hour minute second nanos
  let offset ← offset (expect ':')
  unless (← get) = [] do throw .trailing
  zoned clock offset

/-! ### The loose form -/

/-- White space is passed over. -/
def blanks : Reader Unit := modify Text.trimLeft

/-- A number of up to `width` digits, after white space. -/
def number (width : Nat) : Reader Nat := do
  blanks
  return (← someDigits width).1

/-- A year: up to four digits, or any number of digits after a sign. -/
def year : Reader Int := do
  blanks
  match ← get with
  | '-' :: rest => set rest; return -((← someDigits rest.length).1 : Int)
  | '+' :: rest => set rest; return ((← someDigits rest.length).1 : Int)
  | _ => return ((← someDigits 4).1 : Int)

/-- A mark with white space before it. -/
def mark (c : Char) : Reader Unit := do
  blanks
  expect c

/-- The letters `UTC` in any case, or an offset. -/
def looseOffset : Reader Int := do
  let cs ← get
  if (cs.take 3).map Char.toUpper = ['U', 'T', 'C'] then
    set (cs.drop 3)
    return 0
  else offset (modify fun cs => cs.dropWhile fun c => c = ':' || Text.isBlank c)

/-- Years whose instants can be represented. -/
def years : Int × Int := (-262143, 262142)

/-- The loose form from date to offset. -/
def loose : Reader Zoned := do
  let year ← year
  mark '-'
  let month ← number 2
  mark '-'
  let day ← number 2
  separator
  let hour ← number 2
  mark ':'
  let minute ← number 2
  mark ':'
  let second ← number 2
  let nanos ← fraction
  blanks
  let offset ← looseOffset
  blanks
  unless (← get) = [] do throw .trailing
  let date ← TimeReader.date year month day
  let clock ← timeOfDay date hour minute second nanos
  let result ← zoned clock offset
  let utc := (Clock.ofInstant result.instant 0).date.year
  if years.1 ≤ year ∧ year ≤ years.2 ∧ years.1 ≤ utc ∧ utc ≤ years.2 then return result
  else throw .outOfRange

end TimeReader

/-- An instant in the strict form. A text of fewer than 19 bytes is too short, whatever it holds. -/
def Zoned.read? (s : String) : Except TimeError Zoned :=
  if s.utf8ByteSize < 19 then .error .tooShort
  else (TimeReader.strict.run s.toList).map Prod.fst

/-- An instant in the loose form. -/
def Zoned.readLoose? (s : String) : Except TimeError Zoned :=
  (TimeReader.loose.run s.toList).map Prod.fst

end TracePattern
