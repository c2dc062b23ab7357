import TracePattern.Double.Text
import TracePattern.Digits
import TracePattern.Time.Calendar
import TracePattern.Toml.Basic
import TracePattern.Toml.Reader
import TracePattern.Uuid

/-!
# Scalars in TOML

* `Reader.string`: texts in quotes or apostrophes, on one line or several;
* `Reader.number`: whole numbers to four bases, decimal fractions, infinities and not-a-number;
* `Reader.moment`: dates, times of day and both;
* `Reader.scalar`: any of these, and truth values.
-/

namespace TracePattern.Toml.Reader

/-! ### Blanks and ends of lines -/

/-- White space within a line. -/
def isSpace (c : Char) : Bool := c = ' ' || c = '\t'

/-- A character of a text, apart from the ends of lines: a tab, or no control character. -/
def isPlain (c : Char) : Bool := c = '\t' || (32 ≤ c.toNat && c.toNat ≠ 127)

/-- White space within a line. -/
def blanks : Reader Unit := do
  let _ ← run isSpace

/-- The end of a line. -/
def newline : Reader Unit := char '\n' <|> text "\r\n"

/-- A comment up to the end of its line. -/
def comment : Reader Unit := do
  char '#'
  let _ ← run isPlain

/-- The rest of a line after a statement. -/
def endOfLine : Reader Unit := do
  blanks
  let _ ← optional comment
  newline <|> atEnd

/-! ### Texts -/

/-- The character of `count` hexadecimal digits. Surrogates are no characters. -/
def codePoint (count : Nat) : Reader Char := fun cs => do
  let ds ← (cs.take count).mapM Uuid.hexValue?
  let n := ds.foldl (fun n d => 16 * n + d) 0
  if ds.length = count ∧ n.isValidChar then return (Char.ofNat n, cs.drop count) else none

/-- The character of an escape. -/
def escape : Reader Char := do
  char '\\'
  match ← satisfy fun _ => true with
  | 'b' => return Char.ofNat 8
  | 't' => return '\t'
  | 'n' => return '\n'
  | 'f' => return Char.ofNat 12
  | 'r' => return '\r'
  | '"' => return '"'
  | '\\' => return '\\'
  | 'u' => codePoint 4
  | 'U' => codePoint 8
  | _ => failure

/-- The text between quotes. -/
def quoted : Reader String := do
  char '"'
  let cs ← many (satisfy (fun c => isPlain c && c ≠ '"' && c ≠ '\\') <|> escape)
  char '"'
  return String.ofList cs

/-- The text between apostrophes, which has no escapes. -/
def literal : Reader String := do
  char '\''
  let cs ← run fun c => isPlain c && c ≠ '\''
  char '\''
  return String.ofList cs

/-- One or two quotes inside a text of several lines. -/
def innerQuotes (q : Char) : Reader (List Char) := do
  let qs ← run (· = q)
  if qs.length < 3 ∧ qs ≠ [] then return qs else failure

/-- The three quotes at the end of a text of several lines. Up to two quotes in front of them belong
to the text. -/
def closingQuotes (q : Char) : Reader (List Char) := do
  let qs ← run (· = q)
  if 3 ≤ qs.length ∧ qs.length ≤ 5 then return qs.drop 3 else failure

/-- A backslash at the end of a line, and all white space after it. -/
def foldedLine : Reader (List Char) := do
  char '\\'
  blanks
  newline
  let _ ← many (newline <|> (satisfy isSpace *> pure ()))
  return []

/-- The text between threefold quotes; a line end right after the opening quotes does not count. -/
def block (q : Char) (piece : Reader (List Char)) : Reader String := do
  text (String.ofList [q, q, q])
  let _ ← optional newline
  let pieces ← many (piece <|> (newline *> pure ['\n']) <|> innerQuotes q)
  let last ← closingQuotes q
  return String.ofList (pieces.flatten ++ last)

/-- A text of several lines with escapes. -/
def quotedBlock : Reader String :=
  block '"' <|
    (List.singleton <$> satisfy fun c => isPlain c && c ≠ '"' && c ≠ '\\') <|>
      foldedLine <|> (List.singleton <$> escape)

/-- A text of several lines without escapes. -/
def literalBlock : Reader String :=
  block '\'' (List.singleton <$> satisfy fun c => isPlain c && c ≠ '\'')

/-- A text. -/
def string : Reader String := quotedBlock <|> quoted <|> literalBlock <|> literal

/-! ### Numbers -/

/-- Digits without the underscores, each of which must stand between two digits. -/
def ungroup? (isDigit : Char → Bool) : List Char → Option (List Char)
  | [] => none
  | c :: '_' :: rest => if isDigit c then (ungroup? isDigit rest).map (c :: ·) else none
  | [c] => if isDigit c then some [c] else none
  | c :: rest => if isDigit c then (ungroup? isDigit rest).map (c :: ·) else none

/-- Digits that may be grouped by underscores. -/
def digits (isDigit : Char → Bool) : Reader (List Char) := do
  ofOption (ungroup? isDigit (← run fun c => isDigit c || c = '_'))

/-- A whole number of 64 bits. -/
def wholeNumber (n : Int) : Reader Toml := ofOption ((Integer.ofInt? n).map .integer)

/-- A whole number to a base other than ten, after the mark of its base. -/
def based (mark : String) (base : Nat) : Reader Toml := do
  text mark
  let ds ← digits fun c => (Uuid.hexValue? c).any fun d => d < base
  wholeNumber ((ds.filterMap Uuid.hexValue?).foldl (fun n d => base * n + d) 0 : Nat)

/-- A sign. -/
def sign : Reader (List Char) := (List.singleton <$> satisfy fun c => c = '+' || c = '-') <|> pure []

/-- A point and digits. -/
def fraction : Reader (List Char) := do
  char '.'
  return '.' :: (← digits Char.isDigit)

/-- An exponent with an optional sign. -/
def exponent : Reader (List Char) := do
  let _ ← satisfy fun c => c = 'e' || c = 'E'
  return 'e' :: ((← sign) ++ (← digits Char.isDigit))

/-- Digits before the point, without needless zeros in front. -/
def wholeDigits : Reader (List Char) := do
  let ds ← digits Char.isDigit
  if ds.length = 1 ∨ ds.head? ≠ some '0' then return ds else failure

/-- The nearest floating-point number of a decimal text. It must not be too great; one that is too
small stands for minus infinity. -/
def float (cs : List Char) : Reader Toml := do
  let d ← ofOption (Double.read? (String.ofList cs))
  if d = Double.ofMagnitude false Double.infinite then failure else return .float d

/-- Infinity or not-a-number. -/
def named : Reader Toml := do
  let negative := decide ((← sign) = ['-'])
  (text "inf" *> pure (.float (.ofMagnitude negative Double.infinite))) <|>
    (text "nan" *> pure (.float (.ofMagnitude negative Double.quiet)))

/-- A number to base ten. -/
def decimal : Reader Toml := do
  let front := (← sign) ++ (← wholeDigits)
  match ← optional fraction, ← optional exponent with
  | none, none => wholeNumber (← ofOption (Digits.readSigned? front))
  | f, e => float (front ++ f.getD [] ++ e.getD [])

/-- A number. -/
def number : Reader Toml :=
  based "0x" 16 <|> based "0o" 8 <|> based "0b" 2 <|> named <|> decimal

/-! ### Dates and times -/

/-- Exactly `count` digits, as their number. -/
def fixed (count : Nat) : Reader Nat := fun cs =>
  (Digits.read? (cs.take count)).bind fun n =>
    if (cs.take count).length = count then some (n, cs.drop count) else none

/-- A date that exists. -/
def date : Reader Unit := do
  let year ← fixed 4
  char '-'
  let month ← fixed 2
  char '-'
  let day ← fixed 2
  if Date.IsValid ⟨year, month, day⟩ then return () else failure

/-- Hours and minutes. -/
def hourMinute : Reader Unit := do
  let hour ← fixed 2
  char ':'
  let minute ← fixed 2
  if hour < 24 ∧ minute < 60 then return () else failure

/-- A time of day with an optional fraction of a second. Second 60 is a leap second. -/
def time : Reader Unit := do
  hourMinute
  char ':'
  let second ← fixed 2
  let _ ← optional (char '.' *> satisfy Char.isDigit *> run Char.isDigit)
  if second ≤ 60 then return () else failure

/-- The offset of a local clock. -/
def offset : Reader Unit :=
  (satisfy (fun c => c = 'Z' || c = 'z') *> pure ()) <|>
    (satisfy (fun c => c = '+' || c = '-') *> hourMinute)

/-- A time of day after a date. -/
def timeOfDate : Reader Unit := do
  let _ ← satisfy fun c => c = 'T' || c = 't' || c = ' '
  time
  let _ ← optional offset

/-- A date, a time of day or both. -/
def moment : Reader Toml := do
  let before ← get
  (date *> optional timeOfDate *> pure ()) <|> time
  let after ← get
  return .moment (String.ofList (before.take (before.length - after.length)))

/-! ### Scalars -/

/-- A truth value. -/
def boolean : Reader Toml :=
  (text "true" *> pure (.boolean true)) <|> (text "false" *> pure (.boolean false))

/-- A value that does not hold other values. -/
def scalar : Reader Toml := (.string <$> string) <|> boolean <|> moment <|> number

end TracePattern.Toml.Reader
