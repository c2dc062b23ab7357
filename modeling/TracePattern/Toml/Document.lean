import TracePattern.Toml.Scalar
import TracePattern.Toml.Basic

/-!
# TOML documents

* `Toml.maxNesting`: the bound on the nesting of values and on the length of keys;
* `Reader.value`: a value, which may hold other values;
* `Statement` and `Document`: the statements of a text and what they define;
* `Toml.read?`: the table that a text defines.
-/

namespace TracePattern.Toml

/-- The number of arrays and inline tables that may enclose a value, and the greatest number of
parts of a key. -/
def maxNesting : Nat := 79

namespace Reader

/-! ### Keys -/

/-- A character of a key without quotes. -/
def isBare (c : Char) : Bool := c.isAlphanum || c = '-' || c = '_'

/-- A key without quotes. -/
def bareKey : Reader String := do
  let cs ← run isBare
  if cs = [] then failure else return String.ofList cs

/-- One part of a key, with blanks around it. -/
def keyPart : Reader String := do
  blanks
  let part ← quoted <|> literal <|> bareKey
  blanks
  return part

/-- A key: the parts before the last one, and the last one. -/
def key : Reader (List String × String) := do
  let parts ← separated keyPart (char '.')
  if parts.length ≤ maxNesting then return (parts.dropLast, parts.getLastD "") else failure

/-! ### Values -/

/-- A key and its value. -/
def definition (value : Reader Toml) : Reader (List String × String × Toml) := do
  let (path, last) ← key
  char '='
  blanks
  return (path, last, ← value)

/-- Blanks, ends of lines and comments between the items of an array. -/
def gaps : Reader Unit := do
  let _ ← many ((satisfy isSpace *> pure ()) <|> newline <|> (comment *> newline))

/-- An array. A comma may stand after the last item. -/
def array (value : Reader Toml) : Reader Toml := do
  char '['
  let items ← optional (separated (gaps *> value <* gaps) (char ',') <* optional (char ','))
  gaps
  char ']'
  return .array (items.getD [])

/-- An inline table, all on one line. -/
def inlineTable (value : Reader Toml) : Reader Toml := do
  char '\x7b'
  let definitions ← optional (separated (definition value <* blanks) (char ','))
  blanks
  char '\x7d'
  let fields ← ofOption <| (definitions.getD []).foldlM
    (fun fields d => Fields.put? d.1 d.2.1 d.2.2 fields) []
  return .table (fieldValues fields)

/-- A value with at most `nesting` arrays and inline tables around any part of it. -/
def value : (nesting : Nat) → Reader Toml
  | 0 => scalar
  | nesting + 1 => array (value nesting) <|> inlineTable (value nesting) <|> scalar

end Reader

/-! ### Statements -/

/-- A statement of a document. -/
inductive Statement
  | define (path : List String) (key : String) (v : Toml)
  | openTable (path : List String) (key : String)
  | openElement (path : List String) (key : String)

namespace Reader

/-- A statement on a line of its own. -/
def statement : Reader Statement := do
  let s ← (do
      text "[["
      let (path, last) ← key
      text "]]"
      return .openElement path last) <|>
    (do
      char '['
      let (path, last) ← key
      char ']'
      return .openTable path last) <|>
    (do
      let (path, last, v) ← definition (value maxNesting)
      return .define path last v)
  endOfLine
  return s

/-- A line without a statement. -/
def emptyLine : Reader Unit := do
  blanks
  newline <|> (comment *> (newline <|> atEnd))

/-- All statements of a text. -/
def statements : Reader (List Statement) := do
  let _ ← optional (char (Char.ofNat 0xFEFF))
  let lines ← many ((emptyLine *> pure none) <|> (some <$> (blanks *> statement)))
  blanks
  atEnd
  return lines.filterMap id

end Reader

/-- What the statements so far define, and the header under which the next one stands. -/
structure Document where
  fields : Fields
  header : List String

namespace Document

/-- Nothing is defined. -/
def empty : Document := ⟨[], []⟩

/-- The document after a further statement. -/
def add? (d : Document) : Statement → Option Document
  | .define path key v =>
    (d.fields.alter? false (fun _ fields => fields.put? path key v) d.header .header).map
      fun fields => { d with fields }
  | .openTable path key => (d.fields.openTable? path key).map fun fields => ⟨fields, path ++ [key]⟩
  | .openElement path key =>
    (d.fields.openElement? path key).map fun fields => ⟨fields, path ++ [key]⟩

/-- The table of all that is defined. -/
def table (d : Document) : Toml := .table (fieldValues d.fields)

end Document

/-- The table that a text defines. -/
def read? (s : String) : Option Toml := do
  let (statements, _) ← Reader.statements s.toList
  return (← statements.foldlM Document.add? .empty).table

end TracePattern.Toml
