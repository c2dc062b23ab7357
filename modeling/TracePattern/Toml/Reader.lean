import TracePattern.Digits

/-!
# Readers of text

A reader takes characters from the front of a text, or fails and takes nothing.

* `Reader`, with readers of single characters and runs of characters;
* `Reader.many`, `Reader.separated`: repetition, which ends where nothing more is taken.
-/

namespace TracePattern.Toml

/-- A reader takes characters from the front of a text. -/
abbrev Reader := StateT (List Char) Option

namespace Reader

variable {α : Type}

/-- A character that satisfies a test. -/
def satisfy (p : Char → Bool) : Reader Char := fun
  | c :: rest => if p c then some (c, rest) else none
  | [] => none

/-- The given character. -/
def char (c : Char) : Reader Unit := fun
  | d :: rest => if d = c then some ((), rest) else none
  | [] => none

/-- The given text. -/
def text (s : String) : Reader Unit := fun cs =>
  if s.toList.isPrefixOf cs then some ((), cs.drop s.length) else none

/-- The characters up to the first one that fails a test. -/
def run (p : Char → Bool) : Reader (List Char) := fun cs =>
  some (cs.takeWhile p, cs.dropWhile p)

/-- The end of the text. -/
def atEnd : Reader Unit := fun
  | [] => some ((), [])
  | _ => none

/-- The value that is there, or failure. -/
def ofOption : Option α → Reader α
  | some a => pure a
  | none => failure

/-- As many values as there are. -/
def manyUpTo (r : Reader α) : Nat → Reader (List α)
  | 0 => pure []
  | n + 1 => fun cs =>
    match r cs with
    | none => some ([], cs)
    | some (a, rest) =>
      if rest.length < cs.length then (manyUpTo r n rest).map fun more => (a :: more.1, more.2)
      else some ([], cs)

/-- As many values as there are. Each takes a character at least, so a text has no more values than
characters. -/
def many (r : Reader α) : Reader (List α) := fun cs => manyUpTo r cs.length cs

/-- One value or more with a separator between them. A separator with nothing after it stays. -/
def separated (r : Reader α) (separator : Reader Unit) : Reader (List α) := do
  let first ← r
  let others ← many (separator *> r)
  return first :: others

end Reader

end TracePattern.Toml
