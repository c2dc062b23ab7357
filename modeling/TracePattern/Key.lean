import TracePattern.Condition
import Std.Data.HashMap.Basic

/-!
# Group keys

A group of branches is formed for each key that an extractor finds in the events.

* `KeyExtractor`: a name, and where the key is read; extractors are told apart by a number,
  so that copies of one extractor share what was extracted from an event;
* `KeyExtractor.extract`: the key of an event, if it has one;
* `KeySet`: the keys seen so far, in buckets by the hash of what they feed to it.
-/

namespace TracePattern

/-- Where a key is read. -/
inductive KeySource
  | property (name : String)
  | derived (derive : Accessor)

/-- Names and reads the key that events are grouped by. -/
structure KeyExtractor where
  ident : Nat
  /-- The key is captured under this name in the branches of its group. -/
  name : String
  source : KeySource

namespace KeyExtractor

/-- The key of an event. Null means that there is none. -/
def extract (k : KeyExtractor) (event : Record) : Answer (Option Value) :=
  let present (v : Value) : Option Value := if v.isNull then none else some v
  match k.source with
  | .property name => .pure ((event.get? name).bind present)
  | .derived derive => (derive event).bind fun v => .pure (present v)

/-- The extractor as pseudo-code. -/
def text (k : KeyExtractor) : String :=
  match k.source with
  | .property name => if name = k.name then name else name ++ " as " ++ k.name
  | .derived _ => "<derived> as " ++ k.name

/-- The extractor in diagnostic output. -/
def diagnostic (k : KeyExtractor) : String :=
  "KeyExtractor \x7b source: " ++ Text.literal k.text ++ " \x7d"

end KeyExtractor

/-! ### Sets of keys -/

/-- Keys in buckets by their hashes. -/
structure KeySet where
  buckets : Std.HashMap UInt64 (List Value)

namespace KeySet

/-- No keys. -/
def empty : KeySet := ⟨∅⟩

/-- A hash of words: each word is mixed in by an exclusive or and a multiplication. -/
def mix (words : List Int) : UInt64 :=
  words.foldl (fun h w => (h ^^^ UInt64.ofInt w) * 1099511628211) 14695981039346656037

/-- The set with a further key, or nothing if an equal key is there already. -/
def insertWith? (hash : List Int → UInt64) (s : KeySet) (key : Value) : Option KeySet :=
  let h := hash key.digest
  let bucket := s.buckets.getD h []
  if bucket.any fun k => k.equal key then none
  else some ⟨s.buckets.insert h (bucket ++ [key])⟩

/-- The set with a further key, or nothing if an equal key is there already. -/
def insert? (s : KeySet) (key : Value) : Option KeySet := s.insertWith? mix key

end KeySet

end TracePattern
