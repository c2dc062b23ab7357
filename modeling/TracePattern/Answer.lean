/-!
# Answers of user code

Conditions, accessors and captures are functions supplied by the user of the library.  A call ends
with a value, with an error, or by crashing; on the way it may leave marks, by which its
user can see later that it ran.

* `EvalError`: the errors user code reports, with their wording;
* `Stop`: the ways to end without a value;
* `Answer`: the marks of a call and its end, with the sequencing of calls;
* `Answer.guarded`: the end of a call whose crash is caught and counts as an error.
-/

namespace TracePattern

/-- An error that user code reports. -/
inductive EvalError
  | missingProperty (name : String)
  | typeMismatch (text : String)
  | evaluation (text : String)
  deriving DecidableEq, Repr

/-- The wording of an error. -/
def EvalError.message : EvalError → String
  | .missingProperty name => "property not found: " ++ name
  | .typeMismatch text => "type error: " ++ text
  | .evaluation text => "evaluation error: " ++ text

/-- How user code ends without a value. A crash may carry a text. -/
inductive Stop
  | error (e : EvalError)
  | crash (text : Option String)
  deriving DecidableEq, Repr

/-- The error that a caught stop counts as. -/
def Stop.caught : Stop → EvalError
  | .error e => e
  | .crash text => .evaluation ("panicked: " ++ text.getD "unknown panic")

/-- The marks a call left and how it ended. -/
structure Answer (α : Type) where
  marks : List String
  result : Except Stop α

namespace Answer

variable {α β : Type}

/-- A value without marks. -/
protected def pure (a : α) : Answer α := ⟨[], .ok a⟩

/-- An end without a value. -/
def stop (s : Stop) : Answer α := ⟨[], .error s⟩

/-- An error. -/
def error (e : EvalError) : Answer α := stop (.error e)

/-- A crash. -/
def crash (text : Option String) : Answer α := stop (.crash text)

/-- A mark. -/
def mark (name : String) : Answer Unit := ⟨[name], .ok ()⟩

/-- One call after another. The second does not run if the first ends without a value. -/
protected def bind (x : Answer α) (f : α → Answer β) : Answer β :=
  match x.result with
  | .ok a => ⟨x.marks ++ (f a).marks, (f a).result⟩
  | .error s => ⟨x.marks, .error s⟩

instance : Monad Answer where
  pure := Answer.pure
  bind := Answer.bind

/-- The end of a call whose crash is caught. -/
def guarded (x : Answer α) : Except EvalError α :=
  match x.result with
  | .ok a => .ok a
  | .error s => .error s.caught

end Answer

end TracePattern
