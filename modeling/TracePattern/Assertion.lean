import TracePattern.Path

/-!
# Assertions about paths

Checks for tests.  A check that does not hold answers with a message, which in most cases ends with
the state of the path.

* `Path.checkFinishedCount`, `Path.checkRunningCount`;
* `Path.checkSucceededWith`, `Path.checkNotFinishedWith`, `Path.checkRunningWith`,
  `Path.checkFailedWith`.
-/

namespace TracePattern.Path

/-- The number of ended branches. -/
def checkFinishedCount (p : Path) (expected : Nat) : Except String Unit :=
  let n := p.finished.length
  if n = expected then .ok ()
  else .error ("expected " ++ Integer.decimal expected ++ " finished branches, got " ++
    Integer.decimal n ++ ": " ++ p.describe)

/-- The number of running branches. -/
def checkRunningCount (p : Path) (expected : Nat) : Except String Unit :=
  let n := p.waiting.length
  if n = expected then .ok ()
  else .error ("expected " ++ Integer.decimal expected ++ " running branches, got " ++
    Integer.decimal n ++ ": " ++ p.describe)

/-- A key and a value as messages show them. -/
def binding (key : String) (value : Value) : String := key ++ " = " ++ value.display

/-- The first ended branch that captured the value has succeeded. -/
def checkSucceededWith (p : Path) (key : String) (value : Value) : Except String Finish :=
  match p.findFinished? key value with
  | some f =>
    if f.outcome = .successful then .ok f
    else .error ("branch with " ++ binding key value ++ " finished as " ++ f.outcome.name)
  | none =>
    .error ("expected a finished branch with " ++ binding key value ++ ", got " ++ p.describe)

/-- No ended branch captured the value. -/
def checkNotFinishedWith (p : Path) (key : String) (value : Value) : Except String Unit :=
  match p.findFinished? key value with
  | some _ => .error ("expected no finished branch with " ++ binding key value)
  | none => .ok ()

/-- A running branch captured the value. -/
def checkRunningWith (p : Path) (key : String) (value : Value) : Except String Unit :=
  match p.findRunning? key value with
  | some _ => .ok ()
  | none =>
    .error ("expected a running branch with " ++ binding key value ++ ", got " ++ p.describe)

/-- A text occurs in another. -/
def occursIn (part : List Char) : List Char → Bool
  | [] => part.isEmpty
  | c :: rest => part.isPrefixOf (c :: rest) || occursIn part rest

/-- A branch has failed with an error whose wording contains the fragment. -/
def checkFailedWith (p : Path) (fragment : String) : Except String Finish :=
  let fits (f : Finish) : Bool :=
    f.outcome = .failed && f.error.any fun e => occursIn fragment.toList e.message.toList
  match p.finished.find? fits with
  | some f => .ok f
  | none =>
    .error ("expected a failed branch mentioning '" ++ fragment ++ "', got " ++ p.describe)

end TracePattern.Path
