import TracePattern.Registry

/-!
# Waiting

A wait looks at a path until it finds something, the path is closed, or its time is over.  Time is
counted in milliseconds from the start of the wait, and passes only between the things that happen
meanwhile.  What happens without a delay happens in one go with what was before it, and the wait
looks only when all of that has happened.

* `Happening`: an event, or the end of a path, some time after the happening before;
* `Registry.play`: happenings one after another;
* `Registry.wait`: a wait during happenings, with what it found and when.
-/

namespace TracePattern

/-- Something that happens to a registry. -/
inductive Action
  | event (isPublic : Bool) (event : Record)
  | dispose (path : Nat)
  /-- Time passes. -/
  | pause

/-- An action, some time after the one before. -/
structure Happening where
  afterMs : Nat
  action : Action

/-- How a wait ends: what it found, and after how many milliseconds. -/
structure Waited (α : Type) where
  found : Option α
  elapsedMs : Nat

namespace Registry

/-- The registry after an action. -/
def act (r : Registry) : Action → Registry × Output
  | .event isPublic event => r.broadcast isPublic event
  | .dispose path => (r.dispose path, .none)
  | .pause => (r, .none)

/-- A look at the path: an end of the wait, unless it goes on. -/
def lookAt {α : Type} (r : Registry) (path : Nat) (probe : Path → Option α) (now : Nat) :
    Option (Waited α) :=
  match r.path? path with
  | none => some ⟨none, now⟩
  | some p =>
    match probe p with
    | some found => some ⟨some found, now⟩
    | none => if p.closed then some ⟨none, now⟩ else none

/-- Time passes before anything else happens. -/
def isQuiet : List Happening → Bool
  | [] => true
  | h :: _ => 0 < h.afterMs

/-- Plays the happenings to their end, and looks after those that are in time and followed by quiet,
until the wait has ended. -/
def play {α : Type} (path timeout : Nat) (probe : Path → Option α) (r : Registry) (now : Nat)
    (ended : Option (Waited α)) : List Happening → Registry × Output × Option (Waited α)
  | [] => (r, .none, ended)
  | h :: rest =>
    let now := now + h.afterMs
    let next := r.act h.action
    let ended := match ended with
      | some w => some w
      | none =>
        if timeout < now then some ⟨none, timeout⟩
        else if isQuiet rest then next.1.lookAt path probe now
        else none
    let further := play path timeout probe next.1 now ended rest
    (further.1, next.2 ++ further.2.1, further.2.2)

/-- Waits for what `probe` finds on a path. The first look is before all that happens. -/
def wait {α : Type} (r : Registry) (path timeout : Nat) (probe : Path → Option α)
    (happenings : List Happening) : Registry × Output × Waited α :=
  let played := play path timeout probe r 0 (r.lookAt path probe 0) happenings
  (played.1, played.2.1, played.2.2.getD ⟨none, timeout⟩)

end Registry

end TracePattern
