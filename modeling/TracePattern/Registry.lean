import TracePattern.Expr.Defect
import TracePattern.Path
import TracePattern.Pool.Basic

/-!
# Registries of paths

A registry gives numbers to paths and hands every event to those that are still open.

* `RegistryConfig`;
* `Registry.add`, `Registry.dispose`;
* `Registry.broadcastIn`: an event for the paths in a given order; `Registry.broadcast`: in the
  order of their numbers; `Registry.broadcastPooled`: the event is a pooled record.
-/

namespace TracePattern

/-- How a registry treats events and waits. -/
structure RegistryConfig where
  /-- Events that are not public are handed on too. -/
  acceptPrivate : Bool
  /-- The time a wait takes at most, in milliseconds, unless it says otherwise. -/
  defaultWaitMs : Nat
  deriving DecidableEq, Repr

/-- The configuration that holds without one. -/
def RegistryConfig.default : RegistryConfig := ⟨true, 5000⟩

/-- The whole seconds of the time a wait takes at most. -/
def RegistryConfig.defaultWaitSeconds (c : RegistryConfig) : Nat := c.defaultWaitMs / 1000

/-- All paths that were ever registered, by ascending numbers. -/
structure Registry where
  config : RegistryConfig
  nextId : Nat
  paths : List Path

namespace Registry

/-- No paths. The first one gets the number 1. -/
def empty (config : RegistryConfig) : Registry := ⟨config, 1, []⟩

/-- The path of a number, open or closed. -/
def path? (r : Registry) (id : Nat) : Option Path := r.paths.find? fun p => p.id = id

/-- The open paths. -/
def live (r : Registry) : List Path := r.paths.filter fun p => !p.closed

/-- The number of open paths. -/
def pathCount (r : Registry) : Nat := r.live.length

/-- Starts a path for a well-formed expression. A malformed one takes no number. -/
def add (r : Registry) (name : Option String) (tree : Expr) (initial : Captures) :
    Except Defect (Path × Registry) :=
  match tree.defect? with
  | some d => .error d
  | none =>
    let path := Path.start r.nextId name tree initial
    .ok (path, { r with nextId := r.nextId + 1, paths := r.paths ++ [path] })

/-- Changes the path of a number. -/
def update (r : Registry) (id : Nat) (f : Path → Path) : Registry :=
  { r with paths := r.paths.map fun p => if p.id = id then f p else p }

/-- Closes the path of a number. -/
def dispose (r : Registry) (id : Nat) : Registry := r.update id Path.close

/-- Hands an event to the path of a number. -/
def deliver (event : Record) (r : Registry) (id : Nat) : Registry × Output :=
  match r.path? id with
  | some p =>
    let done := p.onEvent event
    (r.update id fun _ => done.1, done.2)
  | none => (r, .none)

/-- The registry accepts an event. -/
def accepts (r : Registry) (isPublic : Bool) : Bool := isPublic || r.config.acceptPrivate

/-- Hands an event to the paths of the given numbers, in their order. -/
def broadcastIn (r : Registry) (order : List Nat) (isPublic : Bool) (event : Record) :
    Registry × Output :=
  if r.accepts isPublic then
    order.foldl (fun (r, out) id =>
      let next := r.deliver event id
      (next.1, out ++ next.2)) (r, .none)
  else (r, .none)

/-- Hands an event to all open paths in the order of their numbers. -/
def broadcast (r : Registry) (isPublic : Bool) (event : Record) : Registry × Output :=
  r.broadcastIn (r.live.map Path.id) isPublic event

/-- Hands the record behind a handle to all open paths. The pool is only read. -/
def broadcastPooled (r : Registry) (pool : Pool) (h : Handle) (isPublic : Bool) :
    Registry × Output :=
  match pool.read? h with
  | some event => r.broadcast isPublic event
  | none => (r, .none)

end Registry

end TracePattern
