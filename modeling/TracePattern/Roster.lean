import TracePattern.Registry

/-!
# Named paths

A roster keeps the paths of a registry by name.  A name holds one path; the path that had the name
before is disposed of.  A roster also knows which results it has shown.

* `Roster`: a registry and its named paths;
* `Roster.add`, `Roster.dispose?`, `Roster.path?`;
* `Roster.news`: all named paths with the results that were not shown before.
-/

namespace TracePattern

/-- A name, the number of its path, and how many of its results were shown. -/
structure Roster.Entry where
  name : String
  path : Nat
  shown : Nat
  deriving DecidableEq, Repr

/-- A registry and its named paths. -/
structure Roster where
  registry : Registry
  entries : List Roster.Entry

namespace Roster

/-- No paths. -/
def empty (config : RegistryConfig) : Roster := ⟨.empty config, []⟩

/-- The path of a name, open or closed. -/
def path? (r : Roster) (name : String) : Option Path :=
  (r.entries.find? fun e => e.name = name).bind fun e => r.registry.path? e.path

/-- Disposes of the path of a name. -/
def dispose (r : Roster) (name : String) : Roster :=
  match r.path? name with
  | some p => { r with registry := r.registry.dispose p.id }
  | none => r

/-- Disposes of the path of a name, which must be open. -/
def dispose? (r : Roster) (name : String) : Option Roster :=
  (r.path? name).bind fun p => if p.closed then none else some (r.dispose name)

/-- Starts a path under a name. The path that had the name is disposed of afterwards. -/
def add (r : Roster) (name : String) (title : Option String) (tree : Expr) (initial : Captures) :
    Except Defect (Path × Roster) :=
  (r.registry.add title tree initial).map fun added =>
    let r := { r with registry := added.2 }.dispose name
    let others := r.entries.filter fun e => e.name ≠ name
    (added.1, { r with entries := others ++ [⟨name, added.1.id, 0⟩] })

/-- A named path with the results that were not shown before. -/
structure Item where
  name : String
  path : Path
  finished : List Finish

/-- All named paths with their new results, and the roster after showing them. -/
def news (r : Roster) : List Item × Roster :=
  let items := r.entries.filterMap fun e =>
    (r.registry.path? e.path).map fun p => ⟨e.name, p, p.finished.drop e.shown⟩
  let entries := r.entries.map fun e =>
    match r.registry.path? e.path with
    | some p => { e with shown := p.finished.length }
    | none => e
  (items, { r with entries })

end Roster

end TracePattern
