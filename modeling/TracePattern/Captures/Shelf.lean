import TracePattern.Captures.Basic

/-!
# Shared storage of captured values

Named collections of captured values may share their storage.  Every cell of storage counts its
holders.  A write goes to a cell with one holder; the holder of a cell with more of them moves to a
copy of its own first.

* `Cell`, `Shelf`: the storage cells, and the cell of each name;
* `Shelf.retain`, `Shelf.release`, `Shelf.allocate`: the counting of holders;
* `Shelf.unshare`, `Shelf.capture`: a write;
* `Shelf.put`, `Shelf.share`, `Shelf.insert`, `Shelf.extend`: new, forked and written collections;
* `Shelf.get?`, `Shelf.shares`: what a name shows, and whether two names share their storage.
-/

namespace TracePattern

/-- Captured values in storage, and the number of their holders. -/
structure Cell where
  captures : Captures
  holders : Nat

/-- Storage cells, and which of them each name uses. -/
structure Shelf where
  cells : List Cell
  names : List (String × Nat)

namespace Shelf

/-- No names. -/
def empty : Shelf := ⟨[], []⟩

/-- The cell of a name. -/
def cell? (s : Shelf) (name : String) : Option Nat := s.names.lookup name

/-- What is in a cell. -/
def content? (s : Shelf) (cell : Nat) : Option Captures := (s.cells[cell]?).map Cell.captures

/-- What a name shows. -/
def get? (s : Shelf) (name : String) : Option Captures := (s.cell? name).bind s.content?

/-- Two names use one cell. -/
def shares (s : Shelf) (a b : String) : Bool :=
  match s.cell? a, s.cell? b with
  | some i, some j => i = j
  | _, _ => false

/-! ### Holders -/

/-- A cell gets one more holder. -/
def retain (s : Shelf) (cell : Nat) : Shelf :=
  { s with cells := s.cells.modify cell fun c => { c with holders := c.holders + 1 } }

/-- A cell loses a holder. -/
def release (s : Shelf) (cell : Nat) : Shelf :=
  { s with cells := s.cells.modify cell fun c => { c with holders := c.holders - 1 } }

/-- A new cell with one holder. -/
def allocate (s : Shelf) (captures : Captures) : Shelf × Nat :=
  ({ s with cells := s.cells ++ [⟨captures, 1⟩] }, s.cells.length)

/-- A holder of a cell gets a cell that it holds alone: the same one, or a copy, for which it gives
up the other. -/
def unshare (s : Shelf) (cell : Nat) : Shelf × Nat :=
  match s.cells[cell]? with
  | some c => if c.holders = 1 then (s, cell) else (s.release cell).allocate c.captures
  | none => (s, cell)

/-- A holder of a cell captures a value, for itself alone. -/
def capture (s : Shelf) (cell : Nat) (key : String) (value : Value) : Shelf × Nat :=
  let (s, cell) := s.unshare cell
  ({ s with cells := s.cells.modify cell fun c =>
      { c with captures := c.captures.insert key value } }, cell)

/-! ### Names -/

/-- The name uses the cell from now on. -/
def bind (s : Shelf) (name : String) (cell : Nat) : Shelf :=
  { s with names := (name, cell) :: s.names.filter fun n => n.1 ≠ name }

/-- The name takes over the hold of a cell, and gives up the one it had. -/
def assign (s : Shelf) (name : String) (cell : Nat) : Shelf :=
  match s.cell? name with
  | some old => (s.release old).bind name cell
  | none => s.bind name cell

/-- A collection in storage of its own. -/
def put (s : Shelf) (name : String) (captures : Captures) : Shelf :=
  let (s, cell) := s.allocate captures
  s.assign name cell

/-- `name` uses the storage of `origin`. -/
def share (s : Shelf) (origin name : String) : Option Shelf :=
  (s.cell? origin).map fun cell => (s.retain cell).assign name cell

/-- Captures a value in the collection of a name. -/
def insert (s : Shelf) (name key : String) (value : Value) : Option Shelf :=
  (s.cell? name).map fun cell =>
    let (s, cell) := s.capture cell key value
    s.bind name cell

/-- `name` becomes a copy of `origin` with one more captured value. -/
def extend (s : Shelf) (origin name key : String) (value : Value) : Option Shelf :=
  (s.cell? origin).map fun cell =>
    let (s, cell) := (s.retain cell).capture cell key value
    s.assign name cell

end Shelf

end TracePattern
