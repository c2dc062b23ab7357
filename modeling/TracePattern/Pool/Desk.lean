import TracePattern.Pool.Basic

/-!
# Named handles

A desk keeps the handles of a pool by name.  Every handle is released exactly once: when its name is
released, or when another handle takes its name.

* `Lease`: a handle as it was given out;
* `Desk`: a pool and its live handles;
* `Desk.rent`, `Desk.rentCopy`, `Desk.increment`, `Desk.release`, `Desk.write`;
* `Desk.read?`: the record of a name.
-/

namespace TracePattern

/-- A handle, and the number of holders of its record when the handle was given out. -/
structure Lease where
  handle : Handle
  holders : Nat
  deriving DecidableEq, Repr

/-- A pool and its live handles by name. -/
structure Desk where
  pool : Pool
  held : List (String × Handle)

namespace Desk

/-- No handles. -/
def empty (config : PoolConfig) : Desk := ⟨.empty config, []⟩

/-- The handle of a name. -/
def handle? (d : Desk) (name : String) : Option Handle :=
  (d.held.find? fun h => h.1 = name).map Prod.snd

/-- Forgets a name. -/
def forget (d : Desk) (name : String) : Desk :=
  { d with held := d.held.filter fun h => h.1 ≠ name }

/-- Releases the handle of a name. -/
def release (d : Desk) (name : String) : Except PoolError Desk :=
  match d.handle? name with
  | some h => (d.pool.release h).map fun pool => { d.forget name with pool }
  | none => .ok d

/-- Drops the handle of a name; a failure is passed over. -/
def drop (d : Desk) (name : String) : Desk :=
  match d.release name with
  | .ok d => d
  | .error _ => d.forget name

/-- Keeps a handle under a name. A handle that had the name is dropped. -/
def keep (d : Desk) (name : String) (h : Handle) : Desk :=
  let d := d.drop name
  { d with held := (name, h) :: d.held }

/-- Keeps a handle that the pool has just given out. The holders are counted before the handle that
had the name is dropped. -/
def grant (d : Desk) (name : String) (given : Handle × Pool) : Lease × Desk :=
  (⟨given.1, given.2.holders given.1⟩, { d with pool := given.2 }.keep name given.1)

/-- Rents a record for a name. -/
def rent (d : Desk) (name : String) : Lease × Desk := d.grant name d.pool.rent

/-- Rents a copy of a record for a name. -/
def rentCopy (d : Desk) (name : String) (source : Record) : Lease × Desk :=
  d.grant name (d.pool.rentCopy source)

/-- A further handle, under a second name, of the record of a name. -/
def increment (d : Desk) (h : Handle) (name : String) : Except PoolError (Lease × Desk) :=
  (d.pool.increment h).map (d.grant name)

/-- The handle of a name with the present number of holders of its record. -/
def lease? (d : Desk) (name : String) : Option Lease :=
  (d.handle? name).map fun h => ⟨h, d.pool.holders h⟩

/-- Changes the record behind a handle. -/
def write (d : Desk) (h : Handle) (f : Storage → Storage) : Desk :=
  { d with pool := d.pool.write h f }

/-- The record of a name. -/
def read? (d : Desk) (name : String) : Option Record := (d.handle? name).bind d.pool.read?

end Desk

end TracePattern
