import TracePattern.Record

/-!
# Records with storage

The properties of a pooled record lie in storage of some capacity.  Storage grows when it is full,
at least to its double, and clearing the record keeps it.

* `Storage`: a record and the capacity of its properties;
* `Storage.push`, `Storage.copyFrom`, `Storage.edit`: writes;
* `Storage.reset`: the empty record in the same storage; `Storage.fresh`: without storage.
-/

namespace TracePattern

/-- A record and the capacity of the storage of its properties. -/
structure Storage where
  record : Record
  capacity : Nat
  deriving DecidableEq

namespace Storage

/-- An empty record without storage. -/
def fresh : Storage := ⟨.empty, 0⟩

instance : Inhabited Storage := ⟨fresh⟩

/-- The capacity that storage of `capacity` grows to when `needed` properties have to fit. -/
def grown (capacity needed : Nat) : Nat :=
  if needed ≤ capacity then capacity else max (max (2 * capacity) needed) 4

/-- Appends a property. -/
def push (p : Property) (s : Storage) : Storage :=
  ⟨s.record.push p, grown s.capacity (s.record.properties.length + 1)⟩

/-- Appends properties one by one. -/
def pushAll (ps : List Property) (s : Storage) : Storage := ps.foldl (fun s p => s.push p) s

/-- Takes over the content of a record. -/
def copyFrom (source : Record) (s : Storage) : Storage :=
  ⟨source, grown s.capacity source.properties.length⟩

/-- Changes identity, message or timestamp. -/
def edit (f : Record → Record) (s : Storage) : Storage :=
  ⟨{ f s.record with properties := s.record.properties }, s.capacity⟩

/-- Clears the record and keeps its storage. -/
def reset (s : Storage) : Storage := ⟨.empty, s.capacity⟩

/-- The record is empty, up to its timestamp, and its storage is within the bound. -/
def isReset (bound : Nat) (s : Storage) : Bool :=
  s.record.properties.isEmpty && s.record.provider = "" && s.record.scope = "" &&
    s.record.message = "" && s.capacity ≤ bound

end Storage

end TracePattern
