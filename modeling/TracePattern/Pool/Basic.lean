import TracePattern.Digits
import TracePattern.Pool.Storage

/-!
# Pools of records

A pool lends records out of slots.  A slot counts its holders; when the last one releases it, the
record is cleared, the slot begins a new generation and waits on a stack to be lent again.  Storage
above the bounds of the configuration is dropped instead of kept.

* `PoolConfig`, `PoolStats`, `PoolError` with its wording;
* `Slot`, `Handle`, `Pool`;
* `Pool.rent`, `Pool.rentCopy`, `Pool.increment`, `Pool.release`;
* `Pool.read?`, `Pool.write`: the record behind a handle.
-/

namespace TracePattern

/-- The bounds of a pool. -/
structure PoolConfig where
  /-- The capacity above which the storage of a returned record is dropped. -/
  maxRetainedProperties : Nat
  /-- The number of free slots that keep their storage. -/
  maxFreeSlots : Nat
  deriving DecidableEq, Repr

/-- The bounds that hold without a configuration. -/
def PoolConfig.default : PoolConfig := ⟨64, 4096⟩

/-- Counters of a pool: records lent now, free slots, all slots, all rents, rents from free slots,
and returns that dropped their storage. -/
structure PoolStats where
  outstanding : Nat
  free : Nat
  slots : Nat
  rents : Nat
  recycled : Nat
  discarded : Nat
  deriving DecidableEq, Repr

/-- Misuse of a handle. -/
inductive PoolError
  | doubleDispose (slot : Nat)
  | staleHandle (slot : Nat) (held current : UInt32)
  deriving DecidableEq, Repr

/-- The wording of a misuse. -/
def PoolError.message : PoolError → String
  | .doubleDispose slot =>
    "record slot " ++ Integer.decimal slot ++
      " disposed more times than it was rented or incremented"
  | .staleHandle slot held current =>
    "stale handle for slot " ++ Integer.decimal slot ++ ": generation " ++
      Integer.decimal held.toNat ++ " but slot is at " ++ Integer.decimal current.toNat

/-- A record with its place in the pool, its number of holders and the number of times it was
returned. -/
structure Slot where
  index : Nat
  holders : Nat
  generation : UInt32
  storage : Storage
  deriving DecidableEq

/-- A slot that was never lent. -/
def Slot.fresh (index : Nat) : Slot := ⟨index, 0, 0, .fresh⟩

/-- The right to hold the record of a slot in one of its generations. -/
structure Handle where
  slot : Nat
  generation : UInt32
  deriving DecidableEq, Repr

/-- Slots, the stack of the free ones with its top first, and counters. -/
structure Pool where
  config : PoolConfig
  slots : List Slot
  free : List Nat
  outstanding : Nat
  rents : Nat
  recycled : Nat
  discarded : Nat

namespace Pool

/-- A pool without slots. -/
def empty (config : PoolConfig) : Pool := ⟨config, [], [], 0, 0, 0, 0⟩

/-- The counters of a pool. -/
def stats (p : Pool) : PoolStats :=
  ⟨p.outstanding, p.free.length, p.slots.length, p.rents, p.recycled, p.discarded⟩

/-- The number of holders beyond which no further one is admitted. -/
def maxHolders : Nat := UInt32.size - 1

/-- Lends a free slot, or a new one if none is free. The record is empty. -/
def rent (p : Pool) : Handle × Pool :=
  match p.free with
  | i :: free =>
    match p.slots[i]? with
    | some slot =>
      let storage :=
        if slot.storage.isReset p.config.maxRetainedProperties then slot.storage else .fresh
      (⟨i, slot.generation⟩,
        { p with
          slots := p.slots.set i { slot with holders := 1, storage }
          free
          outstanding := p.outstanding + 1
          rents := p.rents + 1
          recycled := p.recycled + 1 })
    | none => (⟨i, 0⟩, p)
  | [] =>
    (⟨p.slots.length, 0⟩,
      { p with
        slots := p.slots ++ [{ Slot.fresh p.slots.length with holders := 1 }]
        outstanding := p.outstanding + 1
        rents := p.rents + 1 })

/-- The slot of a handle, if the handle belongs to its present generation. -/
def slot (p : Pool) (h : Handle) : Except PoolError Slot :=
  match p.slots[h.slot]? with
  | some slot =>
    if slot.generation = h.generation then .ok slot
    else .error (.staleHandle slot.index h.generation slot.generation)
  | none => .error (.doubleDispose h.slot)

/-- Changes the record behind a handle. -/
def write (p : Pool) (h : Handle) (f : Storage → Storage) : Pool :=
  match p.slot h with
  | .ok slot => { p with slots := p.slots.set h.slot { slot with storage := f slot.storage } }
  | .error _ => p

/-- The record behind a handle. -/
def read? (p : Pool) (h : Handle) : Option Record :=
  match p.slot h with
  | .ok slot => some slot.storage.record
  | .error _ => none

/-- Lends a record with the content of another. -/
def rentCopy (p : Pool) (source : Record) : Handle × Pool :=
  let rented := p.rent
  (rented.1, rented.2.write rented.1 (Storage.copyFrom source))

/-- A further holder of the record behind a handle. -/
def increment (p : Pool) (h : Handle) : Except PoolError (Handle × Pool) := do
  let slot ← p.slot h
  if slot.holders = 0 ∨ maxHolders ≤ slot.holders then .error (.doubleDispose slot.index)
  else
    return (h, { p with slots := p.slots.set h.slot { slot with holders := slot.holders + 1 } })

/-- Takes back a slot that its last holder has released. -/
def giveBack (p : Pool) (i : Nat) (slot : Slot) : Pool :=
  let drop := p.config.maxRetainedProperties < slot.storage.capacity ∨
    p.config.maxFreeSlots ≤ p.free.length
  { p with
    slots := p.slots.set i
      { slot with
        holders := 0
        generation := slot.generation + 1
        storage := if drop then .fresh else slot.storage.reset }
    free := slot.index :: p.free
    outstanding := p.outstanding - 1
    discarded := if drop then p.discarded + 1 else p.discarded }

/-- One holder less. -/
def release (p : Pool) (h : Handle) : Except PoolError Pool := do
  let slot ← p.slot h
  if slot.holders = 0 then .error (.doubleDispose slot.index)
  else if slot.holders = 1 then return p.giveBack h.slot slot
  else return { p with slots := p.slots.set h.slot { slot with holders := slot.holders - 1 } }

/-- The number of holders of the record behind a handle. -/
def holders (p : Pool) (h : Handle) : Nat := ((p.slots[h.slot]?).map Slot.holders).getD 0

end Pool

end TracePattern
