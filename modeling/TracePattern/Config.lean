import TracePattern.Json.Shape
import TracePattern.Registry
import TracePattern.Toml.Document

/-!
# Configuration

The configuration of a pool and of a registry, from TOML or JSON.  What is left out has a default,
and what is not known does not matter.

* `PoolConfig.ofJson?`, `PoolConfig.ofToml?`, and the same for `RegistryConfig`;
* `Config`, `Config.ofToml?`, `Config.read`: both together;
* `Config.load`: from a file; `FileFault`: why a file cannot be read.
-/

namespace TracePattern

/-! ### Fields with defaults -/

/-- A natural number of a field. -/
def Toml.natural? : Toml → Option Nat
  | .integer n => if 0 ≤ n.toInt then some n.toInt.toNat else none
  | _ => none

/-- The truth value of a field. -/
def Toml.boolean? : Toml → Option Bool
  | .boolean b => some b
  | _ => none

/-- The values of the named fields. An array holds them in order, and may be shorter or longer; a
date or a time of day has none of them. -/
def Toml.fields? (names : List String) : Toml → Option (List (Option Toml))
  | .table fields => some (names.map fun name => fields.lookup name)
  | .array items => some ((List.range names.length).map fun i => items[i]?)
  | .moment _ => some (names.map fun _ => none)
  | _ => none

/-- The content of a field, or the default if it is left out. -/
def fieldOr {α β : Type} (default : α) (read? : β → Option α) : Option β → Option α
  | none => some default
  | some b => read? b

namespace PoolConfig

/-- The names of the fields. -/
def names : List String := ["max_retained_properties", "max_free_slots"]

/-- The bounds from their fields. -/
def ofFields? {β : Type} (natural? : β → Option Nat) : List (Option β) → Option PoolConfig
  | [retained, slots] => do
    let retained ← fieldOr default.maxRetainedProperties natural? retained
    let slots ← fieldOr default.maxFreeSlots natural? slots
    return ⟨retained, slots⟩
  | _ => none

def ofJson? (j : Json) : Option PoolConfig := (j.fields? names).bind (ofFields? Json.natural?)

def ofToml? (t : Toml) : Option PoolConfig := (t.fields? names).bind (ofFields? Toml.natural?)

end PoolConfig

namespace RegistryConfig

/-- The names of the fields. -/
def names : List String := ["accept_private", "default_wait_timeout_ms"]

/-- The configuration from its fields. -/
def ofFields? {β : Type} (boolean? : β → Option Bool) (natural? : β → Option Nat) :
    List (Option β) → Option RegistryConfig
  | [accept, wait] => do
    let accept ← fieldOr default.acceptPrivate boolean? accept
    let wait ← fieldOr default.defaultWaitMs natural? wait
    return ⟨accept, wait⟩
  | _ => none

def ofJson? (j : Json) : Option RegistryConfig :=
  (j.fields? names).bind (ofFields? Json.bool? Json.natural?)

def ofToml? (t : Toml) : Option RegistryConfig :=
  (t.fields? names).bind (ofFields? Toml.boolean? Toml.natural?)

end RegistryConfig

/-! ### The whole configuration -/

/-- The configuration of a pool and of a registry. -/
structure Config where
  pool : PoolConfig
  registry : RegistryConfig
  deriving DecidableEq, Repr

/-- Why a file cannot be read. -/
inductive FileFault
  | missing
  | isDirectory
  deriving DecidableEq, Repr

/-- The wording of a fault. -/
def FileFault.text : FileFault → String
  | .missing => "No such file or directory (os error 2)"
  | .isDirectory => "Is a directory (os error 21)"

/-- Why a configuration cannot be loaded. -/
inductive ConfigError
  | unreadable (path : String) (fault : FileFault)
  /-- The text is no TOML document, or a field does not fit. -/
  | invalid
  deriving DecidableEq, Repr

/-- The wording of an error. -/
def ConfigError.message : ConfigError → String
  | .unreadable path fault => "cannot read config file " ++ path ++ ": " ++ fault.text
  | .invalid => "invalid config"

namespace Config

/-- The configuration that holds without one. -/
def default : Config := ⟨.default, .default⟩

/-- The configuration from the fields of a table. -/
def ofToml? (t : Toml) : Option Config := do
  let pool ← fieldOr PoolConfig.default PoolConfig.ofToml? (t.get? "pool")
  let registry ← fieldOr RegistryConfig.default RegistryConfig.ofToml? (t.get? "validator")
  return ⟨pool, registry⟩

/-- The configuration of a text. -/
def read (s : String) : Except ConfigError Config :=
  match (Toml.read? s).bind ofToml? with
  | some c => .ok c
  | none => .error .invalid

/-- The configuration of the file at a path, where `files` gives the content of a file. -/
def load (files : String → Except FileFault String) (path : String) : Except ConfigError Config :=
  match files path with
  | .ok s => read s
  | .error fault => .error (.unreadable path fault)

end Config

end TracePattern
