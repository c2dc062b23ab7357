import Mathlib.Tactic.Common
import TracePattern.Proofs.Scope

/-!
# Keys of events

Which key an event has does not depend on when it is asked for: the keys that were extracted from
the event before are those that would be extracted now, and a set of keys behaves like the list of
its keys.

* `KeyExtractor.key?`: the key of an event, extracted afresh;
* `Keys.Fits`, `Keys.find_of_fits`: keys that were extracted from the same event;
* `KeySet.hasWith`, `KeySet.has`: the keys of a set, by equality;
* `KeySet.hasWith_insertWith?`: what a further key changes.
-/

namespace TracePattern

/-- The key of an event, if it has one. An extractor that ends without a value finds no key. -/
def KeyExtractor.key? (k : KeyExtractor) (event : Record) : Option Value :=
  match (k.extract event).guarded with
  | .ok value => value
  | .error _ => none

/-- Extractors of one number in the scope are copies of one extractor. -/
def Scope.Coherent (S : Scope) : Prop :=
  ∀ j k, S.key j → S.key k → j.ident = k.ident → j = k

theorem Scope.coherent_of {e : Expr} (h : e.Coherent) : (Scope.of e).Coherent :=
  fun j k hj hk => h j hj k hk

/-- The keys kept under the numbers of extractors are those that the extractors find. -/
def Keys.Fits (keys : Keys) (S : Scope) (event : Record) : Prop :=
  ∀ k, S.key k → ∀ entry ∈ keys, entry.1 = k.ident → entry.2 = k.key? event

namespace Keys

variable {S : Scope} {event : Record}

theorem fits_nil (S : Scope) (event : Record) : Fits [] S event := by
  intro k _ entry h
  cases h

/-- **A key that was kept is the one that would be extracted.** -/
theorem find_of_fits {keys : Keys} {k : KeyExtractor} (coherent : S.Coherent) (hk : S.key k)
    (h : keys.Fits S event) :
    (keys.find k event).1 = k.key? event ∧ (keys.find k event).2.1.Fits S event := by
  unfold find
  split
  · rename_i entry hfind
    have hid : entry.1 = k.ident := by simpa using List.find?_some hfind
    exact ⟨h k hk entry (List.mem_of_find?_eq_some hfind) hid, h⟩
  · refine ⟨rfl, fun j hj entry hmem hid => ?_⟩
    rcases List.mem_append.1 hmem with hmem | hmem
    · exact h j hj entry hmem hid
    · obtain rfl : entry = _ := by simpa using hmem
      rw [coherent j k hj hk hid.symm]
      rfl

end Keys

/-! ### Sets of keys -/

namespace KeySet

variable {hash : List Int → UInt64}

/-- The set has a key that equals this one. -/
def hasWith (hash : List Int → UInt64) (s : KeySet) (key : Value) : Bool :=
  (s.buckets.getD (hash key.digest) []).any fun k => k.equal key

/-- The set has a key that equals this one. -/
def has (s : KeySet) (key : Value) : Bool := s.hasWith mix key

theorem insertWith?_eq_none {s : KeySet} {key : Value} :
    s.insertWith? hash key = none ↔ s.hasWith hash key = true := by
  unfold insertWith? hasWith
  dsimp only
  split
  · rename_i h
    simpa using h
  · rename_i h
    simpa using h

@[simp] theorem hasWith_empty (key : Value) : empty.hasWith hash key = false := by
  simp [hasWith, empty]

/-- A further key is the only one that comes to a set, whatever the hash. -/
theorem hasWith_insertWith? {s t : KeySet} {key : Value} (h : s.insertWith? hash key = some t)
    (other : Value) :
    t.hasWith hash other = true ↔ s.hasWith hash other = true ∨ key.equal other = true := by
  unfold insertWith? at h
  dsimp only at h
  split at h
  · cases h
  · cases h
    unfold hasWith
    rw [Std.HashMap.getD_insert]
    by_cases hh : hash key.digest = hash other.digest
    · rw [if_pos (by simpa using hh), List.any_append, hh]
      simp
    · rw [if_neg (by simpa using hh)]
      have : key.equal other = false := by
        by_contra he
        exact hh (congrArg hash (Value.digest_eq_of_equal (by simpa using he)))
      simp [this]

@[simp] theorem has_empty (key : Value) : empty.has key = false := hasWith_empty key

theorem insert?_eq_none {s : KeySet} {key : Value} : s.insert? key = none ↔ s.has key = true :=
  insertWith?_eq_none

theorem exists_insert? {s : KeySet} {key : Value} (h : s.has key = false) :
    ∃ t, s.insert? key = some t := by
  cases ht : s.insert? key with
  | none => simp [insert?_eq_none.1 ht] at h
  | some t => exact ⟨t, rfl⟩

theorem has_insert? {s t : KeySet} {key : Value} (h : s.insert? key = some t) (other : Value) :
    t.has other = true ↔ s.has other = true ∨ key.equal other = true :=
  hasWith_insertWith? h other

end KeySet

end TracePattern
