import TracePattern.Value.Basic

/-!
# Captured values

The values that one attempt at a match has captured so far, by key.  A captured key stays; capturing
it again replaces its value.  The entries are kept in ascending order of their keys, so that equal
collections have equal entries.

* `Captures`, `Captures.empty`, `Captures.insert`, `Captures.ofList`;
* `Captures.get?`, `Captures.contains`, `Captures.holds`;
* `Captures.equal`: equality with the equality of values.
-/

namespace TracePattern

/-- Captured values in ascending order of their keys. -/
structure Captures where
  entries : List (String × Value)
  sorted : entries.Pairwise fun a b => a.1 < b.1

namespace Captures

/-- Nothing is captured. -/
def empty : Captures := ⟨[], .nil⟩

instance : Inhabited Captures := ⟨empty⟩

@[ext] theorem ext {s t : Captures} (h : s.entries = t.entries) : s = t := by
  cases s; cases t; cases h; rfl

instance : DecidableEq Captures := fun s t =>
  if h : s.entries = t.entries then isTrue (ext h) else isFalse fun e => h (e ▸ rfl)

/-- Puts an entry in its place, instead of an entry of the same key. -/
def insertEntry (key : String) (value : Value) :
    List (String × Value) → List (String × Value)
  | [] => [(key, value)]
  | e :: rest =>
    if key < e.1 then (key, value) :: e :: rest
    else if e.1 < key then e :: insertEntry key value rest
    else (key, value) :: rest

theorem mem_insertEntry {key : String} {value : Value} {es : List (String × Value)}
    {e : String × Value} (h : e ∈ insertEntry key value es) : e = (key, value) ∨ e ∈ es := by
  induction es with
  | nil => simpa [insertEntry] using h
  | cons d rest ih =>
    unfold insertEntry at h
    split at h
    · simpa using h
    · split at h
      · rcases List.mem_cons.1 h with h | h
        · exact .inr (h ▸ List.mem_cons_self)
        · exact (ih h).imp_right (List.mem_cons_of_mem _)
      · rcases List.mem_cons.1 h with h | h
        · exact .inl h
        · exact .inr (List.mem_cons_of_mem _ h)

theorem sorted_insertEntry (key : String) (value : Value) {es : List (String × Value)}
    (h : es.Pairwise fun a b => a.1 < b.1) :
    (insertEntry key value es).Pairwise fun a b => a.1 < b.1 := by
  induction es with
  | nil => simp [insertEntry]
  | cons d rest ih =>
    have hd := List.pairwise_cons.1 h
    unfold insertEntry
    split
    · rename_i hlt
      refine List.pairwise_cons.2 ⟨fun e he => ?_, h⟩
      rcases List.mem_cons.1 he with rfl | he
      · exact hlt
      · exact String.lt_trans hlt (hd.1 e he)
    · rename_i hle
      split
      · rename_i hlt
        refine List.pairwise_cons.2 ⟨fun e he => ?_, ih hd.2⟩
        rcases mem_insertEntry he with rfl | he
        · exact hlt
        · exact hd.1 e he
      · rename_i hge
        have hkey : key = d.1 :=
          String.le_antisymm (String.not_lt.1 hge) (String.not_lt.1 hle)
        exact List.pairwise_cons.2 ⟨fun e he => hkey ▸ hd.1 e he, hd.2⟩

/-- Captures a value under a key. -/
def insert (s : Captures) (key : String) (value : Value) : Captures :=
  ⟨insertEntry key value s.entries, sorted_insertEntry key value s.sorted⟩

/-- Captures the values of a list from its first to its last. -/
def ofList (es : List (String × Value)) : Captures :=
  es.foldl (fun s e => s.insert e.1 e.2) empty

/-- The value of the entry of a key. -/
def find? (key : String) (es : List (String × Value)) : Option Value :=
  (es.find? fun e => e.1 = key).map Prod.snd

theorem find?_cons (key : String) (e : String × Value) (es : List (String × Value)) :
    find? key (e :: es) = if e.1 = key then some e.2 else find? key es := by
  by_cases h : e.1 = key <;> simp [find?, h]

theorem find?_insertEntry (key other : String) (value : Value) (es : List (String × Value)) :
    find? other (insertEntry key value es) =
      if key = other then some value else find? other es := by
  induction es with
  | nil => simp [insertEntry, find?_cons]
  | cons d rest ih =>
    unfold insertEntry
    split
    · rw [find?_cons]
    · rename_i hle
      split
      · rename_i hlt
        have hne : d.1 ≠ key := fun e => String.lt_irrefl _ (e ▸ hlt)
        rw [find?_cons, ih, find?_cons]
        by_cases h : key = other
        · subst h
          simp [hne]
        · simp [h]
      · rename_i hge
        have hkey : key = d.1 :=
          String.le_antisymm (String.not_lt.1 hge) (String.not_lt.1 hle)
        rw [find?_cons, find?_cons, hkey]
        split <;> rfl

/-- The value under a key. -/
def get? (s : Captures) (key : String) : Option Value := find? key s.entries

@[simp] theorem get?_empty (key : String) : empty.get? key = none := rfl

/-- A captured value is found under its key, and the others stay. -/
theorem get?_insert (s : Captures) (key other : String) (value : Value) :
    (s.insert key value).get? other = if key = other then some value else s.get? other :=
  find?_insertEntry key other value s.entries

/-- Something is captured under a key. -/
def contains (s : Captures) (key : String) : Bool := (s.get? key).isSome

/-- What is captured under a key equals the value. -/
def holds (s : Captures) (key : String) (value : Value) : Bool :=
  (s.get? key).any fun v => v.equal value

/-- The number of keys. -/
def size (s : Captures) : Nat := s.entries.length

/-- The keys in ascending order. -/
def keys (s : Captures) : List String := s.entries.map Prod.fst

/-- Equality of entries, in order. -/
def equalEntries : List (String × Value) → List (String × Value) → Bool
  | [], [] => true
  | a :: as, b :: bs => a.1 = b.1 && a.2.equal b.2 && equalEntries as bs
  | _, _ => false

/-- Equality with the equality of values; with a foreign value captured it does not even hold of
one collection and itself. -/
def equal (s t : Captures) : Bool := equalEntries s.entries t.entries

end Captures

end TracePattern
