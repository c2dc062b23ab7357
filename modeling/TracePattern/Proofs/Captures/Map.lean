import Mathlib.Data.Set.Card
import TracePattern.Captures.Basic

/-!
# Captured values as a map

Captured values are a map from keys to values.  Their entries list the map in ascending order of the
keys, and two of them are equal if they have the same keys with equal values.

* `Captures.Shows`: all that captured values show of a map;
* `Captures.shows_iff`: they show it if the value under every key is that of the map;
* `Captures.shows_empty`, `Captures.shows_insert`, `Captures.shows_ofList`: the maps that come out
  of captures;
* `Captures.equal_iff`: equality.
-/

namespace TracePattern

namespace Captures

/-- The captured values are those of the map. -/
structure Shows (c : Captures) (m : String → Option Value) : Prop where
  get? : ∀ key, c.get? key = m key
  contains : ∀ key, c.contains key = true ↔ m key ≠ none
  holds : ∀ key value,
    c.holds key value = true ↔ ∃ kept, m key = some kept ∧ kept.equal value = true
  size : c.size = {key | m key ≠ none}.ncard
  entries : ∀ key value, (key, value) ∈ c.entries ↔ m key = some value
  ascending : c.entries.Pairwise fun a b => a.1 < b.1

/-- In ascending entries every key is found with its one value. -/
theorem find?_eq_some_iff {es : List (String × Value)}
    (ascending : es.Pairwise fun a b => a.1 < b.1) {key : String} {value : Value} :
    find? key es = some value ↔ (key, value) ∈ es := by
  induction es with
  | nil => simp [find?]
  | cons e rest ih =>
    obtain ⟨first, ascending⟩ := List.pairwise_cons.1 ascending
    rw [find?_cons, List.mem_cons]
    by_cases here : e.1 = key
    · subst here
      have none : (e.1, value) ∉ rest :=
        fun later => String.lt_irrefl e.1 (first (e.1, value) later)
      rw [if_pos rfl]
      constructor
      · rintro ⟨⟩
        exact .inl rfl
      · rintro (same | mem)
        · rw [← same]
        · exact absurd mem none
    · rw [if_neg here, ih ascending]
      refine ⟨.inr, fun mem => mem.resolve_left ?_⟩
      rintro rfl
      exact here rfl

/-- Keys below all entries are not found. -/
theorem find?_eq_none_of_lt {es : List (String × Value)} {key : String}
    (below : ∀ e ∈ es, key < e.1) : find? key es = none := by
  rw [find?, Option.map_eq_none_iff, List.find?_eq_none]
  intro e mem same
  have less := below e mem
  rw [of_decide_eq_true same] at less
  exact String.lt_irrefl _ less

theorem nodup_keys (c : Captures) : c.keys.Nodup := by
  refine List.pairwise_map.2 (c.sorted.imp ?_)
  intro a b less same
  exact String.lt_irrefl _ (same ▸ less)

theorem shows_iff {c : Captures} {m : String → Option Value} :
    c.Shows m ↔ ∀ key, c.get? key = m key := by
  refine ⟨Shows.get?, fun same => ?_⟩
  have entries (key : String) (value : Value) : (key, value) ∈ c.entries ↔ m key = some value := by
    rw [← same]
    exact (find?_eq_some_iff c.sorted).symm
  refine ⟨same, fun key => ?contains, fun key value => ?holds, ?size, entries, c.sorted⟩
  case contains => rw [contains, Option.isSome_iff_ne_none, same]
  case holds => rw [holds, same, Option.any_eq_true]
  case size =>
    have keys : {key | m key ≠ none} = ↑c.keys.toFinset := by
      ext key
      rw [List.coe_toFinset, Set.mem_ofPred_eq, Set.mem_ofPred_eq, Option.ne_none_iff_exists']
      simp only [← entries, keys, List.mem_map, Prod.exists, exists_and_right, exists_eq_right]
    rw [keys, Set.ncard_coe_finset, List.toFinset_card_of_nodup c.nodup_keys, Captures.keys,
      List.length_map]
    rfl

theorem shows_empty : empty.Shows fun _ => none := shows_iff.2 get?_empty

theorem shows_insert {c : Captures} {m : String → Option Value} (h : c.Shows m) (key : String)
    (value : Value) : (c.insert key value).Shows (Function.update m key (some value)) := by
  refine shows_iff.2 fun other => ?_
  rw [get?_insert, Function.update_apply, h.get?]
  exact if_congr eq_comm rfl rfl

/-- The map of some pairs, of which later ones replace earlier ones of the same key. -/
def mapOf (es : List (String × Value)) : String → Option Value :=
  es.foldl (fun m e => Function.update m e.1 (some e.2)) fun _ => none

theorem shows_ofList (es : List (String × Value)) : (ofList es).Shows (mapOf es) := by
  have further : ∀ (es : List (String × Value)) (c : Captures) (m : String → Option Value),
      c.Shows m → (es.foldl (fun s e => s.insert e.1 e.2) c).Shows
        (es.foldl (fun m e => Function.update m e.1 (some e.2)) m) := by
    intro es
    induction es with
    | nil => exact fun c m h => h
    | cons e rest ih => exact fun c m h => ih _ _ (shows_insert h e.1 e.2)
  exact further es _ _ shows_empty

/-! ### Equality -/

theorem equalEntries_iff {es fs : List (String × Value)}
    (ascending : es.Pairwise fun a b => a.1 < b.1) (ascending' : fs.Pairwise fun a b => a.1 < b.1) :
    equalEntries es fs = true ↔
      ∀ key, Option.Rel (fun v w => v.equal w = true) (find? key es) (find? key fs) := by
  induction es generalizing fs with
  | nil =>
    cases fs with
    | nil => exact iff_of_true rfl fun _ => .none
    | cons f fs =>
      refine iff_of_false (by simp [equalEntries]) fun same => ?_
      have here := same f.1
      rw [find?_cons, if_pos rfl] at here
      cases here
  | cons e es ih =>
    cases fs with
    | nil =>
      refine iff_of_false (by simp [equalEntries]) fun same => ?_
      have here := same e.1
      rw [find?_cons, if_pos rfl] at here
      cases here
    | cons f fs =>
      obtain ⟨first, ascending⟩ := List.pairwise_cons.1 ascending
      obtain ⟨first', ascending'⟩ := List.pairwise_cons.1 ascending'
      -- The smaller one of two different first keys is missing in the other list.
      by_cases less : e.1 < f.1
      · have missing : find? e.1 (f :: fs) = none := by
          refine find?_eq_none_of_lt (List.forall_mem_cons.2 ⟨less, fun g mem => ?_⟩)
          exact String.lt_trans less (first' g mem)
        refine iff_of_false (by simp [equalEntries, String.ne_of_lt less]) fun same => ?_
        have here := same e.1
        rw [find?_cons, if_pos rfl, missing] at here
        cases here
      by_cases greater : f.1 < e.1
      · have missing : find? f.1 (e :: es) = none := by
          refine find?_eq_none_of_lt (List.forall_mem_cons.2 ⟨greater, fun g mem => ?_⟩)
          exact String.lt_trans greater (first g mem)
        refine iff_of_false (by simp [equalEntries, (String.ne_of_lt greater).symm]) fun same => ?_
        have here := same f.1
        rw [missing, find?_cons, if_pos rfl] at here
        cases here
      have key : e.1 = f.1 := String.le_antisymm (String.not_lt.1 greater) (String.not_lt.1 less)
      have rest (other : String) (same : f.1 = other) :
          find? other es = none ∧ find? other fs = none := by
        subst same
        exact ⟨find?_eq_none_of_lt fun g mem => key ▸ first g mem, find?_eq_none_of_lt first'⟩
      rw [equalEntries, Bool.and_eq_true, Bool.and_eq_true, ih ascending ascending',
        decide_eq_true key]
      simp only [find?_cons, key, true_and]
      constructor
      · rintro ⟨values, same⟩ other
        split
        · exact .some values
        · exact same other
      · intro same
        constructor
        · have here := same f.1
          rw [if_pos rfl, if_pos rfl] at here
          cases here
          assumption
        · intro other
          by_cases here : f.1 = other
          · rw [(rest other here).1, (rest other here).2]
            exact .none
          · have there := same other
            rwa [if_neg here, if_neg here] at there

/-- **Captured values are equal** if they have the same keys with equal values. -/
theorem equal_iff {c d : Captures} {m n : String → Option Value} (h : c.Shows m) (h' : d.Shows n) :
    c.equal d = true ↔ ∀ key, Option.Rel (fun v w => v.equal w = true) (m key) (n key) := by
  rw [equal, equalEntries_iff c.sorted d.sorted]
  refine forall_congr' fun key => ?_
  rw [← h.get?, ← h'.get?]
  rfl

end Captures

end TracePattern
