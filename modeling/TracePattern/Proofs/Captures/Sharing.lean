import Mathlib.Data.List.Count
import Mathlib.Data.List.Nodup
import Mathlib.Tactic.Common
import TracePattern.Captures.Shelf

/-!
# Holders of shared storage

The counts of holders are right: the holders of a cell are the names that use it.  So a cell that is
written in place is used by the written name alone, and every other name shows what it did.

* `Shelf.Counts`, `Shelf.Tended`: every cell counts its holders, which are the names that use it;
* `Shelf.Alone`, `Shelf.alone_unshare`, `Shelf.alone_capture`: a holder writes in a cell that it
  holds alone;
* `Shelf.Becomes`: one name came to show something else, and the others did not;
* `Shelf.becomes_put`, `Shelf.becomes_share`, `Shelf.becomes_insert`, `Shelf.becomes_extend`: so it
  is with every new, forked and written collection.
-/

namespace TracePattern

namespace Shelf

variable {s t : Shelf} {holds : List ℕ} {i j : ℕ} {c : Captures} {name other : String}

/-! ### Holders -/

/-- The holds on cells are these, and every cell counts its own. -/
structure Counts (s : Shelf) (holds : List ℕ) : Prop where
  inside : ∀ i ∈ holds, i < s.cells.length
  holders : ∀ i cell, s.cells[i]? = some cell → cell.holders = holds.count i

theorem Counts.perm {holds' : List ℕ} (h : s.Counts holds) (same : holds.Perm holds') :
    s.Counts holds' where
  inside i mem := h.inside i (same.mem_iff.2 mem)
  holders i cell found := (h.holders i cell found).trans (same.count_eq i)

@[simp] theorem content?_retain (s : Shelf) (i j : ℕ) :
    (s.retain i).content? j = s.content? j := by
  by_cases here : i = j <;> simp [content?, retain, here, Function.comp_def]

@[simp] theorem content?_release (s : Shelf) (i j : ℕ) :
    (s.release i).content? j = s.content? j := by
  by_cases here : i = j <;> simp [content?, release, here, Function.comp_def]

theorem Counts.retain (h : s.Counts holds) (inside : i < s.cells.length) :
    (s.retain i).Counts (i :: holds) where
  inside j mem := by
    rw [Shelf.retain, List.length_modify]
    rcases List.mem_cons.1 mem with rfl | mem
    · exact inside
    · exact h.inside j mem
  holders j cell found := by
    rw [Shelf.retain] at found
    by_cases here : i = j
    · subst here
      rw [List.getElem?_modify_eq] at found
      obtain ⟨old, before, rfl⟩ := Option.map_eq_some_iff.1 found
      rw [List.count_cons_self, ← h.holders i old before]
    · rw [List.getElem?_modify_ne _ _ here] at found
      rw [List.count_cons_of_ne here, h.holders j cell found]

theorem Counts.release (h : s.Counts (i :: holds)) : (s.release i).Counts holds where
  inside j mem := by
    rw [Shelf.release, List.length_modify]
    exact h.inside j (List.mem_cons_of_mem i mem)
  holders j cell found := by
    rw [Shelf.release] at found
    by_cases here : i = j
    · subst here
      rw [List.getElem?_modify_eq] at found
      obtain ⟨old, before, rfl⟩ := Option.map_eq_some_iff.1 found
      have counted := h.holders i old before
      rw [List.count_cons_self] at counted
      exact Nat.sub_eq_of_eq_add counted
    · rw [List.getElem?_modify_ne _ _ here] at found
      rw [h.holders j cell found, List.count_cons_of_ne here]

/-- There is now a cell held by one holder alone, with this content. The other holds and what is in
their cells are as before. -/
structure Alone (s : Shelf) (holds : List ℕ) (done : Shelf × ℕ) (c : Captures) : Prop where
  counts : done.1.Counts (done.2 :: holds)
  alone : done.2 ∉ holds
  here : done.1.content? done.2 = some c
  others : ∀ j ∈ holds, done.1.content? j = s.content? j
  names : done.1.names = s.names

/-- A new cell. -/
theorem alone_allocate (h : s.Counts holds) (c : Captures) : Alone s holds (s.allocate c) c := by
  have fresh : s.cells.length ∉ holds := fun mem => Nat.lt_irrefl _ (h.inside _ mem)
  refine ⟨⟨?inside, ?holders⟩, fresh, ?here, ?others, rfl⟩
  case inside =>
    intro j mem
    simp only [allocate, List.length_append, List.length_singleton] at mem ⊢
    rcases List.mem_cons.1 mem with rfl | mem
    · exact Nat.lt_succ_self _
    · exact Nat.lt_succ_of_lt (h.inside j mem)
  case holders =>
    intro j cell found
    simp only [allocate] at found ⊢
    by_cases new : s.cells.length = j
    · subst new
      rw [List.getElem?_concat_length] at found
      cases found
      rw [List.count_cons_self, List.count_eq_zero_of_not_mem fresh]
    · have old : j < s.cells.length := by
        have bound := (List.getElem?_eq_some_iff.1 found).1
        rw [List.length_append, List.length_singleton] at bound
        omega
      rw [List.getElem?_append_left old] at found
      rw [List.count_cons_of_ne new, h.holders j cell found]
  case here => simp [content?, allocate]
  case others =>
    intro j mem
    rw [content?, allocate, List.getElem?_append_left (h.inside j mem)]
    rfl

/-- **A cell is copied unless it is held once.** -/
theorem alone_unshare (h : s.Counts (i :: holds)) (shown : s.content? i = some c) :
    Alone s holds (s.unshare i) c := by
  obtain ⟨cell, found, rfl⟩ := Option.map_eq_some_iff.1 shown
  have counted := h.holders i cell found
  rw [List.count_cons_self] at counted
  simp only [unshare, found]
  split
  · rename_i once
    have alone : holds.count i = 0 := by omega
    exact ⟨h, List.count_eq_zero.1 alone, shown, fun _ _ => rfl, rfl⟩
  · have copied := alone_allocate h.release cell.captures
    exact ⟨copied.counts, copied.alone, copied.here,
      fun j mem => (copied.others j mem).trans (content?_release s i j), copied.names⟩

/-- **A capture is for its holder alone.** -/
theorem alone_capture (h : s.Counts (i :: holds)) (shown : s.content? i = some c) (key : String)
    (value : Value) : Alone s holds (s.capture i key value) (c.insert key value) := by
  have unshared := alone_unshare h shown
  unfold capture
  generalize s.unshare i = done at unshared
  obtain ⟨t, k⟩ := done
  obtain ⟨counts, alone, here, others, names⟩ := unshared
  refine ⟨⟨?inside, ?holders⟩, alone, ?here, ?others, names⟩
  case inside =>
    intro j mem
    rw [List.length_modify]
    exact counts.inside j mem
  case holders =>
    intro j cell found
    by_cases same : k = j
    · subst same
      rw [List.getElem?_modify_eq] at found
      obtain ⟨old, before, rfl⟩ := Option.map_eq_some_iff.1 found
      exact counts.holders k old before
    · rw [List.getElem?_modify_ne _ _ same] at found
      exact counts.holders j cell found
  case here =>
    obtain ⟨cell, found, rfl⟩ := Option.map_eq_some_iff.1 here
    simp [content?, found]
  case others =>
    intro j mem
    have different : k ≠ j := fun same => alone (same ▸ mem)
    rw [content?, List.getElem?_modify_ne _ _ different]
    exact others j mem

/-! ### Names -/

/-- Every name stands once, and the holders of cells are the names. -/
structure Tended (s : Shelf) : Prop where
  nodup : (s.names.map Prod.fst).Nodup
  counts : s.Counts (s.names.map Prod.snd)

theorem tended_empty : empty.Tended := ⟨.nil, ⟨by simp [empty], by simp [empty]⟩⟩

/-- The holds of all names but one. -/
def holdsBut (s : Shelf) (name : String) : List ℕ :=
  (s.names.filter fun n => n.1 ≠ name).map Prod.snd

theorem lookup_filter_ne {names : List (String × ℕ)} (different : other ≠ name) :
    (names.filter fun n => n.1 ≠ name).lookup other = names.lookup other := by
  induction names with
  | nil => rfl
  | cons n names ih =>
    obtain ⟨key, cell⟩ := n
    by_cases here : key = name
    · subst here
      rw [List.filter_cons_of_neg (by simp), List.lookup_cons, beq_false_of_ne different]
      exact ih
    · rw [List.filter_cons_of_pos (by simpa using here), List.lookup_cons, List.lookup_cons, ih]

theorem cell?_bind_self (s : Shelf) (name : String) (i : ℕ) :
    (s.bind name i).cell? name = some i := by
  simp [cell?, bind]

theorem cell?_bind_of_ne (s : Shelf) (i : ℕ) (different : other ≠ name) :
    (s.bind name i).cell? other = s.cell? other := by
  rw [cell?, bind, List.lookup_cons, beq_false_of_ne different]
  exact lookup_filter_ne different

theorem mem_holds (found : s.cell? name = some i) : i ∈ s.names.map Prod.snd := by
  obtain ⟨before, after, names, -⟩ := List.lookup_eq_some_iff.1 found
  exact List.mem_map.2 ⟨(name, i), names ▸ List.mem_append_cons_self, rfl⟩

theorem mem_holdsBut (different : other ≠ name) (found : s.cell? other = some i) :
    i ∈ s.holdsBut name := by
  obtain ⟨before, after, names, -⟩ :=
    List.lookup_eq_some_iff.1 ((lookup_filter_ne different).trans found)
  exact List.mem_map.2 ⟨(other, i), names ▸ List.mem_append_cons_self, rfl⟩

theorem holdsBut_of_none (unknown : s.cell? name = none) :
    s.names.map Prod.snd = s.holdsBut name := by
  rw [holdsBut, List.filter_eq_self.2]
  intro n mem
  have different := bne_iff_ne.1 (List.lookup_eq_none_iff.1 unknown n mem)
  exact decide_eq_true different.symm

theorem Tended.perm_holdsBut (h : s.Tended) (found : s.cell? name = some i) :
    (s.names.map Prod.snd).Perm (i :: s.holdsBut name) := by
  obtain ⟨before, after, names, -⟩ := List.lookup_eq_some_iff.1 found
  have once := h.nodup
  rw [names, List.map_append, List.map_cons] at once
  have others : ∀ n ∈ before ++ after, decide (n.1 ≠ name) = true := by
    intro n mem
    refine decide_eq_true fun same => (List.nodup_middle.1 once).notMem ?_
    rw [← List.map_append]
    exact List.mem_map.2 ⟨n, mem, same⟩
  have rest : s.holdsBut name = (before ++ after).map Prod.snd := by
    rw [holdsBut, names, List.filter_append, List.filter_cons_of_neg (by simp),
      ← List.filter_append, List.filter_eq_self.2 others]
  rw [rest, names]
  exact List.perm_middle.map Prod.snd

theorem Tended.content (h : s.Tended) (found : s.cell? name = some i) :
    ∃ c, s.content? i = some c := by
  have inside := h.counts.inside i (mem_holds found)
  exact ⟨_, Option.map_eq_some_iff.2 ⟨_, List.getElem?_eq_getElem inside, rfl⟩⟩

/-- The name uses the cell now and shows what is in it. The other names use and show what they
did. -/
structure Becomes (s t : Shelf) (name : String) (i : ℕ) (c : Captures) : Prop where
  tended : t.Tended
  cell : t.cell? name = some i
  here : t.get? name = some c
  others : ∀ other, other ≠ name → t.cell? other = s.cell? other
  kept : ∀ other, other ≠ name → t.get? other = s.get? other

/-- No other name uses the cell. -/
def Own (s : Shelf) (name : String) (i : ℕ) : Prop :=
  ∀ other, other ≠ name → s.cell? other ≠ some i

theorem becomes_bind (h : s.Tended) (names : t.names = s.names)
    (counts : t.Counts (i :: s.holdsBut name)) (here : t.content? i = some c)
    (others : ∀ j ∈ s.holdsBut name, t.content? j = s.content? j) :
    Becomes s (t.bind name i) name i c := by
  have cells (other : String) (different : other ≠ name) :
      (t.bind name i).cell? other = s.cell? other := by
    rw [cell?_bind_of_ne t i different, cell?, cell?, names]
  refine ⟨⟨?nodup, ?counts⟩, cell?_bind_self t name i, ?here, cells, ?kept⟩
  case nodup =>
    rw [Shelf.bind, names, List.map_cons, List.nodup_cons]
    refine ⟨?_, h.nodup.sublist (List.filter_sublist.map _)⟩
    simp
  case counts =>
    rw [Shelf.bind, names]
    exact ⟨counts.inside, counts.holders⟩
  case here =>
    rw [get?, cell?_bind_self]
    exact here
  case kept =>
    intro other different
    rw [get?, get?, cells other different]
    cases found : s.cell? other with
    | none => rfl
    | some j => exact others j (mem_holdsBut different found)

/-- What a name held before, it gives up. -/
theorem becomes_assign (h : s.Tended) (names : t.names = s.names)
    (counts : t.Counts (i :: s.names.map Prod.snd)) (here : t.content? i = some c)
    (others : ∀ j ∈ s.names.map Prod.snd, t.content? j = s.content? j) :
    Becomes s (t.assign name i) name i c := by
  have same : t.cell? name = s.cell? name := by rw [cell?, cell?, names]
  unfold assign
  cases found : s.cell? name with
  | none =>
    rw [same, found]
    have rest := holdsBut_of_none found
    exact becomes_bind h names (rest ▸ counts) here (rest ▸ others)
  | some old =>
    rw [same, found]
    have rest := h.perm_holdsBut found
    have released : (t.release old).Counts (i :: s.holdsBut name) := by
      refine Counts.release (counts.perm ?_)
      exact (rest.cons i).trans (List.Perm.swap old i _)
    refine becomes_bind h names released ((content?_release t old i).trans here) ?_
    intro j mem
    have held : j ∈ s.names.map Prod.snd := rest.mem_iff.2 (List.mem_cons_of_mem old mem)
    exact (content?_release t old j).trans (others j held)

/-! ### New, forked and written collections -/

theorem becomes_put (h : s.Tended) (name : String) (c : Captures) :
    ∃ i, Becomes s (s.put name c) name i c ∧ s.Own name i := by
  have new := alone_allocate h.counts c
  exact ⟨_, becomes_assign h new.names new.counts new.here new.others,
    fun other _ found => new.alone (mem_holds found)⟩

theorem becomes_share (h : s.Tended) {origin : String} (found : s.cell? origin = some i)
    (shown : s.content? i = some c) (name : String) :
    ∃ t, s.share origin name = some t ∧ Becomes s t name i c := by
  have counts := h.counts.retain (h.counts.inside i (mem_holds found))
  refine ⟨(s.retain i).assign name i, by rw [share, found]; rfl, ?_⟩
  exact becomes_assign h rfl counts ((content?_retain s i i).trans shown)
    fun j _ => content?_retain s i j

theorem becomes_insert (h : s.Tended) (found : s.cell? name = some i)
    (shown : s.content? i = some c) (key : String) (value : Value) :
    ∃ t j, s.insert name key value = some t ∧ Becomes s t name j (c.insert key value) ∧
      s.Own name j := by
  have written := alone_capture (h.counts.perm (h.perm_holdsBut found)) shown key value
  generalize result : s.capture i key value = done at written
  obtain ⟨t, j⟩ := done
  refine ⟨t.bind name j, j, by rw [insert, found, Option.map_some, result], ?_, ?_⟩
  · exact becomes_bind h written.names written.counts written.here written.others
  · exact fun other different found => written.alone (mem_holdsBut different found)

theorem becomes_extend (h : s.Tended) {origin : String} (found : s.cell? origin = some i)
    (shown : s.content? i = some c) (name key : String) (value : Value) :
    ∃ t j, s.extend origin name key value = some t ∧ Becomes s t name j (c.insert key value) ∧
      s.Own name j := by
  have counts := h.counts.retain (h.counts.inside i (mem_holds found))
  have written := alone_capture counts ((content?_retain s i i).trans shown) key value
  generalize result : (s.retain i).capture i key value = done at written
  obtain ⟨t, j⟩ := done
  refine ⟨t.assign name j, j, by rw [extend, found, Option.map_some, result], ?_, ?_⟩
  · exact becomes_assign h written.names written.counts written.here
      fun j mem => (written.others j mem).trans (content?_retain s i j)
  · exact fun other _ found => written.alone (mem_holds found)

end Shelf

end TracePattern
