import TracePattern.Proofs.Memory.Agreement

/-!
# Keys are extracted once

Within an event a key that was extracted is kept for all who ask for it later: for the routers of its
extractor, and for the branches in groups of it. It does not matter for what happens. Without keys
that are kept, the extractors run whenever a key is asked for, and everything else is the same.

* `Memory.Once`: what is kept of an event, next to an event of which nothing is kept;
* `Memory.agree_afresh`: the answers are the same;
* `Path.extract_once`: a path with and without kept keys.
-/

namespace TracePattern

variable {S : Scope} {event : Record}

/-- A key is asked for: it has been extracted before, or the extractor runs now. -/
theorem Keys.find_cases (keys : Keys) (k : KeyExtractor) (event : Record) :
    (k.ident ∈ keys.map Prod.fst ∧ (keys.find k event).2 = (keys, [])) ∨
      k.ident ∉ keys.map Prod.fst ∧ ∃ found, (keys.find k event).2 = (keys ++ [(k.ident, found)],
        .extracted k.ident :: (k.extract event).marks.map .marked) := by
  unfold find
  split
  · rename_i entry found
    have same : entry.1 = k.ident := by simpa using List.find?_some found
    exact .inl ⟨same ▸ List.mem_map_of_mem (List.mem_of_find?_eq_some found), rfl⟩
  · rename_i missing
    refine .inr ⟨fun mem => ?_, _, rfl⟩
    obtain ⟨entry, mem, same⟩ := List.mem_map.1 mem
    simpa [same] using List.find?_eq_none.1 missing entry mem

namespace Memory

/-- What is kept of an event are the keys of the extractors that were run, each of them once. Where
nothing is kept, the same extractors were run. -/
structure Once (S : Scope) (event : Record) (r s : Recall) : Prop where
  fits : r.keys.Fits S event
  ran : r.keys.map Prod.fst = r.ran
  nodup : r.ran.Nodup
  same : ∀ k, k ∈ r.ran ↔ k ∈ s.ran

theorem once_nil (S : Scope) (event : Record) : Once S event ⟨[], []⟩ ⟨[], []⟩ :=
  ⟨Keys.fits_nil S event, rfl, .nil, fun _ => .rfl⟩

theorem Once.ask (coherent : S.Coherent) {k : KeyExtractor} (hk : S.key k) {r s : Recall}
    (once : Once S event r s) : Once S event (r.ask .kept k event) (s.ask .afresh k event) := by
  have fits := (Keys.find_of_fits coherent hk once.fits).2
  obtain ⟨known, kept⟩ | ⟨new, found, kept⟩ := r.keys.find_cases k event
  all_goals
    have asked : r.ask .kept k event = ⟨(r.keys.find k event).2.1,
      r.ran ++ Note.extractions (r.keys.find k event).2.2⟩ := rfl
    have again : s.ask .afresh k event = ⟨s.keys, s.ran ++ [k.ident]⟩ := by
      simp [Recall.ask, afresh]
    rw [asked, again]
    rw [kept] at fits ⊢
    rw [once.ran] at *
  · refine ⟨fits, by simpa [Note.extractions] using once.ran, ?_, fun j => ?_⟩
    · simpa [Note.extractions] using once.nodup
    · simp only [Note.extractions, List.filterMap_nil, List.append_nil, List.mem_append,
        List.mem_singleton, ← once.same j]
      exact ⟨.inl, fun h => h.elim id fun same => same ▸ known⟩
  · refine ⟨fits, by simp [once.ran], ?_, fun j => ?_⟩
    · simpa using once.nodup.concat new
    · simp [once.same j]

/-- What is kept of an event does not show in the answers. -/
theorem agree_afresh (coherent : S.Coherent) (event : Record) :
    Agree S event .kept .afresh (Once S event) (fun _ => Eq) where
  found hk _ _ once := (Keys.find_of_fits coherent hk once.fits).1.symm
  keeps hk _ _ once := once.ask coherent hk
  empty _ := rfl
  insert := by
    rintro router seen _ rfl key
    show Option.Rel Eq (seen.insert? key) (seen.insert? key)
    cases seen.insert? key with
    | none => exact .none
    | some known => exact .some rfl

end Memory

theorem Branch.Alike.eq {b c : Branch} (h : b.Alike (fun _ => Eq) c) : c = b := by
  obtain ⟨id, captures, frames, cursor⟩ := b
  obtain ⟨id', captures', frames', cursor'⟩ := c
  obtain ⟨rfl, rfl, rfl, cursors⟩ := h
  cases cursors with
  | event => rfl
  | router key template same => rw [same]

namespace Path

theorem Alike.eq {p q : Path} (h : p.Alike (fun _ => Eq) q) : q = p := by
  obtain ⟨_, _, _, running, _, _, _, _⟩ := p
  obtain ⟨_, _, _, running', _, _, _, _⟩ := q
  obtain ⟨rfl, rfl, rfl, alike, rfl, rfl, rfl, rfl⟩ := h
  have same : List.Forall₂ Eq running running' := alike.imp fun _ _ h => h.eq.symm
  rw [List.forall₂_eq_eq_eq] at same
  rw [same]

/-- **Within an event each extractor runs once at most**, whatever becomes of it, and what happens is
what happens if no key is kept. In every life of a path, and in a further event:

* a path that runs extractors afresh whenever a key is asked for is the same path;
* the further event has the same effects on both, and sinks hear of the same results;
* in this event, no extractor runs twice in the path that keeps keys, and the extractors that run are
  those that run if no key is kept. -/
theorem extract_once {tree : Expr} (valid : tree.defect? = none) (coherent : tree.Coherent)
    (id : ℕ) (name : Option String) (initial : Captures) (acts : List Act) (e : Record) :
    let p := (start id name tree initial).after acts
    (start id name tree initial).afterBy .afresh acts = p ∧
    (p.onEventBy .afresh e).1 = (p.onEvent e).1 ∧
    (p.onEventBy .afresh e).2.reports = (p.onEvent e).2.reports ∧
    (Note.extractions (p.onEvent e).2.notes).Nodup ∧
    ∀ k, k ∈ Note.extractions (p.onEvent e).2.notes ↔
      k ∈ Note.extractions (p.onEventBy .afresh e).2.notes := by
  intro p
  have within : tree.Within (Scope.of tree) :=
    Expr.within_of_valid valid (fun _ hc => hc) fun _ hk => hk
  have agree := fun e => Memory.agree_afresh (Scope.coherent_of coherent) e
  have begins := alike_start (R := fun _ => Eq) (fun _ => rfl) id name tree initial
  have first : ∀ b ∈ (start id name tree initial).running, b.Within (Scope.of tree) :=
    within_after within []
  have same := begins.afterBy agree first (Memory.once_nil _) acts
  have alike : p.Alike (fun _ => Eq) p := by rwa [same.eq] at same
  obtain ⟨next, reports, keys, keys', once⟩ :=
    alike.onEventBy (agree e) (within_after within acts) (Memory.once_nil _ e)
  rw [onEventBy_kept] at next reports once
  exact ⟨same.eq, next.eq, reports, once.nodup, once.same⟩

/-- Groups within groups of one extractor, which ends without a value where there is no host. -/
theorem extract_once_shared :
    let host : KeyExtractor := ⟨0, "host", .derived fun event => require event "host"⟩
    let tree : Expr := .filter .always [.groupBy host (.eventThen .always
      [.groupBy host (.event .always), .event .always]), .groupBy host (.event .always)]
    let event (properties : List Property) : Record := ⟨"", "", "", .epoch, properties⟩
    let p := (start 1 none tree .empty).after [.event (event [.string "host" "a"])]
    tree.defect? = none ∧ tree.Coherent ∧
      (p.onEventBy .afresh (event [])).1 = (p.onEvent (event [])).1 ∧
      (Note.extractions (p.onEvent (event [])).2.notes).Nodup := by
  intro host tree event p
  have coherent : tree.Coherent := by
    have only : ∀ k ∈ tree.extractors, k = host := by
      intro k mem
      simpa [tree, Expr.extractors, Expr.extractorsOf] using mem
    intro j hj k hk _
    rw [only j hj, only k hk]
  obtain ⟨-, next, -, nodup, -⟩ := extract_once (by decide) coherent 1 none .empty
    [.event (event [.string "host" "a"])] (event [])
  exact ⟨by decide, coherent, next, nodup⟩

end Path

end TracePattern
