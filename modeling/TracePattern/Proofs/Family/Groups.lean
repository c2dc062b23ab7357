import TracePattern.Proofs.Family.Router

/-!
# Groups as paths of their own

A path whose expression groups its events is a family of independent paths of the template, one for
each key, and each of them gets the events with its key.

* `Path.Mirrored`: some branches of a path are those of another path, inside further frames;
* `Path.birthsAt`, `Path.Forms`: what the router forms in one event of a run;
* `Path.forms_of_first`: the first event with a key forms a path that gets all events with this key;
* `Path.groups_apart`: the whole family.
-/

namespace TracePattern

variable {S : Scope} {outer : List Frame} {link : List (ℕ × ℕ)} {fresh whole : Path}

namespace Path

/-- The branches of `whole` with the given numbers, running and ended, are those of `fresh` inside
further frames, in the same order. The numbers are renamed in their order. -/
structure Mirrored (outer : List Frame) (numbers : List ℕ) (fresh whole : Path) : Prop where
  count : numbers.length = fresh.nextId
  ascending : numbers.Pairwise (· < ·)
  running : (whole.running.filter fun b => b.id ∈ numbers) =
    fresh.running.map fun b => { b with id := numbers.getD b.id 0, frames := outer ++ b.frames }
  finished : (whole.finished.filter fun f => f.id ∈ numbers) =
    fresh.finished.map fun f =>
      { f with id := numbers.getD f.id 0, position := heading outer f.position }

end Path

/-- Linked numbers are found by their place. -/
theorem getD_of_linked {n : ℕ} (numbers : link.map Prod.fst = List.range n) {i j : ℕ}
    (h : (i, j) ∈ link) : (partOf link).getD i 0 = j := by
  obtain ⟨k, hget⟩ := List.mem_iff_getElem?.1 h
  have hfst : (link.map Prod.fst)[k]? = some i := by rw [List.getElem?_map, hget, Option.map_some]
  rw [numbers] at hfst
  obtain ⟨hk, hki⟩ := List.getElem?_eq_some_iff.1 hfst
  rw [List.getElem_range] at hki
  subst hki
  rw [partOf, List.getD_eq_getElem?_getD, List.getElem?_map, hget]
  rfl

theorem Family.mirrored (h : Family outer link fresh whole) :
    Path.Mirrored outer (partOf link) fresh whole := by
  refine ⟨?_, ?_, ?_, ?_⟩
  · have := congrArg List.length h.numbers
    simpa [partOf] using this
  · have ascending : link.Pairwise fun p q => p.1 < q.1 := by
      have := List.pairwise_lt_range (n := fresh.nextId)
      rw [← h.numbers] at this
      exact List.pairwise_map.1 this
    exact List.pairwise_map.2 (ascending.imp_of_mem fun hp hq hlt =>
      (h.linked.order _ hp _ hq).1 hlt)
  · refine eq_map_of_forall₂ (fun b c hbc => ?_) h.running
    have hid := getD_of_linked h.numbers hbc.2
    have strand := hbc.1
    rw [hid]
    cases c
    cases b
    simp only [Branch.strand, Strand.inside, Strand.mk.injEq] at strand
    simp [strand]
  · refine eq_map_of_forall₂ (fun f g hfg => ?_) h.finished
    have hid := getD_of_linked h.numbers hfg.2
    have ending := hfg.1
    rw [hid]
    cases f
    cases g
    simp only [Finish.ending, Ending.inside, Ending.mk.injEq] at ending
    simp [ending]

/-! ### Groups -/

namespace Path

/-- The pairs of branches in the notes of the event at place `i` of a run. -/
def birthsAt (p : Path) (events : List Record) (i : ℕ) : List (ℕ × ℕ) :=
  (p.onEvents (events.take i)).1.lineage ((events.drop i).take 1)

/-- The branches that follow from the router in the event at place `i` of a run, and all that go
back to them, are those of another path inside further frames. -/
def Forms (p : Path) (events : List Record) (i : ℕ) (outer : List Frame) (other : Path) : Prop :=
  ∃ numbers : List ℕ,
    (∀ n, n ∈ numbers ↔ Descends (p.birthsAt events i) (p.lineage events) 0 n) ∧
      Mirrored outer numbers other (p.onEvents events).1

theorem birthsAt_length (p : Path) (before : List Record) (e : Record) (later : List Record) :
    p.birthsAt (before ++ e :: later) before.length =
      Note.lineage ((p.onEvents before).1.onEvent e).2.notes := by
  have one := (onEvents_cons (p.onEvents before).1 e []).2
  rw [show lineage _ [] = [] from rfl, List.append_nil] at one
  rw [birthsAt, List.take_left, List.drop_left, List.take_succ_cons, List.take_zero, one]

theorem lineage_split (p : Path) (before : List Record) (e : Record) (later : List Record) :
    p.lineage (before ++ e :: later) = p.lineage before ++
      (Note.lineage ((p.onEvents before).1.onEvent e).2.notes ++
        ((p.onEvents before).1.onEvent e).1.lineage later) := by
  rw [(onEvents_append p before _).2, (onEvents_cons _ e later).2]

variable {key : KeyExtractor} {template : Expr} (coherent : S.Coherent)
  (within : (Expr.groupBy key template).Within S) (id : ℕ) (name : Option String)
  (initial : Captures)
include coherent within

/-- **The first event with a key forms a group**, which gets the later events with the same key and
is a path of the template otherwise. -/
theorem forms_of_first {e : Record} {value : Value} (hk : key.key? e = some value)
    {before : List Record} (first : ∀ d ∈ before, key.finds d value = false) (later : List Record) :
    (start id name (.groupBy key template) initial).Forms (before ++ e :: later) before.length
      [.route key value] ((start id name template (initial.insert key.name value)).onEvents
        (e :: later.filter fun d => key.finds d value)).1 := by
  let p := start id name (.groupBy key template) initial
  let q := start id name template (initial.insert key.name value)
  let here := (p.onEvents before).1
  have p_live : p.Live S := live_start within id name initial
  have q_live : q.Live S := live_start within.2 id name _
  have here_live : here.Live S := p_live.onEvents before
  have groups : OfGroups [Frame.route key value] := by
    intro f hf
    exact ⟨key, value, List.mem_singleton.1 hf⟩
  obtain ⟨known, hrouter, hknown⟩ := router_after coherent within id name initial before
  have unknown : known.has value = false := by
    by_contra has
    obtain ⟨d, hd, hfinds⟩ := (hknown value).1 (by simpa using has)
    simp [first d hd] at hfinds
  obtain ⟨link₁, founded, new, births⟩ :=
    here_live.founded coherent within hrouter hk unknown id name
  -- Later events get through to the group if and only if they have its key.
  have lets : ∀ d ∈ later, key.finds d value = true →
      ∀ captures, letsAll d captures [.route key value] = (captures, .ok true) := by
    intro d _ own captures
    have opened : (key.key? d).any (fun v => v.equal value) = true := own
    simp [letsAll, Frame.lets, opened]
  have stays : ∀ d ∈ later, key.finds d value = false → ∀ s : Strand,
      (s.inside [.route key value]).react d 0 = .stay (s.inside [.route key value]) := by
    intro d _ other s
    have inside : (s.inside [.route key value]).frames = [] ++ .route key value :: s.frames := rfl
    exact Strand.react_of_other_key inside other
  obtain ⟨link, family, descent⟩ :=
    founded.onEvents groups coherent (q_live.onEvent e) (here_live.onEvent e) lets stays
  refine ⟨partOf link, fun n => ?_, ?_⟩
  · rw [birthsAt_length, lineage_split]
    exact descent.descends (p_live.births coherent before) (here_live.births_onEvent coherent e)
      ((here_live.onEvent e).births coherent later) new births
      (fun _ hn => family.linked.lt_of_mem_part hn) n
  · rw [(onEvents_append _ before _).1, (onEvents_cons _ e later).1, (onEvents_cons _ e _).1]
    exact family.mirrored

omit coherent within in
/-- A pair of branches in the notes of a run is in those of one of its events. -/
theorem exists_of_mem_lineage {p : Path} {events : List Record} {q : ℕ × ℕ}
    (h : q ∈ p.lineage events) :
    ∃ before e later, events = before ++ e :: later ∧
      q ∈ Note.lineage ((p.onEvents before).1.onEvent e).2.notes := by
  induction events generalizing p with
  | nil => cases h
  | cons e rest ih =>
    rw [(onEvents_cons p e rest).2] at h
    rcases List.mem_append.1 h with h | h
    · exact ⟨[], e, rest, rfl, h⟩
    · obtain ⟨before, d, later, rfl, hq⟩ := ih h
      refine ⟨e :: before, d, later, rfl, ?_⟩
      rw [(onEvents_cons p e before).1]
      exact hq

/-- **Every branch but the router belongs to a group**, which the first event with its key has
formed. -/
theorem exists_group (events : List Record) {n : ℕ} (pos : 0 < n)
    (hn : n < ((start id name (.groupBy key template) initial).onEvents events).1.nextId) :
    let p := start id name (.groupBy key template) initial
    ∃ before e later value, events = before ++ e :: later ∧ key.key? e = some value ∧
      (∀ d ∈ before, key.finds d value = false) ∧
      Descends (p.birthsAt events before.length) (p.lineage events) 0 n := by
  intro p
  have p_live : p.Live S := live_start within id name initial
  have births := p_live.births coherent events
  induction n using Nat.strongRecOn with
  | ind n ih =>
    obtain ⟨a, ha⟩ := births.noted n pos hn
    have hlt := (births.later _ ha).1
    rcases Nat.eq_zero_or_pos a with rfl | ha_pos
    · -- The branch follows from the router itself.
      obtain ⟨before, e, later, rfl, hbirth⟩ := exists_of_mem_lineage ha
      obtain ⟨known, hrouter, hknown⟩ := router_after coherent within id name initial before
      obtain ⟨value, hk, unknown⟩ := (p_live.onEvents before).new_of_birth coherent hrouter hbirth
      refine ⟨before, e, later, value, rfl, hk, fun d hd => ?_, n, ?_, .refl⟩
      · by_contra finds
        have := (hknown value).2 ⟨d, hd, by simpa using finds⟩
        simp [this] at unknown
      · rw [birthsAt_length]
        exact hbirth
    · obtain ⟨before, e, later, value, split, hk, first, m, hm, path⟩ :=
        ih a hlt ha_pos (Nat.lt_trans hlt hn)
      exact ⟨before, e, later, value, split, hk, first, m, hm, path.tail ha⟩

end Path

/-! ### First events -/

/-- The place of the first event with a property. -/
theorem findIdx_of_first {own : Record → Bool} {before : List Record} {e : Record}
    (first : ∀ d ∈ before, own d = false) (h : own e = true) (later : List Record) :
    (before ++ e :: later).findIdx own = before.length := by
  induction before with
  | nil => simp [List.findIdx_cons, h]
  | cons d rest ih =>
    have others := ih fun c hc => first c (List.mem_cons_of_mem _ hc)
    simp [List.findIdx_cons, first d List.mem_cons_self, others]

/-- The events with a property, from the first one on. -/
theorem filter_of_first {own : Record → Bool} {before : List Record} {e : Record}
    (first : ∀ d ∈ before, own d = false) (h : own e = true) (later : List Record) :
    (before ++ e :: later).filter own = e :: later.filter own := by
  have nothing : before.filter own = [] :=
    List.filter_eq_nil_iff.2 fun d hd => by simp [first d hd]
  rw [List.filter_append, nothing, List.nil_append, List.filter_cons_of_pos h]

/-- There is a first event with a property, if there is any. -/
theorem exists_first {own : Record → Bool} {events : List Record} (h : events.filter own ≠ []) :
    ∃ before e later, events = before ++ e :: later ∧ own e = true ∧
      ∀ d ∈ before, own d = false := by
  cases hfind : events.find? own with
  | none =>
    refine absurd (List.filter_eq_nil_iff.2 fun d hd => ?_) h
    exact List.find?_eq_none.1 hfind d hd
  | some e =>
    obtain ⟨he, before, later, split, first⟩ := List.find?_eq_some_iff_append.1 hfind
    exact ⟨before, e, later, split, he, fun d hd => by simpa using first d hd⟩

/-! ### All groups -/

namespace Path

section

variable {key : KeyExtractor} {template : Expr} {value : Value} {events : List Record}
  (coherent : S.Coherent) (within : (Expr.groupBy key template).Within S) (id : ℕ)
  (name : Option String) (initial : Captures)
include coherent within

/-- The events with a key go to a path of the template. -/
theorem forms_of_key (own : (events.filter fun e => key.finds e value) ≠ []) :
    (start id name (.groupBy key template) initial).Forms events
      (events.findIdx fun e => key.finds e value) [.route key value]
      ((start id name template (initial.insert key.name value)).onEvents
        (events.filter fun e => key.finds e value)).1 := by
  obtain ⟨before, e, later, rfl, he, first⟩ := exists_first own
  rw [findIdx_of_first first he, filter_of_first first he]
  exact forms_of_first coherent within id name initial (KeyExtractor.key?_of_finds he) first later

/-- An event with an opaque key is the only one of its group. -/
theorem forms_of_opaque {i : ℕ} {e : Record} (he : events[i]? = some e)
    (hk : key.key? e = some value) (foreign : value.tag = .foreign) :
    (start id name (.groupBy key template) initial).Forms events i [.route key value]
      ((start id name template (initial.insert key.name value)).onEvents [e]).1 := by
  obtain ⟨hi, hget⟩ := List.getElem?_eq_some_iff.1 he
  have split : events = events.take i ++ e :: events.drop (i + 1) := by
    rw [← hget, ← List.drop_eq_getElem_cons hi, List.take_append_drop]
  have first : ∀ d ∈ events.take i, key.finds d value = false := fun _ _ =>
    KeyExtractor.finds_foreign foreign
  have group := forms_of_first coherent within id name initial hk first (events.drop (i + 1))
  have alone : ((events.drop (i + 1)).filter fun d => key.finds d value) = [] :=
    List.filter_eq_nil_iff.2 fun d _ => by simp [KeyExtractor.finds_foreign foreign]
  rw [alone, ← split, List.length_take, Nat.min_eq_left hi.le] at group
  exact group

/-- Without events with a key, no branch runs in a group of this key. -/
theorem head_frame_ne (plain : value.tag ≠ .foreign)
    (none_own : (events.filter fun e => key.finds e value) = []) {b : Branch}
    (hb : b ∈ ((start id name (.groupBy key template) initial).onEvents events).1.running) :
    b.frames.head? ≠ some (.route key value) := by
  intro head
  have live := (live_start within id name initial).onEvents events
  rcases Nat.eq_zero_or_pos b.id with hid | pos
  · -- The router itself stands in no group.
    obtain ⟨known, hrouter, -⟩ := router_after coherent within id name initial events
    rw [live.ledger.eq_of_id hb hrouter hid] at head
    cases head
  · obtain ⟨before, e, later, other, rfl, hk, first, descends⟩ :=
      exists_group coherent within id name initial events pos (live.id_lt hb)
    obtain ⟨numbers, mem, mirrored⟩ :=
      forms_of_first coherent within id name initial hk first later
    have inside := List.mem_filter_of_mem (p := fun b : Branch => b.id ∈ numbers) hb
      (decide_eq_true ((mem b.id).2 descends))
    rw [mirrored.running] at inside
    obtain ⟨c, -, rfl⟩ := List.mem_map.1 inside
    -- Its group is that of the key of an event, which thus has the key in question.
    have same : other = value := by
      have := Option.some.inj head
      exact (Frame.route.inj this).2
    have finds : key.finds e value = true := by
      rw [KeyExtractor.finds_of_key? hk, same]
      exact Value.equal_iff.2 ⟨plain, rfl⟩
    have missing := List.filter_eq_nil_iff.1 none_own e (by simp)
    exact missing finds

end

/-- **A path that groups its events is a family of independent paths of the template.** For a key,
the branches of its group, running and ended, are those of a path of the template that starts with
this key captured and gets just the events with the key; without such events there are none. An
event with an opaque key has a group of its own. All branches but the router are in these groups. -/
theorem groups_apart {key : KeyExtractor} {template : Expr}
    (valid : (Expr.groupBy key template).defect? = none)
    (coherent : (Expr.groupBy key template).Coherent) (id : ℕ) (name : Option String)
    (initial : Captures) (events : List Record) :
    let whole := start id name (.groupBy key template) initial
    let alone (value : Value) := start id name template (initial.insert key.name value)
    let at_ (value : Value) := events.findIdx fun e => key.finds e value
    (∀ value, value.tag ≠ .foreign →
      let own := events.filter fun e => key.finds e value
      (own = [] →
        ∀ b ∈ (whole.onEvents events).1.running, b.frames.head? ≠ some (.route key value)) ∧
      (own ≠ [] →
        whole.Forms events (at_ value) [.route key value] ((alone value).onEvents own).1)) ∧
    (∀ i e value, events[i]? = some e → key.key? e = some value → value.tag = .foreign →
      whole.Forms events i [.route key value] ((alone value).onEvents [e]).1) ∧
    (∀ n, 0 < n → n < (whole.onEvents events).1.nextId →
      ∃ i e value, events[i]? = some e ∧ key.key? e = some value ∧
        (value.tag ≠ .foreign → i = at_ value) ∧
        Descends (whole.birthsAt events i) (whole.lineage events) 0 n) := by
  intro whole alone at_
  have within : (Expr.groupBy key template).Within (Scope.of (.groupBy key template)) :=
    Expr.within_of_valid valid (fun _ h => h) fun _ h => h
  have coherent_scope := Scope.coherent_of coherent
  refine ⟨fun value plain => ⟨fun none_own b hb => ?_, fun own => ?_⟩,
    fun i e value he hk foreign => ?_, fun n pos hn => ?_⟩
  · exact head_frame_ne coherent_scope within id name initial plain none_own hb
  · exact forms_of_key coherent_scope within id name initial own
  · exact forms_of_opaque coherent_scope within id name initial he hk foreign
  · obtain ⟨before, e, later, value, rfl, hk, first, descends⟩ :=
      exists_group coherent_scope within id name initial events pos hn
    refine ⟨before.length, e, value, by simp, hk, fun plain => ?_, descends⟩
    have finds : key.finds e value = true := by
      rw [KeyExtractor.finds_of_key? hk]
      exact Value.equal_iff.2 ⟨plain, rfl⟩
    exact (findIdx_of_first first finds later).symm

/-- The events of the second of two hosts, whose group has groups inside. -/
theorem groups_apart_two_hosts :
    let key : KeyExtractor := ⟨0, "host", .property "host"⟩
    let path : KeyExtractor := ⟨1, "path", .property "path"⟩
    let template : Expr := .filter (.tapProperty "n" "seen")
      [.groupBy path (.sequence [.event .always, .event (.propertyEquals "n" .null)])]
    let event (host : String) : Record :=
      ⟨"", "", "", .epoch, [.string "host" host, .string "path" "/"]⟩
    let events := [event "a", event "b", event "a", event "b"]
    let whole := start 1 none (.groupBy key template) .empty
    let alone := start 1 none template (Captures.empty.insert "host" (.string "b"))
    (Expr.groupBy key template).defect? = none ∧ (Expr.groupBy key template).Coherent ∧
      whole.Forms events 1 [.route key (.string "b")]
        (alone.onEvents [event "b", event "b"]).1 := by
  intro key path template event events whole alone
  have valid : (Expr.groupBy key template).defect? = none := by decide
  have coherent : (Expr.groupBy key template).Coherent := by
    intro j hj k hk same
    have two : ∀ k, k ∈ (Expr.groupBy key template).extractors → k = key ∨ k = path := by
      intro k hk
      simpa [template, Expr.extractors, Expr.extractorsOf] using hk
    rcases two j hj with rfl | rfl <;> rcases two k hk with rfl | rfl <;> simp_all [key, path]
  have own : (events.filter fun e => key.finds e (.string "b")) = [event "b", event "b"] := rfl
  have apart := groups_apart valid coherent 1 none .empty events
  have group := (apart.1 (.string "b") (by decide)).2 (by rw [own]; simp)
  rw [own] at group
  exact ⟨valid, coherent, group⟩

end Path

end TracePattern
