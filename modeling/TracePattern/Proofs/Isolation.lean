import TracePattern.Proofs.Ledger
import TracePattern.Proofs.Reaction

/-!
# Events of other keys

A branch inside a group is not reached by the events of other keys.  The filters around the group
come first, however: they run from the outermost on, whatever the key of the event is, and what they
capture for the branch, or their error, stays.

* `letsAll_route`: an event of another key gets no further than the group;
* `Strand.react_of_other_key`: what such an event does;
* `Path.onEvent_of_mem`: from a branch to its path;
* `Path.onEvent_of_other_key`: the branch stays, up to what the filters around the group do to it;
* `Path.captures_of_other_key`: such a filter may capture something.
-/

namespace TracePattern

variable {event : Record}

/-! ### Frames -/

/-- Frames further in are only asked about events that those further out let through. -/
theorem letsAll_append (captures : Captures) (outer inner : List Frame) :
    letsAll event captures (outer ++ inner) =
      match (letsAll event captures outer).2 with
      | .ok true => letsAll event (letsAll event captures outer).1 inner
      | _ => letsAll event captures outer := by
  induction outer generalizing captures with
  | nil => rfl
  | cons f rest ih =>
    simp only [List.cons_append, letsAll]
    generalize f.lets event captures = here
    obtain ⟨captures, verdict⟩ := here
    cases verdict with
    | error e => rfl
    | ok passed =>
      cases passed with
      | false => rfl
      | true => exact ih captures

/-- The captured values are those after the frames around the group, and unless one of these stops
with an error, the event is held back. -/
theorem letsAll_route {key : KeyExtractor} {value : Value} (captures : Captures)
    (outer inner : List Frame) (other : (key.key? event).any (fun v => v.equal value) = false) :
    letsAll event captures (outer ++ .route key value :: inner) =
      ((letsAll event captures outer).1, (letsAll event captures outer).2.map fun _ => false) := by
  rw [letsAll_append]
  have held : ∀ c, letsAll event c (.route key value :: inner) = (c, .ok false) := by
    intro c
    simp only [letsAll, Frame.lets, other]
  generalize letsAll event captures outer = way
  obtain ⟨captures, verdict⟩ := way
  cases verdict with
  | error e => rfl
  | ok passed =>
    cases passed with
    | false => rfl
    | true => exact held captures

/-- The condition changes nothing and does not stop. -/
def Condition.Quiet (c : Condition) (event : Record) (captures : Captures) : Prop :=
  (c.evaluate event captures).1 = captures ∧
    ∃ held, (c.evaluate event captures).2.guarded = .ok held

/-- Filters that change nothing and do not stop leave everything as it is. -/
theorem letsAll_of_quiet {captures : Captures} {frames : List Frame}
    (quiet : ∀ c i, .gate c i ∈ frames → c.Quiet event captures) :
    ∃ held, letsAll event captures frames = (captures, .ok held) := by
  induction frames with
  | nil => exact ⟨true, rfl⟩
  | cons f rest ih =>
    have first : ∃ held, f.lets event captures = (captures, .ok held) := by
      cases f with
      | gate c i =>
        obtain ⟨kept, held, answered⟩ := quiet c i List.mem_cons_self
        exact ⟨held, by rw [Frame.lets, kept, answered]⟩
      | route key value => exact ⟨_, rfl⟩
      | sequence _ _ => exact ⟨true, rfl⟩
      | record _ => exact ⟨true, rfl⟩
    obtain ⟨held, hfirst⟩ := first
    rw [letsAll, hfirst]
    cases held with
    | false => exact ⟨false, rfl⟩
    | true => exact ih fun c i hmem => quiet c i (List.mem_cons_of_mem _ hmem)

/-! ### Reactions -/

/-- An event of another key makes a strand fail if a filter around the group stops with an error.
Otherwise the strand stays, with what these filters captured. -/
theorem Strand.react_of_other_key {s : Strand} {outer inner : List Frame} {key : KeyExtractor}
    {value : Value} (inside : s.frames = outer ++ .route key value :: inner)
    (other : (key.key? event).any (fun v => v.equal value) = false) :
    s.react event 0 =
      match (letsAll event s.captures outer).2 with
      | .error e => .fail { s with captures := (letsAll event s.captures outer).1 } e
      | .ok _ => .stay { s with captures := (letsAll event s.captures outer).1 } := by
  rw [react_eq, look, List.drop_zero]
  have way := letsAll_route s.captures outer inner other
  rw [← inside] at way
  rw [way]
  generalize letsAll event s.captures outer = passage
  obtain ⟨captures, verdict⟩ := passage
  match verdict with
  | .error e => rfl
  | .ok _ => rfl

/-! ### Paths -/

/-- What one of several reactions gives comes out of all of them. -/
theorem Reaction.deliver_of_mem (path : ℕ) {id : ℕ} {r : Reaction} {ids : List ℕ}
    {rs : List Reaction} (h : (id, r) ∈ ids.zip rs) (t : Tally) :
    ∃ u, (r.deliver path id u).1.running ⊆ (deliverAll path ids rs t).1.running ∧
      (r.deliver path id u).1.finished ⊆ (deliverAll path ids rs t).1.finished := by
  induction ids generalizing rs t with
  | nil => cases h
  | cons i ids ih =>
    cases rs with
    | nil => cases h
    | cons q rest =>
      rw [deliverAll]
      rcases List.mem_cons.1 h with he | h
      · cases he
        exact ⟨t, List.subset_append_left _ _, List.subset_append_left _ _⟩
      · obtain ⟨u, running, finished⟩ := ih h (q.deliver path i t).2
        exact ⟨u, fun b hb => List.mem_append_right _ (running hb),
          fun f hf => List.mem_append_right _ (finished hf)⟩

namespace Path

variable {S : Scope} {p : Path}

/-- What comes of one running branch comes out of the event. -/
theorem onEvent_of_mem (coherent : S.Coherent) (hp : ∀ b ∈ p.running, b.Within S)
    (open_ : p.closed = false) {b : Branch} (hb : b ∈ p.running) (event : Record) :
    ∃ u, ((b.strand.react event 0).deliver p.id b.id u).1.running ⊆ (p.onEvent event).1.running ∧
      ((b.strand.react event 0).deliver p.id b.id u).1.finished ⊆
        (p.onEvent event).1.finished.drop p.finished.length := by
  have matched : Matches S event (p.turn event) _ := turn_matches coherent hp
  have hmem : (b.id, b.strand.react event 0) ∈ (p.running.map Branch.id).zip
      ((p.running.map Branch.strand).map (Strand.react event 0)) := by
    rw [List.map_map, List.zip_map']
    exact List.mem_map_of_mem hb
  obtain ⟨u, running, finished⟩ := Reaction.deliver_of_mem p.id hmem ⟨p.nextId, 0, []⟩
  refine ⟨u, fun c hc => ?_, ?_⟩
  · rw [(perm_running_onEvent open_ event).mem_iff, matched.running]
    exact running hc
  · rw [finished_onEvent open_, List.drop_left, matched.finished]
    exact finished

/-- **Events of other keys do not get to a branch inside a group.** It goes on running under the
same number, at the same place and with the same captured values, if the filters around the group
capture nothing and do not stop. In any case it stays where it is with what these filters capture,
or fails with the error of one of them. -/
theorem onEvent_of_other_key {tree : Expr} (valid : tree.defect? = none) (coherent : tree.Coherent)
    (id : ℕ) (name : Option String) (initial : Captures) (acts : List Act) {b : Branch}
    (hb : b ∈ ((start id name tree initial).after acts).running) {outer inner : List Frame}
    {key : KeyExtractor} {value : Value} (inside : b.frames = outer ++ .route key value :: inner)
    (event : Record) (other : (key.key? event).any (fun v => v.equal value) = false) :
    let p := (start id name tree initial).after acts
    let next := (p.onEvent event).1
    let way := letsAll event b.captures outer
    ((∀ c i, .gate c i ∈ outer → c.Quiet event b.captures) → b ∈ next.running) ∧
      (p.closed = true → next = p) ∧
      (p.closed = false → match way.2 with
        | .ok _ => { b with captures := way.1 } ∈ next.running
        | .error e => { b with captures := way.1 }.finish .failed (some e) ∈
            next.finished.drop p.finished.length) := by
  intro p next way
  have hp : ∀ c ∈ p.running, c.Within (Scope.of tree) :=
    within_after (Expr.within_of_valid valid (fun _ h => h) fun _ h => h) acts
  have reaction := Strand.react_of_other_key (s := b.strand) inside other
  rw [show letsAll event b.strand.captures outer = way from rfl] at reaction
  have opened : p.closed = false → match way.2 with
      | .ok _ => { b with captures := way.1 } ∈ next.running
      | .error e => { b with captures := way.1 }.finish .failed (some e) ∈
          next.finished.drop p.finished.length := by
    intro open_
    obtain ⟨u, running, finished⟩ :=
      onEvent_of_mem (Scope.coherent_of coherent) hp open_ hb event
    cases h : way.2 with
    | ok held =>
      rw [h] at reaction
      rw [reaction] at running
      exact running (List.mem_singleton_self _)
    | error e =>
      rw [h] at reaction
      rw [reaction] at finished
      exact finished (List.mem_singleton_self _)
  refine ⟨fun quiet => ?_, fun closed => by simp only [next, onEvent_of_closed closed], opened⟩
  obtain ⟨held, unchanged⟩ := letsAll_of_quiet quiet
  cases hc : p.closed with
  | true =>
    show b ∈ (p.onEvent event).1.running
    rw [onEvent_of_closed hc]
    exact hb
  | false =>
    have := opened hc
    rw [show way = (b.captures, .ok held) from unchanged] at this
    exact this

/-- A group inside a filter, after its first event. -/
theorem member_of_first_key {gate condition : Condition} {key : KeyExtractor} {event : Record}
    {kept : Captures} {value : Value}
    (passes : (gate.evaluate event .empty).1 = kept ∧
      (gate.evaluate event .empty).2.guarded = .ok true)
    (keyed : key.key? event = some value)
    (waits : (condition.evaluate event (kept.insert key.name value)).1 =
        kept.insert key.name value ∧
      (condition.evaluate event (kept.insert key.name value)).2.guarded = .ok false) :
    ⟨1, kept.insert key.name value, [.gate gate 0, .route key value], .event condition none⟩ ∈
      ((start 1 none (.filter gate [.groupBy key (.event condition)]) .empty).onEvent
        event).1.running := by
  -- A scope in which any condition may occur, but only one extractor.
  let S : Scope := ⟨fun _ => True, (· = key)⟩
  have coherent : S.Coherent := by
    intro j k hj hk _
    exact hj.trans hk.symm
  obtain ⟨known, hknown⟩ := KeySet.exists_insert? (KeySet.has_empty value)
  have reaction : (Strand.mk .empty [.gate gate 0] (.router key (.event condition) .empty)).react
      event 0 = .group ⟨kept, [.gate gate 0], .router key (.event condition) known⟩
        [.stay ⟨kept.insert key.name value, [.gate gate 0, .route key value],
          .event condition none⟩] := by
    simp [Strand.react_eq, Strand.look, letsAll, Frame.lets, Strand.meet, keyed, hknown, passes,
      strandsAt, Expr.starts, waits]
  have within : ∀ b ∈ (start 1 none (.filter gate [.groupBy key (.event condition)])
      .empty).running, b.Within S :=
    Branch.within_launch (by simp) ⟨trivial, by simp, ⟨rfl, trivial⟩, trivial⟩
  have matched : Matches S event _ _ := turn_matches coherent within
  rw [(perm_running_onEvent rfl event).mem_iff, matched.running]
  show _ ∈ (Reaction.deliverAll 1 [0] [(Strand.mk .empty [.gate gate 0]
    (.router key (.event condition) .empty)).react event 0] ⟨1, 0, []⟩).1.running
  rw [reaction]
  simp [Reaction.deliverAll, Reaction.deliver, Effects.run, Strand.branch]

/-- An event of another host, inside a filter that captures nothing. -/
theorem onEvent_of_other_key_two_hosts :
    let key : KeyExtractor := ⟨0, "host", .property "host"⟩
    let tree : Expr :=
      .filter .always [.groupBy key (.event (.propertyEquals "path" (.string "/2")))]
    let event (host : String) : Record := ⟨"", "", "", .epoch, [.string "host" host]⟩
    let p := (start 1 none tree .empty).after [.event (event "a")]
    ∃ b ∈ p.running, b.frames = [.gate .always 0, .route key (.string "a")] ∧
      b ∈ (p.onEvent (event "b")).1.running := by
  intro key tree event p
  have coherent : tree.Coherent := by
    intro j hj k hk _
    rw [List.mem_singleton.1 hj, List.mem_singleton.1 hk]
  have member : ⟨1, Captures.empty.insert "host" (.string "a"),
      [.gate .always 0, .route key (.string "a")],
      .event (.propertyEquals "path" (.string "/2")) none⟩ ∈ p.running :=
    member_of_first_key ⟨rfl, rfl⟩ rfl ⟨rfl, rfl⟩
  have inside : [.gate .always 0, .route key (.string "a")] =
      [.gate .always 0] ++ Frame.route key (.string "a") :: [] := rfl
  refine ⟨_, member, rfl, ?_⟩
  refine (onEvent_of_other_key (by decide) coherent 1 none .empty [.event (event "a")] member
    inside (event "b") (by decide)).1 fun c i hmem => ?_
  obtain ⟨rfl, rfl⟩ : c = .always ∧ i = 0 := by simpa using hmem
  exact ⟨rfl, true, rfl⟩

/-- What a filter around the groups captures of an event stays in the branches of other keys. -/
theorem captures_of_other_key :
    let tapped : Condition := .tapProperty "n" "seen"
    let key : KeyExtractor := ⟨0, "host", .property "host"⟩
    let tree : Expr :=
      .filter tapped [.groupBy key (.event (.propertyEquals "path" (.string "/2")))]
    let event (host n : String) : Record :=
      ⟨"", "", "", .epoch, [.string "host" host, .string "n" n]⟩
    let p := (start 1 none tree .empty).after [.event (event "a" "1")]
    tree.defect? = none ∧ tree.Coherent ∧ ∃ b ∈ p.running, b.isRouter = false ∧
      b.frames = [.gate tapped 0, .route key (.string "a")] ∧
      (key.key? (event "b" "2")).any (fun v => v.equal (.string "a")) = false ∧
      ∀ c ∈ (p.onEvent (event "b" "2")).1.running, c.id = b.id → c.captures ≠ b.captures := by
  intro tapped key tree event p
  have valid : tree.defect? = none := by decide
  have coherent : tree.Coherent := by
    intro j hj k hk _
    rw [List.mem_singleton.1 hj, List.mem_singleton.1 hk]
  have other : (key.key? (event "b" "2")).any (fun v => v.equal (.string "a")) = false := by decide
  have member : ⟨1, (Captures.empty.insert "seen" (.string "1")).insert "host" (.string "a"),
      [.gate tapped 0, .route key (.string "a")],
      .event (.propertyEquals "path" (.string "/2")) none⟩ ∈ p.running :=
    member_of_first_key ⟨rfl, rfl⟩ rfl ⟨rfl, rfl⟩
  refine ⟨valid, coherent, _, member, rfl, rfl, other, fun c hc hid => ?_⟩
  -- The branch after the event of the other key is the only one of its number.
  have within : tree.Within (Scope.of tree) :=
    Expr.within_of_valid valid (fun _ h => h) fun _ h => h
  obtain ⟨u, running, -⟩ := onEvent_of_mem (Scope.coherent_of coherent)
    (within_after within [.event (event "a" "1")]) rfl member (event "b" "2")
  have inside : [.gate tapped 0, .route key (.string "a")] =
      [.gate tapped 0] ++ Frame.route key (.string "a") :: [] := rfl
  rw [Strand.react_of_other_key inside other] at running
  have stays := running (List.mem_singleton_self _)
  have stays_eq := (ledger_of_within within 1 none .empty
    [.event (event "a" "1"), .event (event "b" "2")]).eq_of_id hc stays hid
  rw [stays_eq]
  decide

end Path

end TracePattern
