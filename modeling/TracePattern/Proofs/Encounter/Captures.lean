import TracePattern.Proofs.Encounter.Gates
import TracePattern.Proofs.Isolation
import TracePattern.Proofs.Onward

/-!
# What an event leaves in a branch

A branch that stays at its node keeps of an event what the filters around it captured, and nothing
else.  A branch whose awaited event came hands on what its condition captured.

* `Condition.captured`: what a condition captures when it holds; `Condition.evaluate_of_held`,
  `Condition.evaluate_of_not_held`;
* `keptAlong`: what filters capture on the way; `letsAll_captures`;
* `Strand.look_captures`: a strand that stays;
* `Encounter.look_of_held`, `Encounter.captures_of_held`: a branch whose awaited event came;
* `Branch.Stays`, `Path.stays_of_address`: a branch that stays;
* `Path.captures_of_event`: captured values in an event of a path.
-/

namespace TracePattern

/-! ### Conditions -/

namespace Condition

variable {c : Condition} {event : Record} {captures : Captures}

/-- The value of an event that the condition captures under its key. -/
def observed? (c : Condition) (event : Record) : Option Value :=
  match c.test with
  | .predicate _ => none
  | .propertyEquals property _ => event.get? property
  | .derivedEquals derive _ => (derive event).result.toOption
  | .always derive => derive.bind fun derive => (derive event).result.toOption

/-- The captured values after the condition held: its value is captured under its key first, and
then its own capture runs. -/
def captured (c : Condition) (event : Record) (captures : Captures) : Captures :=
  let kept := c.keep (c.observed? event) captures
  match c.capture with
  | some capture => (capture event kept).1
  | none => kept

/-- A test that holds gives the observed value, if there is a key for it. -/
theorem keep_of_probe {value : Option Value}
    (holds : (c.probe event captures).result = .ok (true, value)) :
    c.keep value captures = c.keep (c.observed? event) captures := by
  obtain ⟨test, equality, key, capture, label⟩ := c
  cases test with
  | predicate accepts =>
    simp only [probe, Answer.bind, Answer.pure] at holds
    split at holds <;> cases holds
    rfl
  | propertyEquals property expected =>
    cases found : event.get? property with
    | none => simp [probe, found, Answer.pure] at holds
    | some observed =>
      simp only [probe, found, Answer.bind, Answer.pure] at holds
      split at holds <;> cases holds
      simp only [observed?, found]
  | derivedEquals derive expected =>
    cases derived : (derive event).result with
    | error stop => simp [probe, Answer.bind, derived] at holds
    | ok observed =>
      simp only [probe, Answer.bind, Answer.pure, derived] at holds
      split at holds <;> cases holds
      simp [observed?, derived, Except.toOption]
  | always derive =>
    cases derive with
    | none =>
      cases holds
      rfl
    | some derive =>
      cases key with
      | none => simp [keep]
      | some name =>
        cases derived : (derive event).result with
        | error stop => simp [probe, Answer.bind, derived] at holds
        | ok observed =>
          simp only [probe, Answer.bind, Answer.pure, derived] at holds
          cases holds
          simp [observed?, derived, Except.toOption]

/-- **A condition that holds captures its value and then runs its own capture.** -/
theorem evaluate_of_held (held : (c.evaluate event captures).2.guarded = .ok true) :
    (c.evaluate event captures).1 = c.captured event captures := by
  unfold evaluate at held ⊢
  dsimp only at held ⊢
  split at held
  · cases held
  · cases held
  · rename_i value probed
    unfold captured
    rw [← keep_of_probe probed]
    cases c.capture <;> rfl

/-- **A condition that does not hold changes nothing**, whatever it tests or captures. -/
theorem evaluate_of_not_held (not_held : (c.evaluate event captures).2.guarded = .ok false) :
    (c.evaluate event captures).1 = captures := by
  unfold evaluate at not_held ⊢
  dsimp only at not_held ⊢
  split at not_held
  · rfl
  · rfl
  · rename_i value probed
    split at not_held
    · cases not_held
    · rename_i capture own
      unfold Answer.guarded at not_held
      dsimp only at not_held
      cases result : (capture event (c.keep value captures)).2.result with
      | ok done => simp [result, Except.map] at not_held
      | error stop => simp [result, Except.map] at not_held

end Condition

/-! ### Frames -/

/-- The captured values after a frame that let the event through. -/
def Frame.captured (event : Record) (captures : Captures) : Frame → Captures
  | .gate c _ => c.captured event captures
  | _ => captures

/-- What the filters among some frames capture, from the outermost on, up to the first frame that
does not let the event through. -/
def keptAlong (event : Record) (captures : Captures) : List Frame → Captures
  | [] => captures
  | f :: rest =>
    match (f.lets event captures).2 with
    | .ok true => keptAlong event (f.captured event captures) rest
    | _ => captures

section Frames

variable {event : Record} {captures : Captures}

theorem Frame.lets_captures {f : Frame} {passed : Bool}
    (lets : (f.lets event captures).2 = .ok passed) :
    (f.lets event captures).1 = if passed then f.captured event captures else captures := by
  cases f with
  | gate c child =>
    cases passed with
    | true => exact Condition.evaluate_of_held lets
    | false => exact Condition.evaluate_of_not_held lets
  | _ => cases passed <;> rfl

/-- Unless a filter stops with an error, what is captured on the way is what the filters that held
capture. -/
theorem letsAll_captures {frames : List Frame} {passed : Bool}
    (lets : (letsAll event captures frames).2 = .ok passed) :
    (letsAll event captures frames).1 = keptAlong event captures frames := by
  induction frames generalizing captures with
  | nil => rfl
  | cons f rest ih =>
    unfold letsAll at lets ⊢
    unfold keptAlong
    cases here : (f.lets event captures).2 with
    | error e => simp [here] at lets
    | ok through =>
      have kept := f.lets_captures here
      cases through with
      | false => simpa [here] using kept
      | true =>
        simp only [here, if_true] at kept lets ⊢
        rw [kept] at lets ⊢
        exact ih lets

end Frames

/-! ### Strands that stay -/

namespace Strand

variable {event : Record} {s : Strand} {passed : ℕ}

theorem look_of_passed (lets : (letsAll event s.captures (s.frames.drop passed)).2 = .ok true) :
    s.look event passed =
      { s with captures := (letsAll event s.captures (s.frames.drop passed)).1 }.meet event := by
  simp only [look, lets]

theorem look_of_held_back (lets : (letsAll event s.captures (s.frames.drop passed)).2 = .ok false) :
    s.look event passed =
      ({ s with captures := (letsAll event s.captures (s.frames.drop passed)).1 }, .stay) := by
  simp only [look, lets]

/-- At its cursor a strand that stays captures nothing. -/
theorem meet_captures (remains : (s.meet event).2.Remains) :
    (s.meet event).1.captures = s.captures := by
  unfold meet at remains ⊢
  split at remains
  · rename_i c children cursor
    dsimp only at remains ⊢
    split at remains
    · cases remains
    · rename_i not_held
      exact Condition.evaluate_of_not_held not_held
    · split at remains <;> cases remains
  · split
    · rfl
    · split <;> rfl

/-- **A strand that stays has what the filters captured.** The condition that it waits for adds
nothing. -/
theorem look_captures (remains : (s.look event passed).2.Remains) :
    (s.look event passed).1.captures = keptAlong event s.captures (s.frames.drop passed) := by
  cases way : (letsAll event s.captures (s.frames.drop passed)).2 with
  | error e => simp [look, way, Move.Remains] at remains
  | ok through =>
    rw [← letsAll_captures way]
    cases through with
    | false => rw [look_of_held_back way]
    | true =>
      rw [look_of_passed way] at remains ⊢
      exact meet_captures remains

end Strand

/-! ### Branches whose awaited event came -/

namespace Branch

variable {b c : Branch} {outer : List Frame} {starts : List Start} {next : ℕ}

theorem captures_of_mem_carryOn (mem : c ∈ b.carryOn outer starts next) :
    c.captures = b.captures := by
  have strand := strands_carryOn b outer starts next ▸ List.mem_map_of_mem (f := Branch.strand) mem
  obtain ⟨s, -, same⟩ := List.mem_map.1 strand
  exact congrArg Strand.captures same.symm

theorem captures_of_mem_launch {captures : Captures}
    (mem : c ∈ launch captures outer starts next) : c.captures = captures := by
  obtain ⟨⟨s, i⟩, -, rfl⟩ := List.mem_map.1 mem
  rfl

/-- What a branch becomes when it leaves its node has its captured values. -/
theorem captures_complete (b : Branch) (path : ℕ) (t : Tally) :
    (∀ c ∈ (b.complete path t).1.running, c.captures = b.captures) ∧
      ∀ f ∈ (b.complete path t).1.finished, f.captures = b.captures := by
  unfold complete
  dsimp only
  split
  · refine ⟨List.forall_mem_nil _, fun f mem => ?_⟩
    obtain rfl := List.mem_singleton.1 mem
    rfl
  · exact ⟨fun c mem => captures_of_mem_carryOn mem, List.forall_mem_nil _⟩

end Branch

namespace Encounter

variable {S : Scope} {tree : Expr} {event : Record} {path : ℕ} {x : Encounter}
  {condition : Condition} {children : Option (List Expr)}

/-- What an event that came has made of the captured values: the filters that it passed in this
encounter come first, from the outermost on, and the awaited condition last. -/
def kept (x : Encounter) (event : Record) (condition : Condition) : Captures :=
  condition.captured event (keptAlong event x.branch.captures (x.branch.frames.drop x.passed))

/-- When the condition of its own node held, the event had passed all frames, and the condition was
evaluated with what was captured on the way. -/
theorem way_of_held (coherent : S.Coherent) (ready : x.Ready S tree event)
    (cursor : x.branch.cursor = .event condition children)
    (held : .tested x.branch.id (address x.branch.frames) (.ok true) ∈ (x.own path event).1.notes) :
    (x.way event).verdict = .ok true ∧
      (x.way event).captures = keptAlong event x.branch.captures (x.branch.frames.drop x.passed) ∧
      (condition.evaluate event (x.way event).captures).2.guarded = .ok true := by
  have passed : (x.way event).verdict = .ok true := by
    obtain ⟨-, ⟨k, c, child, at_k, place⟩ | ⟨-, passed⟩⟩ := place_of_tested held
    · have less := (List.getElem?_eq_some_iff.1 at_k).1
      have lengths := congrArg List.length place
      simp only [address, List.length_map, List.length_take] at lengths
      omega
    · exact passed
  have ahead : ∀ f ∈ x.branch.frames.drop x.passed, f.Within S :=
    fun f mem => ready.within.1 f (List.mem_of_mem_drop mem)
  obtain ⟨way, -⟩ := passAll_of_fits coherent ahead ready.fits x.branch.id
    (address (x.branch.frames.take x.passed)) x.branch.captures
  obtain ⟨captures, verdict⟩ := Prod.mk.inj way
  refine ⟨passed, captures.trans (letsAll_captures (verdict.symm.trans passed)), ?_⟩
  obtain ⟨others, notes⟩ := x.notes_own path event
  rw [notes, look_of_passed passed] at held
  simp only [List.mem_cons, reduceCtorEq, List.mem_append, false_or] at held
  rcases held with (on_way | met) | spawned
  · exact absurd on_way (not_tested_on_way ready.inside)
  · simp only [Branch.meet, cursor, List.mem_append, List.mem_map, reduceCtorEq, and_false,
      exists_false, List.mem_singleton, Note.tested.injEq, true_and, false_or] at met
    exact met.symm
  · simp [Branch.noteSpawned] at spawned

/-- **A branch whose awaited event came** has what its condition captured, applied once. -/
theorem look_of_held (coherent : S.Coherent) (ready : x.Ready S tree event)
    (cursor : x.branch.cursor = .event condition children)
    (held : .tested x.branch.id (address x.branch.frames) (.ok true) ∈ (x.own path event).1.notes) :
    (x.look event).branch.captures = x.kept event condition ∧
      (x.look event).move = match children with
        | none => .leave
        | some children => .descend children := by
  obtain ⟨passed, captures, holds⟩ := way_of_held coherent ready cursor held
  have evaluated := Condition.evaluate_of_held holds
  rw [look_of_passed passed]
  constructor
  · simp only [Branch.meet, cursor, holds]
    exact evaluated.trans (congrArg _ captures)
  · cases children <;> simp only [Branch.meet, cursor, holds]

/-- The branches that follow from one whose awaited event came have what its condition captured, and
so has its result. -/
theorem captures_of_held (coherent : S.Coherent) (ready : x.Ready S tree event)
    (cursor : x.branch.cursor = .event condition children)
    (held : .tested x.branch.id (address x.branch.frames) (.ok true) ∈ (x.own path event).1.notes) :
    (∀ f ∈ x.followers event, f.captures = x.kept event condition) ∧
      (∀ f ∈ (x.own path event).1.running, f.captures = x.kept event condition) ∧
      ∀ f ∈ (x.own path event).1.finished, f.captures = x.kept event condition := by
  obtain ⟨captures, move⟩ := look_of_held coherent ready cursor held
  rw [← captures]
  cases children with
  | none =>
    obtain ⟨running, finished⟩ := (x.look event).branch.captures_complete path
      { x.tally with keys := (x.look event).keys }
    simp only [own, followers, move]
    exact ⟨List.forall_mem_nil _, running, finished⟩
  | some children =>
    simp only [own, followers, move]
    exact ⟨fun f mem => Branch.captures_of_mem_carryOn mem, List.forall_mem_nil _,
      List.forall_mem_nil _⟩

end Encounter

/-! ### Branches that stay -/

/-- The cursor of a branch that stays: a router may have taken note of the key of the event. -/
inductive Cursor.Stays (event : Record) : Cursor → Cursor → Prop
  | same {c : Cursor} : Stays event c c
  | noted {key : KeyExtractor} {template : Expr} {seen known : KeySet} {value : Value}
    (found : key.key? event = some value) (new : seen.insert? value = some known) :
    Stays event (.router key template seen) (.router key template known)

theorem Cursor.Stays.describe {event : Record} {before after : Cursor}
    (stays : before.Stays event after) : after.describe = before.describe := by
  cases stays <;> rfl

/-- The branch has stayed at its node in an event. It keeps what the filters around it captured. -/
structure Branch.Stays (event : Record) (b c : Branch) : Prop where
  id : c.id = b.id
  frames : c.frames = b.frames
  cursor : b.cursor.Stays event c.cursor
  captures : c.captures = keptAlong event b.captures b.frames

/-- A branch that has stayed is shown at the same place. -/
theorem Branch.Stays.position {event : Record} {b c : Branch} (stays : b.Stays event c) :
    c.position = b.position := by
  rw [Branch.position, Branch.position, stays.frames, stays.cursor.describe]

/-- The branch that remains of a strand which stays. -/
theorem Strand.stays_of_remains {event : Record} {b : Branch}
    (remains : (b.strand.look event 0).2.Remains) (path : ℕ) (t : Tally) :
    ∃ c ∈ ((b.strand.react event 0).deliver path b.id t).1.running, b.Stays event c := by
  have captures := look_captures remains
  rw [List.drop_zero] at captures
  have frames := look_frames b.strand event 0
  have cursor := look_cursor b.strand event 0
  have groups := @look_group b.strand event 0
  rw [react_eq]
  generalize b.strand.look event 0 = seen at *
  obtain ⟨seen, move⟩ := seen
  cases move with
  | stay =>
    refine ⟨_, List.mem_singleton_self _, rfl, frames, ?_, captures⟩
    exact (show seen.cursor = b.cursor from cursor) ▸ .same
  | group key template value known =>
    obtain ⟨before, router, found, new⟩ := groups rfl
    refine ⟨_, List.mem_append_left _ (List.mem_append_left _ (List.mem_singleton_self _)), rfl,
      frames, ?_, captures⟩
    rw [show b.cursor = .router key template before from router]
    exact .noted found new
  | fail e => cases remains
  | leave => cases remains
  | descend children => cases remains

namespace Path

variable {S : Scope} {p : Path}

/-- A number that runs has not ended. -/
theorem Ledger.id_ne (ledger : p.Ledger) {b : Branch} (hb : b ∈ p.running) {f : Finish}
    (hf : f ∈ p.finished) : b.id ≠ f.id :=
  (List.nodup_append.1 (ledger.numbers.nodup_iff.2 List.nodup_range)).2.2 _
    (List.mem_map_of_mem hb) _ (List.mem_map_of_mem hf)

/-- **A branch that runs at the same node after an event has stayed there.** -/
theorem stays_of_address (coherent : S.Coherent) (within : ∀ b ∈ p.running, b.Within S)
    (ledger : p.Ledger) (opened : p.closed = false) {e : Record} {b c : Branch}
    (hb : b ∈ p.running) (hc : c ∈ (p.onEvent e).1.running) (number : c.id = b.id)
    (place : address c.frames = address b.frames) : b.Stays e c := by
  have next := ledger.onEvent within opened e
  obtain ⟨u, running, finished⟩ := onEvent_of_mem coherent within opened hb e
  by_cases remains : (b.strand.look e 0).2.Remains
  · obtain ⟨d, mem, stays⟩ := Strand.stays_of_remains remains p.id u
    exact next.eq_of_id hc (running mem) (number.trans stays.id.symm) ▸ stays
  · have b_within : b.strand.Within S := within b hb
    rcases Strand.moves_react b_within remains p.id b.id u with
      ⟨d, mem, same, away⟩ | ⟨f, mem, same⟩
    · obtain rfl := next.eq_of_id hc (running mem) (number.trans same.symm)
      exact absurd place away
    · exact absurd (number.trans same.symm) (next.id_ne hc (List.mem_of_mem_drop (finished mem)))

/-- Where a condition of a node that waits held, there was a branch that waited at the node. -/
theorem Founded.exists_held {tree : Expr} (coherent : S.Coherent) (h : p.Founded S tree)
    {e : Record} {i : ℕ} {way : List ℕ} {n : Expr} {condition : Condition} {children : Option (List Expr)}
    (held : .tested i way (.ok true) ∈ (p.onEvent e).2.notes) (found : tree.node? way = some n)
    (waits : n.Waits (.event condition children)) :
    ∃ x ∈ p.encounters e, x.Ready S tree e ∧ x.branch.id = i ∧ address x.branch.frames = way ∧
      x.branch.cursor = .event condition children ∧
      .tested i way (.ok true) ∈ (x.own p.id e).1.notes := by
  rw [notes_encounters] at held
  obtain ⟨x, mem, noted⟩ := List.mem_flatMap.1 held
  have handed := h.throughout coherent e (P := fun _ _ => True) (fun _ _ _ _ => trivial)
    fun _ _ _ _ _ _ _ _ _ => trivial
  obtain ⟨_, ready, -⟩ := handed.of_mem mem
  obtain ⟨m, leads, waits_m⟩ := ready.stands
  obtain ⟨rfl, ⟨k, c, child, at_k, rfl⟩ | ⟨rfl, -⟩⟩ := Encounter.place_of_tested noted
  · exact absurd waits (leads.not_waits_of_gate at_k found)
  obtain rfl : m = n := Option.some.inj (leads.node?.symm.trans found)
  refine ⟨x, mem, ready, rfl, rfl, ?_, noted⟩
  replace waits_m : m.Waits x.branch.cursor := waits_m
  generalize x.branch.cursor = cursor at waits_m
  cases waits <;> cases waits_m <;> rfl

/-- **What an event leaves in the branches of a path.** After any life of a path:

* a branch that runs after the event at the node where it ran before has its number, its frames and
  its place, and its captured values are those before with what the filters around it captured, from
  the outermost on up to the first frame that held the event back. Nothing comes from the condition
  that it waits for;
* a condition of a node that waits, if it holds, is evaluated once for its branch. What it captures
  is in all branches that follow from this one in the event, when they meet the event, and in those
  that go on running or end. -/
theorem captures_of_event {tree : Expr} (valid : tree.defect? = none) (coherent : tree.Coherent)
    (id : ℕ) (name : Option String) (initial : Captures) (acts : List Act) (e : Record) :
    let p := (start id name tree initial).after acts
    let next := (p.onEvent e).1
    let log := (p.onEvent e).2.notes
    (p.closed = true → next = p) ∧
    (p.closed = false → ∀ b ∈ p.running, ∀ c ∈ next.running, c.id = b.id →
      address c.frames = address b.frames → b.Stays e c ∧ c.position = b.position) ∧
    ∀ i way n condition children, .tested i way (.ok true) ∈ log → tree.node? way = some n →
      n.Waits (.event condition children) → (Note.tests log).count (i, way) = 1 ∧
        ∃ x ∈ p.encounters e, x.branch.id = i ∧ address x.branch.frames = way ∧
          x.branch.cursor = .event condition children ∧
          (∀ f ∈ x.followers e, f.captures = x.kept e condition ∧
            ∃ y ∈ p.encounters e, x.Causes e y ∧ y.branch = f) ∧
          (∀ f ∈ (x.own p.id e).1.running, f.captures = x.kept e condition ∧ f ∈ next.running) ∧
          ∀ f ∈ (x.own p.id e).1.finished, f.captures = x.kept e condition ∧
            f ∈ next.finished := by
  intro p next log
  have within : tree.Within (Scope.of tree) :=
    Expr.within_of_valid valid (fun _ hc => hc) fun _ hk => hk
  have scope := Scope.coherent_of coherent
  have founded := founded_after valid coherent id name initial acts
  have ledger : p.Ledger := ledger_of_within within id name initial acts
  refine ⟨fun closed => congrArg Prod.fst (onEvent_of_closed closed e), ?stays, ?held⟩
  case stays =>
    intro opened b hb c hc number place
    have stays := stays_of_address scope founded.within ledger opened hb hc number place
    exact ⟨stays, stays.position⟩
  case held =>
    intro i way n condition children held found waits
    refine ⟨List.count_eq_one_of_mem (nodup_tests ledger e) (Note.mem_tests held), ?_⟩
    obtain ⟨x, mem, ready, rfl, rfl, cursor, noted⟩ := founded.exists_held scope held found waits
    obtain ⟨followers, running, finished⟩ := Encounter.captures_of_held scope ready cursor noted
    obtain ⟨runs, ends⟩ := onEvent_of_mem_encounters mem
    exact ⟨x, mem, rfl, rfl, cursor,
      fun f hf => ⟨followers f hf, exists_encounter_of_follower mem hf⟩,
      fun f hf => ⟨running f hf, runs hf⟩, fun f hf => ⟨finished f hf, ends hf⟩⟩

/-- A branch inside a filter that captures, and an event that it does not wait for. -/
theorem captures_of_event_tapped :
    let tapped : Condition := .tapProperty "n" "seen"
    let waits : Condition := (Condition.propertyEquals "n" (.string "2")).capturing "last"
    let tree : Expr := .filter tapped [.event waits]
    let event : Record := ⟨"", "", "", .epoch, [.string "n" "1"]⟩
    let p := (start 1 none tree .empty).after []
    tree.defect? = none ∧ tree.Coherent ∧ ∀ c ∈ (p.onEvent event).1.running, c.id = 0 →
      address c.frames = [0] → c.captures = Captures.empty.insert "seen" (.string "1") := by
  intro tapped waits tree event p
  have coherent : tree.Coherent := nofun
  refine ⟨by decide, coherent, fun c hc number place => ?_⟩
  obtain ⟨-, stays, -⟩ := captures_of_event (by decide) coherent 1 none .empty [] event
  exact (stays rfl _ List.mem_cons_self c hc number place).1.captures

end Path

end TracePattern
