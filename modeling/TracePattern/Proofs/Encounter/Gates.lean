import TracePattern.Proofs.Encounter.Tests

/-!
# Conditions behind gates

Before the condition of a node is evaluated, the event has passed all filters and groups around the
node, in the same event.  Which branch they were asked for is a matter of the branches that are new
in the event: the branch itself, or one that it goes back to.

* `CreatedFrom`: which branch another one goes back to;
* `Frame.Cleared`: an event has passed a frame;
* `cleared_passAll`: an event that gets through frames has passed each of them;
* `Encounter.Cleared`, `Encounter.cleared_follow`: what encounters hand on;
* `exists_encounter_of_notes`: a note belongs to an encounter;
* `Path.Founded.tests_behind_gates`: evaluations in an event of a path.
-/

namespace TracePattern

/-- Branch `j` goes back to branch `i` by new branches that were noted, or is the same. -/
def CreatedFrom (history : List Note) : ℕ → ℕ → Prop :=
  Relation.ReflTransGen fun i j => .spawned i j ∈ history

/-- The event has passed a frame on the way to a branch. The condition of a filter held when it was
evaluated at this node, for the branch or one that it goes back to. The key of the event is that of
the group: either they were compared, for the branch or one that it goes back to, or the branch goes
back to the router that formed the group. -/
def Frame.Cleared (event : Record) (history : List Note) (id : ℕ) (node : List ℕ) : Frame → Prop
  | .gate _ _ => ∃ i, CreatedFrom history i id ∧ .tested i node (.ok true) ∈ history
  | .route key value => ∃ v, key.key? event = some v ∧ ∃ i, CreatedFrom history i id ∧
      (v.equal value = true ∧ .routed i node true ∈ history ∨ v = value ∧ .stepped i node ∈ history)
  | .sequence _ _ => True
  | .record _ => True

section Cleared

variable {S : Scope} {event : Record} {history later : List Note} {i j id : ℕ} {node : List ℕ}
  {f : Frame}

theorem CreatedFrom.mono (sub : history ⊆ later) (created : CreatedFrom history i j) :
    CreatedFrom later i j :=
  Relation.ReflTransGen.mono (fun _ _ noted => sub noted) _ _ created

namespace Frame.Cleared

/-- What was passed once, for a branch, was passed for those that go back to it. -/
theorem inherit (cleared : f.Cleared event history i node) (sub : history ⊆ later)
    (created : CreatedFrom later i j) : f.Cleared event later j node := by
  cases f with
  | gate c child =>
    obtain ⟨k, from_k, tested⟩ := cleared
    exact ⟨k, (from_k.mono sub).trans created, sub tested⟩
  | route key value =>
    obtain ⟨v, found, k, from_k, passed⟩ := cleared
    exact ⟨v, found, k, (from_k.mono sub).trans created,
      passed.imp (And.imp_right (sub ·)) (And.imp_right (sub ·))⟩
  | sequence _ _ => trivial
  | record _ => trivial

theorem mono (cleared : f.Cleared event history i node) (sub : history ⊆ later) :
    f.Cleared event later i node := cleared.inherit sub .refl

end Frame.Cleared

variable (coherent : S.Coherent)
include coherent

/-- A frame that lets an event through notes it. -/
theorem cleared_pass (within : f.Within S) {keys : Keys} (fits : keys.Fits S event) (branch : ℕ)
    (node : List ℕ) (captures : Captures)
    (passed : (f.pass event branch node captures keys).verdict = .ok true) :
    f.Cleared event (f.pass event branch node captures keys).notes branch node := by
  cases f with
  | gate c child =>
    replace passed : (c.evaluate event captures).2.guarded = .ok true := passed
    refine ⟨branch, .refl, ?_⟩
    simp [Frame.pass, passed]
  | route key value =>
    obtain ⟨found, -⟩ := Keys.find_of_fits coherent within fits
    simp only [Frame.pass, found, Except.ok.injEq] at passed ⊢
    obtain ⟨v, here, equal⟩ := (Option.any_eq_true _ _).1 passed
    exact ⟨v, here, branch, .refl, .inl ⟨equal, by simp [passed]⟩⟩
  | sequence _ _ => trivial
  | record _ => trivial

/-- **An event that gets through frames has passed each of them.** -/
theorem cleared_passAll {frames : List Frame} (within : ∀ f ∈ frames, f.Within S) {keys : Keys}
    (fits : keys.Fits S event) (branch : ℕ) (node : List ℕ) (captures : Captures)
    (passed : (passAll event branch node captures keys frames).verdict = .ok true) {k : ℕ}
    (at_k : frames[k]? = some f) :
    f.Cleared event (passAll event branch node captures keys frames).notes branch
      (node ++ address (frames.take k)) := by
  induction frames generalizing node captures keys k with
  | nil => simp at at_k
  | cons g rest ih =>
    have here := cleared_pass coherent (within g List.mem_cons_self) fits branch node captures
    obtain ⟨-, fits⟩ :=
      pass_of_fits coherent (within g List.mem_cons_self) fits branch node captures
    unfold passAll at passed ⊢
    dsimp only at passed ⊢
    split at passed
    · rename_i open_
      have further := fun k => ih (fun h mem => within h (List.mem_cons_of_mem _ mem)) fits
        (node ++ [g.child]) (g.pass event branch node captures keys).captures passed (k := k)
      cases k with
      | zero =>
        cases at_k
        simpa [address] using (here open_).mono (List.subset_append_left _ _)
      | succ k =>
        have way : node ++ address ((g :: rest).take (k + 1)) =
            node ++ [g.child] ++ address (rest.take k) := by simp [address]
        rw [way]
        exact (further k at_k).mono (List.subset_append_right _ _)
    · rename_i held
      exact absurd passed held

end Cleared

/-! ### Evaluations on the way -/

section Tested

variable {event : Record} {branch i : ℕ} {node w : List ℕ} {captures : Captures} {keys : Keys}
  {verdict : Except EvalError Bool}

/-- Of the frames only filters evaluate a condition, at their own node. -/
theorem Frame.gate_of_tested {f : Frame}
    (mem : .tested i w verdict ∈ (f.pass event branch node captures keys).notes) :
    i = branch ∧ w = node ∧ ∃ c child, f = .gate c child := by
  cases f with
  | gate c child =>
    obtain ⟨rfl, rfl, -⟩ : i = branch ∧ w = node ∧ _ := by simpa [Frame.pass] using mem
    exact ⟨rfl, rfl, c, child, rfl⟩
  | route key value =>
    have found : .tested i w verdict ∈ (keys.find key event).2.2 := by
      simpa [Frame.pass] using mem
    have none := Note.mem_tests found
    simp [(tests_find keys key event).1] at none
  | sequence _ _ => cases mem
  | record _ => cases mem

/-- On the way through frames conditions of filters are evaluated. -/
theorem gate_of_tested {frames : List Frame}
    (mem : .tested i w verdict ∈ (passAll event branch node captures keys frames).notes) :
    i = branch ∧ ∃ k c child, frames[k]? = some (.gate c child) ∧
      w = node ++ address (frames.take k) := by
  induction frames generalizing node captures keys with
  | nil => cases mem
  | cons g rest ih =>
    have here : .tested i w verdict ∈ (g.pass event branch node captures keys).notes →
        i = branch ∧ ∃ k c child, (g :: rest)[k]? = some (.gate c child) ∧
          w = node ++ address ((g :: rest).take k) := by
      intro mem
      obtain ⟨number, rfl, c, child, rfl⟩ := g.gate_of_tested mem
      exact ⟨number, 0, c, child, rfl, by simp [address]⟩
    unfold passAll at mem
    dsimp only at mem
    split at mem
    · rcases List.mem_append.1 mem with mem | mem
      · exact here mem
      · obtain ⟨number, k, c, child, at_k, way⟩ := ih mem
        exact ⟨number, k + 1, c, child, at_k, by simp [way, address]⟩
    · exact here mem

end Tested

namespace Encounter

variable {S : Scope} {tree : Expr} {event : Record} {path : ℕ} {x y : Encounter}
  {history later : List Note}

/-- The event has passed the first frames of the branch. -/
def Cleared (event : Record) (history : List Note) (x : Encounter) (depth : ℕ) : Prop :=
  ∀ k < depth, ∀ f, x.branch.frames[k]? = some f →
    f.Cleared event history x.branch.id (address (x.branch.frames.take k))

/-- An event that gets to the cursor has passed all frames. -/
theorem cleared_way (coherent : S.Coherent) (ready : x.Ready S tree event)
    (before : x.Cleared event history x.passed) (passed : (x.way event).verdict = .ok true) :
    x.Cleared event (history ++ (x.way event).notes) x.branch.frames.length := by
  intro k _ f at_k
  rcases Nat.lt_or_ge k x.passed with early | now
  · exact (before k early f at_k).mono (List.subset_append_left _ _)
  · obtain ⟨j, rfl⟩ := Nat.exists_eq_add_of_le now
    have ahead : ∀ g ∈ x.branch.frames.drop x.passed, g.Within S :=
      fun g mem => ready.within.1 g (List.mem_of_mem_drop mem)
    have cleared := cleared_passAll coherent ahead ready.fits x.branch.id
      (address (x.branch.frames.take x.passed)) x.branch.captures passed
      (List.getElem?_drop.trans at_k)
    rw [List.take_add, address, List.map_append]
    exact cleared.mono (List.subset_append_right _ _)

theorem notes_look (passed : (x.way event).verdict = .ok true) :
    ∃ met, (x.look event).notes = (x.way event).notes ++ met := ⟨_, by rw [look_of_passed passed]⟩

theorem way_subset (passed : (x.way event).verdict = .ok true) :
    (x.way event).notes ⊆ (x.own path event).1.notes := by
  obtain ⟨others, notes⟩ := x.notes_own path event
  obtain ⟨met, look⟩ := x.notes_look passed
  rw [notes, look]
  intro n mem
  simp [mem]

theorem created_of_mem_followers (mem : y.branch ∈ x.followers event) (path : ℕ) :
    CreatedFrom (x.own path event).1.notes x.branch.id y.branch.id := by
  rcases x.spawned_of_mem_followers path mem with same | noted
  · exact same ▸ .refl
  · exact .single noted

/-- The frames of the branches behind a branch are its frames and one of its own node, which the
event has passed, and then others. -/
theorem exists_cleared_of_mem_followers (coherent : S.Coherent) (ready : x.Ready S tree event)
    (mem : y.branch ∈ x.followers event) (path : ℕ) :
    ∃ own rest, y.branch.frames = x.branch.frames ++ own :: rest ∧
      own.Cleared event (x.own path event).1.notes y.branch.id (address x.branch.frames) := by
  have created := created_of_mem_followers mem path
  obtain ⟨-, move, -⟩ := ready.look coherent
  have stepped : .stepped x.branch.id (address x.branch.frames) ∈ (x.own path event).1.notes := by
    obtain ⟨others, notes⟩ := x.notes_own path event
    exact notes ▸ List.mem_cons_self
  unfold followers at mem
  dsimp only at mem
  split at mem
  · rename_i children descends
    obtain ⟨s, hs, frames, -⟩ := Branch.place_of_mem_carryOn mem
    obtain ⟨inner, starts⟩ := frames_of_mem_startsAt hs
    exact ⟨.sequence children 0, inner, starts ▸ frames, trivial⟩
  · rename_i key template value known groups
    obtain ⟨s, -, frames, -⟩ := Branch.place_of_mem_launch mem
    obtain ⟨-, -, found, -⟩ := Strand.look_group (move ▸ groups)
    refine ⟨.route key value, s.frames, by rw [frames, List.append_assoc]; rfl, ?_⟩
    exact ⟨value, found, x.branch.id, created, .inr ⟨rfl, stepped⟩⟩
  · cases mem

/-- **What the event has passed before a branch, it has passed before those behind it.** -/
theorem cleared_follow (coherent : S.Coherent) (ready : x.Ready S tree event)
    (causes : x.Causes event y) (sub : history ++ (x.own path event).1.notes ⊆ later)
    (before : x.Cleared event history x.passed) : y.Cleared event later y.passed := by
  obtain ⟨mem, at_y⟩ := causes
  obtain ⟨past, own⟩ := List.append_subset.1 sub
  have created := (created_of_mem_followers mem path).mono own
  obtain ⟨f, rest, frames, cleared⟩ := exists_cleared_of_mem_followers coherent ready mem path
  have passed := passed_of_mem_followers mem
  have all := x.cleared_way coherent ready before passed
  have noted : history ++ (x.way event).notes ⊆ later :=
    List.append_subset.2 ⟨past, List.Subset.trans (way_subset passed) own⟩
  intro k less g at_k
  rw [at_y, Nat.lt_succ_iff_lt_or_eq] at less
  rw [frames] at at_k ⊢
  rcases less with outer | rfl
  · rw [List.getElem?_append_left outer] at at_k
    rw [List.take_append_of_le_length outer.le]
    exact (all k outer g at_k).inherit noted created
  · rw [List.getElem?_append_right (Nat.le_refl _), Nat.sub_self] at at_k
    cases at_k
    rw [List.take_append_of_le_length (Nat.le_refl _), List.take_length]
    exact cleared.mono own

/-- A branch evaluates the conditions of filters around it, and of the node where it waits. -/
theorem place_of_tested {i : ℕ} {w : List ℕ} {verdict : Except EvalError Bool}
    (mem : .tested i w verdict ∈ (x.own path event).1.notes) :
    i = x.branch.id ∧ ((∃ k c child, x.branch.frames[k]? = some (.gate c child) ∧
        w = address (x.branch.frames.take k)) ∨
      w = address x.branch.frames ∧ (x.way event).verdict = .ok true) := by
  have gates : .tested i w verdict ∈ (x.way event).notes → i = x.branch.id ∧
      ∃ k c child, x.branch.frames[k]? = some (.gate c child) ∧
        w = address (x.branch.frames.take k) := by
    intro mem
    obtain ⟨number, k, c, child, at_k, way⟩ := gate_of_tested mem
    refine ⟨number, x.passed + k, c, child, List.getElem?_drop.symm.trans at_k, ?_⟩
    rw [way, List.take_add, address, address, address, List.map_append]
  obtain ⟨others, notes⟩ := x.notes_own path event
  have seen : .tested i w verdict ∈ (x.look event).notes := by
    rw [notes] at mem
    simpa [Branch.noteSpawned] using mem
  by_cases passed : (x.way event).verdict = .ok true
  · rw [look_of_passed passed] at seen
    rcases List.mem_append.1 seen with seen | seen
    · exact (gates seen).imp_right .inl
    · have cursor := (tests_meet event _ _).1.subset (Note.mem_tests seen)
      obtain ⟨number, place⟩ := Prod.mk.inj (List.mem_singleton.1 cursor)
      exact ⟨number, .inr ⟨place, passed⟩⟩
  · rw [(look_of_held_back passed).1] at seen
    exact (gates seen).imp_right .inl

/-- On the way to its own node a branch evaluates the conditions of nodes further out. -/
theorem not_tested_on_way {i : ℕ} {verdict : Except EvalError Bool}
    (inside : x.passed ≤ x.branch.frames.length) :
    .tested i (address x.branch.frames) verdict ∉ (x.way event).notes := by
  intro mem
  obtain ⟨-, k, c, child, at_k, way⟩ := gate_of_tested mem
  have less := (List.getElem?_eq_some_iff.1 at_k).1
  have lengths := congrArg List.length way
  simp only [address, List.length_append, List.length_map, List.length_take,
    List.length_drop] at lengths less
  omega

/-- Before the condition of its own node is evaluated, all of the way there is noted. -/
theorem way_before {i : ℕ} {verdict : Except EvalError Bool} {before rest : List Note}
    (inside : x.passed ≤ x.branch.frames.length) (passed : (x.way event).verdict = .ok true)
    (split : (x.own path event).1.notes =
      before ++ .tested i (address x.branch.frames) verdict :: rest) :
    (x.way event).notes ⊆ before := by
  obtain ⟨others, notes⟩ := x.notes_own path event
  obtain ⟨met, look⟩ := x.notes_look passed
  let start := .stepped x.branch.id (address x.branch.frames) :: (x.way event).notes
  have parts : start ++ (met ++ x.branch.noteSpawned others) =
      before ++ .tested i (address x.branch.frames) verdict :: rest := by
    rw [← split, notes, look]
    simp [start]
  have outside : .tested i (address x.branch.frames) verdict ∉ start := fun mem =>
    (List.mem_cons.1 mem).elim nofun (not_tested_on_way inside)
  have sub : start ⊆ before := by
    rcases List.append_eq_append_iff.1 parts with ⟨more, rfl, -⟩ | ⟨more, own, others⟩
    · exact List.subset_append_left _ _
    · cases more with
      | nil => exact (List.append_nil before ▸ own) ▸ fun _ mem => mem
      | cons m more =>
        cases others
        exact absurd (own ▸ List.mem_append_right _ List.mem_cons_self) outside
  exact fun m mem => sub (List.mem_cons_of_mem _ mem)

end Encounter

namespace Expr

variable {e n : Expr} {frames : List Frame}

/-- What holds of every frame on the way to a node, at the address of its own node. -/
theorem Leads.makes_at {P : Frame → List ℕ → Prop} (leads : e.Leads frames n)
    (keyed : ∀ f ∈ frames, f.Keyed) (here : List ℕ)
    (each : ∀ k f, frames[k]? = some f → P f (here ++ address (frames.take k))) :
    List.Forall₂ (fun a f => a.Makes f ∧ P f a.address) (e.ancestorsFrom here (address frames))
      frames := by
  induction leads generalizing here with
  | nil => exact .nil
  | @cons e d n f frames into _ ih =>
    rw [address, List.map_cons, ancestorsFrom, into.child?]
    have first : P f here := by simpa [address] using each 0 f rfl
    refine .cons ⟨into.makes (keyed f List.mem_cons_self) here, first⟩ ?_
    refine ih (fun g mem => keyed g (List.mem_cons_of_mem _ mem)) _ fun k g at_k => ?_
    simpa [address] using each (k + 1) g at_k

/-- The node of a filter does not wait. -/
theorem Leads.not_waits_of_gate {m : Expr} {k : ℕ} {c : Condition} {child : ℕ} {cursor : Cursor}
    (leads : e.Leads frames n) (at_k : frames[k]? = some (.gate c child))
    (found : e.node? (address (frames.take k)) = some m) : ¬ m.Waits cursor := by
  obtain ⟨less, here⟩ := List.getElem?_eq_some_iff.1 at_k
  rw [← List.take_append_drop k frames, List.drop_eq_getElem_cons less, here] at leads
  obtain ⟨d, first, second⟩ := leads.split
  obtain rfl : d = m := Option.some.inj (first.node?.symm.trans found)
  cases second with
  | cons into _ =>
    cases into
    exact nofun

end Expr

/-! ### Notes and encounters -/

/-- A note of some encounters belongs to one of them. -/
theorem exists_encounter_of_notes {path : ℕ} {event : Record} {xs : List Encounter}
    {before after : List Note} {n : Note} (split : notesOf path event xs = before ++ n :: after) :
    ∃ earlier x later own rest, xs = earlier ++ x :: later ∧
      (x.own path event).1.notes = own ++ n :: rest ∧ before = notesOf path event earlier ++ own := by
  induction xs generalizing before with
  | nil => simp [notesOf] at split
  | cons x xs ih =>
    rw [notesOf, List.flatMap_cons] at split
    rcases List.append_eq_append_iff.1 split with ⟨more, rfl, others⟩ | ⟨inner, own, others⟩
    · obtain ⟨earlier, y, later, own, rest, rfl, notes, rfl⟩ := ih others
      exact ⟨x :: earlier, y, later, own, rest, rfl, notes, by simp [notesOf]⟩
    · cases inner with
      | nil =>
        obtain ⟨earlier, y, later, own', rest, rfl, notes, empty⟩ := @ih [] others.symm
        refine ⟨x :: earlier, y, later, own', rest, rfl, notes, ?_⟩
        calc before = (x.own path event).1.notes ++ [] := by
              rw [own, List.append_nil, List.append_nil]
          _ = (x.own path event).1.notes ++ (notesOf path event earlier ++ own') := by rw [← empty]
          _ = notesOf path event (x :: earlier) ++ own' := by simp [notesOf]
      | cons m inner =>
        cases others
        exact ⟨[], x, xs, before, inner, rfl, own, by simp [notesOf]⟩

/-! ### Events of a path -/

namespace Path

variable {S : Scope} {tree : Expr} {p : Path}

/-- **A node's condition is evaluated behind all filters and groups around the node.** -/
theorem Founded.tests_behind_gates (coherent : S.Coherent) (h : p.Founded S tree)
    {e : Record} {before after : List Note} {i : ℕ} {way : List ℕ} {verdict : Except EvalError Bool}
    (split : (p.onEvent e).2.notes = before ++ .tested i way verdict :: after) {n : Expr} {c : Cursor}
    (found : tree.node? way = some n) (waits : n.Waits c) :
    ∃ x ∈ p.encounters e, x.branch.id = i ∧ address x.branch.frames = way ∧
      n.Waits x.branch.cursor ∧ List.Forall₂ (fun a f => a.Makes f ∧ f.Cleared e before i a.address)
        (tree.ancestors way) x.branch.frames := by
  rw [notes_encounters] at split
  obtain ⟨earlier, x, later, own, rest, met, notes, rfl⟩ := exists_encounter_of_notes split
  have handed := h.throughout coherent e (P := fun history x => x.Cleared e history x.passed)
    (fun _ _ _ _ => nofun)
    fun _ _ _ _ ready _ causes sub => Encounter.cleared_follow coherent ready causes sub
  obtain ⟨ready, before⟩ := handed.at met
  obtain ⟨m, leads, waits_m⟩ := ready.stands
  have tested : .tested i way verdict ∈ (x.own p.id e).1.notes := notes ▸ by simp
  obtain ⟨rfl, ⟨k, c, child, at_k, rfl⟩ | ⟨rfl, passed⟩⟩ := Encounter.place_of_tested tested
  · exact absurd waits (leads.not_waits_of_gate at_k found)
  obtain rfl : m = n := Option.some.inj (leads.node?.symm.trans found)
  have all := x.cleared_way coherent ready before passed
  have sub : [] ++ notesOf p.id e earlier ++ (x.way e).notes ⊆ notesOf p.id e earlier ++ own := by
    have own := Encounter.way_before ready.inside passed notes
    exact List.append_subset.2
      ⟨List.subset_append_left _ _, List.subset_append_of_subset_right _ own⟩
  refine ⟨x, met ▸ by simp, rfl, rfl, waits_m, leads.makes_at
    (P := fun f node => f.Cleared e (notesOf p.id e earlier ++ own) x.branch.id node) ready.keyed []
    fun k f at_k => ?_⟩
  exact (all k (List.getElem?_eq_some_iff.1 at_k).1 f at_k).mono sub

/-- **Every condition is evaluated once, and behind its gates.** In an event, after any life of a
path:

* no condition is evaluated twice for a branch;
* the notes are those of the running branches, one after another. With a branch that ran before the
  event and behind it, branches meet the event no more often than there are nodes at or below its
  own node at which a match may wait;
* before the condition of a node is evaluated, the event has passed all filters and groups above the
  node, in this order of notes, for the same branch or one that it goes back to in the same event. -/
theorem conditions_gated {tree : Expr} (valid : tree.defect? = none) (coherent : tree.Coherent)
    (id : ℕ) (name : Option String) (initial : Captures) (acts : List Act) (e : Record) :
    let p := (start id name tree initial).after acts
    let log := (p.onEvent e).2.notes
    (Note.tests log).Nodup ∧
    log = (p.meetings e).flatMap (notesOf p.id e) ∧
    List.Forall₂ (fun b xs => ∃ n, tree.node? (address b.frames) = some n ∧
      Note.steps (notesOf p.id e xs) ≤ n.waitingNodes ∧
      ∀ x ∈ xs, ∃ t, Relation.ReflTransGen (Encounter.Causes e) ⟨b, 0, t⟩ x)
        p.running (p.meetings e) ∧
    ∀ before i way verdict after n c, log = before ++ .tested i way verdict :: after →
      tree.node? way = some n → n.Waits c → ∃ x ∈ p.encounters e, x.branch.id = i ∧
        address x.branch.frames = way ∧ n.Waits x.branch.cursor ∧
        List.Forall₂ (fun a f => a.Makes f ∧ f.Cleared e before i a.address) (tree.ancestors way)
          x.branch.frames := by
  intro p log
  have founded := founded_after valid coherent id name initial acts
  have ledger : p.Ledger := ledger_of_within
    (Expr.within_of_valid valid (fun _ hc => hc) fun _ hk => hk : tree.Within (Scope.of tree)) id
    name initial acts
  refine ⟨nodup_tests ledger e, ?notes, ?meetings, ?gates⟩
  case notes => exact (notes_encounters p e).trans (notesOf_flatten _)
  case meetings =>
    have places : ∀ b ∈ p.running, ∃ n, tree.node? (address b.frames) = some n ∧
        n.Waits b.cursor := fun b mem =>
      have ⟨n, leads, waits⟩ := founded.stands b mem
      ⟨n, leads.node?, waits⟩
    refine ((List.forall₂_and_left _ _).2 ⟨places, forall₂_meetings p e⟩).imp ?_
    rintro b xs ⟨⟨n, found, waits⟩, rfl | ⟨t, rfl⟩⟩
    · exact ⟨n, found, Nat.zero_le _, List.forall_mem_nil _⟩
    · refine ⟨n, found, ?_, fun x mem => ⟨t, causes_of_mem_encounters mem⟩⟩
      rw [steps_notesOf, ← waits.waitingNodes]
      exact length_encounters b t
  case gates =>
    intro before i way verdict after n c split found waits
    exact founded.tests_behind_gates (Scope.coherent_of coherent) split found waits

/-- A filter around a group whose first node has children, and a further key. -/
theorem conditions_gated_two_hosts :
    let key : KeyExtractor := ⟨0, "host", .property "host"⟩
    let tree : Expr := .filter .always [.groupBy key (.eventThen .always [.event .always])]
    let event (host : String) : Record := ⟨"", "", "", .epoch, [.string "host" host]⟩
    let p := (start 1 none tree .empty).after [.event (event "a")]
    tree.defect? = none ∧ tree.Coherent ∧ (Note.tests (p.onEvent (event "b")).2.notes).Nodup ∧
      List.Forall₂ (fun b xs => ∃ n, tree.node? (address b.frames) = some n ∧
        Note.steps (notesOf p.id (event "b") xs) ≤ n.waitingNodes) p.running
        (p.meetings (event "b")) := by
  intro key tree event p
  have coherent : tree.Coherent := by
    intro j hj k hk _
    rw [List.mem_singleton.1 hj, List.mem_singleton.1 hk]
  obtain ⟨once, -, steps, -⟩ :=
    conditions_gated (by decide) coherent 1 none .empty [.event (event "a")] (event "b")
  exact ⟨by decide, coherent, once, steps.imp fun b xs ⟨n, found, few, _⟩ => ⟨n, found, few⟩⟩

end Path

end TracePattern
