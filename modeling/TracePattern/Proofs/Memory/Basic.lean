import TracePattern.Proofs.Keys
import TracePattern.Proofs.Run
import TracePattern.Proofs.Turns

/-!
# Paths with another memory

A path remembers keys in two places: the keys of the current event, so that no extractor runs twice,
and the keys that each router has seen, in buckets by their hashes. Here a path runs with any memory
in their place.

* `Memory`, and three of them: `Memory.kept`, which is that of all paths, `Memory.afresh`, which runs
  the extractor every time that a key is asked for, and `Memory.seeded`, with hashes of another kind
  for each router;
* `Frame.passBy`, `Branch.lookBy`, `stepBy`, `Path.onEventBy`, `Path.afterBy`: the parts of an event
  with a given memory;
* `stepBy_turns`: steps with a given memory, as turns with turns behind them;
* `Path.onEventBy_kept`: with the memory of all paths, an event does what it does without.
-/

namespace TracePattern

/-- How keys are remembered. -/
structure Memory where
  /-- The key of an event, with what is kept of the event's keys from then on. -/
  find : Keys → KeyExtractor → Record → Option Value × Keys × List Note
  /-- The keys that the router of a number has seen after a further one, or nothing if it has seen
  the key before. -/
  insert? : ℕ → KeySet → Value → Option KeySet

namespace Memory

/-- The memory of all paths. -/
def kept : Memory := ⟨Keys.find, fun _ seen key => seen.insert? key⟩

/-- Keys of events are not kept: the extractor runs whenever a key is asked for. -/
def afresh : Memory where
  find keys key event :=
    (key.key? event, keys, .extracted key.ident :: (key.extract event).marks.map .marked)
  insert? _ seen key := seen.insert? key

/-- The router of each number hashes the keys that it has seen in its own way. -/
def seeded (hash : ℕ → List Int → UInt64) : Memory :=
  ⟨Keys.find, fun router seen key => seen.insertWith? (hash router) key⟩

end Memory

section Parts

variable (m : Memory) (event : Record)

/-! ### Gates -/

/-- One frame. The key of a group is asked of the memory. -/
def Frame.passBy (branch : ℕ) (node : List ℕ) (captures : Captures) (keys : Keys) : Frame → Passage
  | .route key value =>
    let (found, keys, notes) := m.find keys key event
    let passed := found.any fun v => v.equal value
    ⟨captures, keys, notes ++ [.routed branch node passed], .ok passed⟩
  | f => f.pass event branch node captures keys

/-- Frames up to the first that the event does not pass. -/
def passAllBy (branch : ℕ) (node : List ℕ) (captures : Captures) (keys : Keys) :
    List Frame → Passage
  | [] => ⟨captures, keys, [], .ok true⟩
  | f :: rest =>
    let here := f.passBy m event branch node captures keys
    match here.verdict with
    | .ok true =>
      let further := passAllBy branch (node ++ [f.child]) here.captures here.keys rest
      { further with notes := here.notes ++ further.notes }
    | _ => here

/-! ### Looks -/

namespace Branch

/-- An event that passed all gates meets the cursor. A router asks the memory for the key of the
event, and whether it has seen it. -/
def meetBy (b : Branch) (keys : Keys) : Look :=
  match b.cursor with
  | .event _ _ => b.meet event keys
  | .router key template seen =>
    let (found, keys, notes) := m.find keys key event
    match found with
    | none => ⟨b, keys, notes, .stay⟩
    | some value =>
      match m.insert? b.id seen value with
      | none => ⟨b, keys, notes, .stay⟩
      | some seen => ⟨b, keys, notes, .group key template value seen⟩

/-- An event meets the branch. -/
def lookBy (b : Branch) (passed : ℕ) (keys : Keys) : Look :=
  let way := passAllBy m event b.id (address (b.frames.take passed)) b.captures keys
    (b.frames.drop passed)
  let b := { b with captures := way.captures }
  match way.verdict with
  | .error e => ⟨b, way.keys, way.notes, .fail e⟩
  | .ok false => ⟨b, way.keys, way.notes, .stay⟩
  | .ok true =>
    let met := b.meetBy m event way.keys
    { met with notes := way.notes ++ met.notes }

end Branch

end Parts

namespace Branch

variable {m : Memory} {event : Record}

theorem from_meetBy (b : Branch) (keys : Keys) : (b.meetBy m event keys).move.From b.cursor := by
  unfold meetBy
  split
  · cases met : (b.meet event keys).move with
    | descend children => exact meet_descend_cursor met
    | group key template value known => exact meet_group_cursor met
    | _ => trivial
  · rename_i key template seen cursor
    dsimp only
    split
    · trivial
    · split
      · trivial
      · exact ⟨seen, cursor⟩

/-- A branch only goes on to parts of the node where it stands. -/
theorem from_lookBy (b : Branch) (passed : ℕ) (keys : Keys) :
    (b.lookBy m event passed keys).move.From b.cursor := by
  unfold lookBy
  dsimp only
  split
  · trivial
  · trivial
  · exact from_meetBy _ _

theorem lookBy_descend {b : Branch} {passed : ℕ} {keys : Keys} {children : List Expr}
    (h : (b.lookBy m event passed keys).move = .descend children) :
    ∃ c, b.cursor = .event c (some children) := by
  have parts : (b.lookBy m event passed keys).move.From b.cursor := b.from_lookBy passed keys
  rwa [h] at parts

theorem lookBy_group {b : Branch} {passed : ℕ} {keys : Keys} {key : KeyExtractor}
    {template : Expr} {value : Value} {known : KeySet}
    (h : (b.lookBy m event passed keys).move = .group key template value known) :
    ∃ seen, b.cursor = .router key template seen := by
  have parts : (b.lookBy m event passed keys).move.From b.cursor := b.from_lookBy passed keys
  rwa [h] at parts

end Branch

/-! ### Steps -/

/-- An event meets a branch of a path, and then the branches that follow from it. -/
def stepBy (m : Memory) (path : ℕ) (event : Record) (passed : ℕ) (b : Branch) : Turn := fun tally =>
  let seen := b.lookBy m event passed tally.keys
  let tally := { tally with keys := seen.keys }
  let notes := Effects.note (.stepped b.id (address b.frames) :: seen.notes)
  let inside := b.frames.length + 1
  match h : seen.move with
  | .stay => (notes ++ .run seen.branch, tally)
  | .fail e => (notes ++ seen.branch.fail path e, tally)
  | .leave =>
    let after := seen.branch.complete path tally
    (notes ++ after.1, after.2)
  | .descend children =>
    let followers := seen.branch.carryOn b.frames (startsAt children 0) tally.nextId
    let after := runAll (followers.attach.map fun ⟨f, _⟩ => stepBy m path event inside f)
      (tally.allocate (followers.length - 1))
    (notes ++ .note (seen.branch.noteSpawned followers) ++ after.1, after.2)
  | .group key template value known =>
    let members := Branch.launch (seen.branch.captures.insert key.name value)
      (b.frames ++ [.route key value]) template.starts tally.nextId
    let router := { seen.branch with cursor := .router key template known }
    let after := runAll (members.attach.map fun ⟨f, _⟩ => stepBy m path event inside f)
      (tally.allocate members.length)
    (notes ++ .run router ++ .note (router.noteSpawned members) ++ after.1, after.2)
termination_by b.cursor.size
decreasing_by
  · rename_i hf _
    obtain ⟨c, cursor⟩ := Branch.lookBy_descend h
    exact Branch.smaller_carryOn cursor _ hf
  · rename_i hf _
    obtain ⟨seen, cursor⟩ := Branch.lookBy_group h
    exact Branch.smaller_launch cursor _ hf

/-- The equation of `stepBy`. -/
theorem stepBy_eq (m : Memory) (path : ℕ) (event : Record) (passed : ℕ) (b : Branch)
    (tally : Tally) :
    stepBy m path event passed b tally =
      let seen := b.lookBy m event passed tally.keys
      let tally := { tally with keys := seen.keys }
      let notes := Effects.note (.stepped b.id (address b.frames) :: seen.notes)
      let inside := b.frames.length + 1
      match seen.move with
      | .stay => (notes ++ .run seen.branch, tally)
      | .fail e => (notes ++ seen.branch.fail path e, tally)
      | .leave =>
        let after := seen.branch.complete path tally
        (notes ++ after.1, after.2)
      | .descend children =>
        let followers := seen.branch.carryOn b.frames (startsAt children 0) tally.nextId
        let after := runAll (followers.map (stepBy m path event inside))
          (tally.allocate (followers.length - 1))
        (notes ++ .note (seen.branch.noteSpawned followers) ++ after.1, after.2)
      | .group key template value known =>
        let members := Branch.launch (seen.branch.captures.insert key.name value)
          (b.frames ++ [.route key value]) template.starts tally.nextId
        let router := { seen.branch with cursor := .router key template known }
        let after := runAll (members.map (stepBy m path event inside))
          (tally.allocate members.length)
        (notes ++ .run router ++ .note (router.noteSpawned members) ++ after.1, after.2) := by
  rw [stepBy]
  dsimp only
  split <;> rename_i h <;> simp only [h, List.attach_map_val]

/-- The event meets the branch, with a given memory. -/
def Due.lookBy (m : Memory) (event : Record) (d : Due) (keys : Keys) : Look :=
  d.branch.lookBy m event d.passed keys

/-- A step with a given memory is what the event does to the branch alone, and the steps of those
behind it. -/
theorem stepBy_turns (m : Memory) (path : ℕ) (event : Record) :
    Turns (Due.alone (Due.lookBy m event) path) (Due.behind (Due.lookBy m event))
      fun d => stepBy m path event d.passed d.branch where
  smaller := Due.smaller_behind fun d keys => d.branch.from_lookBy d.passed keys
  made d t := by
    rw [stepBy_eq]
    simp only [proceed, Due.alone, Due.behind, Due.lookBy, Look.act, Look.followers, List.map_map]
    cases (d.branch.lookBy m event d.passed t.keys).move <;>
      simp [runAll, Effects.append_assoc, Function.comp_def]

/-! ### Paths -/

namespace Path

variable (m : Memory)

/-- The turns of all running branches. -/
def turnBy (p : Path) (event : Record) : Effects × Tally :=
  runAll (p.running.map (stepBy m p.id event 0)) ⟨p.nextId, 0, []⟩

/-- The path after an event. -/
def onEventBy (p : Path) (event : Record) : Path × Output :=
  if p.closed then (p, .none)
  else
    let done := p.turnBy m event
    let effects := done.1
    ({ p with
        running := effects.running.mergeSort fun a b => a.id ≤ b.id
        finished := p.finished ++ effects.finished
        nextId := done.2.nextId
        stats :=
          { eventsApplied := p.stats.eventsApplied + 1
            branchesSpawned := p.stats.branchesSpawned + done.2.spawned
            succeeded := p.stats.succeeded + count .successful effects.finished
            failed := p.stats.failed + count .failed effects.finished } },
      ⟨effects.reports, effects.notes⟩)

/-- The path after something happened. -/
def applyBy (p : Path) : Act → Path
  | .event e => (p.onEventBy m e).1
  | .close => p.close

/-- The path after several happenings. -/
def afterBy (p : Path) (acts : List Act) : Path := acts.foldl (applyBy m) p

end Path

/-! ### The memory of all paths -/

section Kept

variable {event : Record}

theorem passBy_kept (branch : ℕ) (node : List ℕ) (captures : Captures) (keys : Keys) (f : Frame) :
    f.passBy .kept event branch node captures keys = f.pass event branch node captures keys := by
  cases f <;> rfl

theorem passAllBy_kept (branch : ℕ) (node : List ℕ) (captures : Captures) (keys : Keys)
    (frames : List Frame) :
    passAllBy .kept event branch node captures keys frames =
      passAll event branch node captures keys frames := by
  induction frames generalizing node captures keys with
  | nil => rfl
  | cons f rest ih =>
    rw [passAllBy, passAll, passBy_kept]
    dsimp only
    cases (f.pass event branch node captures keys).verdict with
    | error e => rfl
    | ok passed =>
      cases passed with
      | false => rfl
      | true => simp only [ih]

theorem Branch.lookBy_kept (b : Branch) (passed : ℕ) (keys : Keys) :
    b.lookBy .kept event passed keys = b.look event passed keys := by
  have met (b : Branch) (keys : Keys) : b.meetBy .kept event keys = b.meet event keys := by
    unfold meetBy
    split
    · rfl
    · rename_i cursor
      rw [meet, cursor]
      rfl
  unfold lookBy look
  simp only [passAllBy_kept]
  cases (passAll event b.id (address (b.frames.take passed)) b.captures keys
    (b.frames.drop passed)).verdict with
  | error e => rfl
  | ok through =>
    cases through with
    | false => rfl
    | true => simp only [met]

namespace Path

theorem turnBy_kept (p : Path) (e : Record) : p.turnBy .kept e = p.turn e := by
  have sees : Due.lookBy .kept e = Due.look e := by
    funext d keys
    exact d.branch.lookBy_kept d.passed keys
  have turns := stepBy_turns .kept p.id e
  rw [sees] at turns
  have same := turns.unique (step_turns p.id e).made (p.running.map (⟨·, 0⟩)) ⟨p.nextId, 0, []⟩
  rwa [map_due, map_due] at same

/-- With the memory of all paths, an event does what it does. -/
theorem onEventBy_kept (p : Path) (e : Record) : p.onEventBy .kept e = p.onEvent e := by
  unfold onEventBy onEvent
  simp only [turnBy_kept]

end Path

end Kept

end TracePattern
