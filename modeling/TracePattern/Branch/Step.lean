import TracePattern.Branch.Basic

/-!
# The effect of an event on a branch

An event first has to pass the gates around a branch, from the outermost to the innermost.  Then it
meets the cursor: an awaited event lets the branch leave its node, and a key that was not seen
before forms a new group.

* `Effects`: the branches, results, reports and notes that come out of a step;
* `Tally`: the numbers already given to branches, and the keys already extracted from the event;
* `Frame.pass`, `passAll`: gates; `unwind`: leaving completed nodes;
* `Branch.look`: the reaction of one branch; `step`: with the branches that follow from it.
-/

namespace TracePattern

/-- What is noted of a step. -/
inductive Note
  /-- A branch, at a node, got the event. -/
  | stepped (branch : Nat) (node : List Nat)
  /-- The condition of a node was evaluated for a branch. -/
  | tested (branch : Nat) (node : List Nat) (verdict : Except EvalError Bool)
  /-- A branch compared the key of the event with the key of its group. -/
  | routed (branch : Nat) (node : List Nat) (passed : Bool)
  /-- An extractor was run. -/
  | extracted (key : Nat)
  /-- A branch got a new number because of another. -/
  | spawned (parent child : Nat)
  /-- User code left a mark. -/
  | marked (name : String)

/-- What comes out of a step, each part in its order in time. -/
structure Effects where
  running : List Branch
  finished : List Finish
  reports : List Report
  notes : List Note

namespace Effects

/-- Nothing comes out. -/
def none : Effects := ⟨[], [], [], []⟩

/-- First the one, then the other. -/
def append (a b : Effects) : Effects :=
  ⟨a.running ++ b.running, a.finished ++ b.finished, a.reports ++ b.reports, a.notes ++ b.notes⟩

instance : Append Effects := ⟨append⟩

@[simp] theorem running_append (a b : Effects) : (a ++ b).running = a.running ++ b.running := rfl
@[simp] theorem finished_append (a b : Effects) : (a ++ b).finished = a.finished ++ b.finished := rfl
@[simp] theorem reports_append (a b : Effects) : (a ++ b).reports = a.reports ++ b.reports := rfl
@[simp] theorem notes_append (a b : Effects) : (a ++ b).notes = a.notes ++ b.notes := rfl

/-- A branch that goes on running. -/
def run (b : Branch) : Effects := ⟨[b], [], [], []⟩

/-- Branches that go on running. -/
def runs (bs : List Branch) : Effects := ⟨bs, [], [], []⟩

/-- Notes only. -/
def note (notes : List Note) : Effects := ⟨[], [], [], notes⟩

end Effects

/-! ### Keys -/

/-- The keys extracted from the current event, by the number of the extractor. -/
abbrev Keys := List (Nat × Option Value)

/-- The key of an event, whether it was extracted before or is extracted now. An extractor that ends
without a value finds no key. -/
def Keys.find (keys : Keys) (key : KeyExtractor) (event : Record) :
    Option Value × Keys × List Note :=
  match keys.find? fun k => k.1 = key.ident with
  | some k => (k.2, keys, [])
  | none =>
    let answer := key.extract event
    let found := match answer.guarded with
      | .ok value => value
      | .error _ => none
    (found, keys ++ [(key.ident, found)], .extracted key.ident :: answer.marks.map .marked)

/-! ### Gates -/

/-- How an event gets through frames: the captured values and keys after it, and whether it passed
all of them. -/
structure Passage where
  captures : Captures
  keys : Keys
  notes : List Note
  verdict : Except EvalError Bool

/-- One frame, at a node, for a branch. Only the conditions of filters and the keys of groups hold
events back. -/
def Frame.pass (event : Record) (branch : Nat) (node : List Nat) (captures : Captures) (keys : Keys) :
    Frame → Passage
  | .gate condition _ =>
    let done := condition.evaluate event captures
    ⟨done.1, keys, done.2.marks.map .marked ++ [.tested branch node done.2.guarded],
      done.2.guarded⟩
  | .route key value =>
    let (found, keys, notes) := keys.find key event
    let passed := found.any fun v => v.equal value
    ⟨captures, keys, notes ++ [.routed branch node passed], .ok passed⟩
  | .sequence _ _ => ⟨captures, keys, [], .ok true⟩
  | .record _ => ⟨captures, keys, [], .ok true⟩

/-- Frames from the outermost to the innermost, up to the first that the event does not pass. -/
def passAll (event : Record) (branch : Nat) (node : List Nat) (captures : Captures) (keys : Keys) :
    List Frame → Passage
  | [] => ⟨captures, keys, [], .ok true⟩
  | f :: rest =>
    let here := f.pass event branch node captures keys
    match here.verdict with
    | .ok true =>
      let further := passAll event branch (node ++ [f.child]) here.captures here.keys rest
      { further with notes := here.notes ++ further.notes }
    | _ => here

/-! ### Leaving nodes -/

/-- What is left behind by leaving completed nodes: the sinks that hear of it, innermost first, and
the next child of the first sequence that has one, with the frames around it. -/
structure Unwound where
  sinks : List Nat
  next : Option (List Frame × List Expr × Nat)

/-- Leaves frames from the innermost on. -/
def unwind : List Frame → Unwound
  | [] => ⟨[], none⟩
  | f :: rest =>
    let inner := unwind rest
    match inner.next with
    | some (outer, children, index) => ⟨inner.sinks, some (f :: outer, children, index)⟩
    | none =>
      match f with
      | .record sink => ⟨inner.sinks ++ [sink], none⟩
      | .sequence children index =>
        if index + 1 < children.length then ⟨inner.sinks, some ([], children, index + 1)⟩
        else ⟨inner.sinks, none⟩
      | .gate _ _ => ⟨inner.sinks, none⟩
      | .route _ _ => ⟨inner.sinks, none⟩

/-- The sinks around a branch, innermost first. -/
def sinksAround (frames : List Frame) : List Nat :=
  frames.reverse.filterMap fun
    | .record sink => some sink
    | _ => none

/-! ### Steps -/

/-- The next free number of a branch, the count of numbers given, and the keys of the event. -/
structure Tally where
  nextId : Nat
  spawned : Nat
  keys : Keys

/-- The tally after giving numbers to `n` branches. -/
def Tally.allocate (t : Tally) (n : Nat) : Tally :=
  { t with nextId := t.nextId + n, spawned := t.spawned + n }

/-- A part of a step: its effects, and the tally after it. -/
abbrev Turn := Tally → Effects × Tally

/-- One turn after another. -/
def runAll : List Turn → Turn
  | [], tally => (.none, tally)
  | t :: rest, tally =>
    let first := t tally
    let others := runAll rest first.2
    (first.1 ++ others.1, others.2)

/-- What an event means for one branch. -/
inductive Move
  /-- It stays where it is. -/
  | stay
  | fail (e : EvalError)
  /-- The awaited event came. -/
  | leave
  /-- The awaited event came and goes on to children. -/
  | descend (children : List Expr)
  /-- A key was seen for the first time. -/
  | group (key : KeyExtractor) (template : Expr) (value : Value) (seen : KeySet)

/-- The branch after an event met it, with its captured values, and what the event means for it. -/
structure Look where
  branch : Branch
  keys : Keys
  notes : List Note
  move : Move

namespace Branch

/-- An event that passed all gates meets the cursor. -/
def meet (b : Branch) (event : Record) (keys : Keys) : Look :=
  match b.cursor with
  | .event condition children =>
    let done := condition.evaluate event b.captures
    let move : Move := match done.2.guarded with
      | .error e => .fail e
      | .ok false => .stay
      | .ok true => match children with
        | none => .leave
        | some children => .descend children
    ⟨{ b with captures := done.1 }, keys,
      done.2.marks.map .marked ++ [.tested b.id (address b.frames) done.2.guarded], move⟩
  | .router key template seen =>
    let (found, keys, notes) := keys.find key event
    match found with
    | none => ⟨b, keys, notes, .stay⟩
    | some value =>
      match seen.insert? value with
      | none => ⟨b, keys, notes, .stay⟩
      | some seen => ⟨b, keys, notes, .group key template value seen⟩

/-- An event meets the branch. The first `passed` frames have let it through before. -/
def look (b : Branch) (event : Record) (passed : Nat) (keys : Keys) : Look :=
  let way := passAll event b.id (address (b.frames.take passed)) b.captures keys
    (b.frames.drop passed)
  let b := { b with captures := way.captures }
  match way.verdict with
  | .error e => ⟨b, way.keys, way.notes, .fail e⟩
  | .ok false => ⟨b, way.keys, way.notes, .stay⟩
  | .ok true =>
    let met := b.meet event way.keys
    { met with notes := way.notes ++ met.notes }

/-- The branch ends with an error, and every sink around it hears of it. -/
def fail (path : Nat) (b : Branch) (e : EvalError) : Effects :=
  ⟨[], [b.finish .failed (some e)],
    (sinksAround b.frames).map fun sink => ⟨sink, b.recorded path .failed (some e)⟩, []⟩

/-- The notes of new branches that follow from this one. -/
def noteSpawned (b : Branch) (others : List Branch) : List Note :=
  (others.filter fun c => c.id ≠ b.id).map fun c => .spawned b.id c.id

/-- The branch leaves its node. It goes on at the next child of a sequence around it, or has
succeeded. -/
def complete (path : Nat) (b : Branch) : Turn := fun tally =>
  let out := unwind b.frames
  let reports := out.sinks.map fun sink => ⟨sink, b.recorded path .successful none⟩
  match out.next with
  | none => (⟨[], [b.finish .successful none], reports, []⟩, tally)
  | some (outer, children, index) =>
    let followers := b.carryOn outer (startsAt children index) tally.nextId
    (⟨followers, [], reports, b.noteSpawned followers⟩, tally.allocate (followers.length - 1))

theorem meet_descend {b : Branch} {event : Record} {keys : Keys} {children : List Expr}
    (h : (b.meet event keys).move = .descend children) :
    Expr.sizes children < b.cursor.size := by
  unfold meet at h
  split at h
  · rename_i c cs hc
    rw [hc]
    dsimp only at h
    split at h
    · cases h
    · cases h
    · split at h
      · cases h
      · obtain rfl : _ = children := by simpa using h
        simp only [Cursor.size]
        omega
  · dsimp only at h
    split at h
    · cases h
    · split at h <;> cases h

theorem meet_group {b : Branch} {event : Record} {keys : Keys} {key : KeyExtractor}
    {template : Expr} {value : Value} {seen : KeySet}
    (h : (b.meet event keys).move = .group key template value seen) :
    template.size < b.cursor.size := by
  unfold meet at h
  split at h
  · dsimp only at h
    split at h
    · cases h
    · cases h
    · split at h <;> cases h
  · rename_i k t s hc
    rw [hc]
    dsimp only at h
    split at h
    · cases h
    · split at h
      · cases h
      · cases h
        simp only [Cursor.size]
        omega

/-- A branch only descends to children of the node where it stands. -/
theorem look_descend {b : Branch} {event : Record} {passed : Nat} {keys : Keys}
    {children : List Expr} (h : (b.look event passed keys).move = .descend children) :
    Expr.sizes children < b.cursor.size := by
  unfold look at h
  dsimp only at h
  split at h
  · cases h
  · cases h
  · dsimp only at h
    have := meet_descend h
    exact this

/-- A branch only forms groups of the template of the node where it stands. -/
theorem look_group {b : Branch} {event : Record} {passed : Nat} {keys : Keys} {key : KeyExtractor}
    {template : Expr} {value : Value} {seen : KeySet}
    (h : (b.look event passed keys).move = .group key template value seen) :
    template.size < b.cursor.size := by
  unfold look at h
  dsimp only at h
  split at h
  · cases h
  · cases h
  · dsimp only at h
    have := meet_group h
    exact this

end Branch

/--
An event meets a branch of a path, and then the branches that follow from it in the same event:
those that start on the children of a node whose event came, and those of a new group.

The branches that follow stand inside the frames that let the event through, and these do not test
it again.
-/
def step (path : Nat) (event : Record) (passed : Nat) (b : Branch) : Turn := fun tally =>
  let seen := b.look event passed tally.keys
  let tally := { tally with keys := seen.keys }
  let notes := Effects.note (.stepped b.id (address b.frames) :: seen.notes)
  let inside := b.frames.length + 1
  match h : seen.move with
  | .stay => (notes ++ .run seen.branch, tally)
  | .fail e => (notes ++ seen.branch.fail path e, tally)
  | .leave =>
    let after := seen.branch.complete path tally
    (notes ++ after.1, after.2)
  | .descend children =>
    let followers := seen.branch.carryOn b.frames (startsAt children 0) tally.nextId
    let after := runAll (followers.attach.map fun ⟨f, _⟩ => step path event inside f)
      (tally.allocate (followers.length - 1))
    (notes ++ .note (seen.branch.noteSpawned followers) ++ after.1, after.2)
  | .group key template value known =>
    let members := Branch.launch (seen.branch.captures.insert key.name value)
      (b.frames ++ [.route key value]) template.starts tally.nextId
    let router := { seen.branch with cursor := .router key template known }
    let after := runAll (members.attach.map fun ⟨f, _⟩ => step path event inside f)
      (tally.allocate members.length)
    (notes ++ .run router ++ .note (router.noteSpawned members) ++ after.1, after.2)
termination_by b.cursor.size
decreasing_by
  · rename_i hf _
    obtain ⟨s, hs, e⟩ := Branch.cursor_of_mem_carryOn hf
    rw [e]
    exact Nat.lt_of_le_of_lt (size_of_mem_startsAt hs) (Branch.look_descend h)
  · rename_i hf _
    obtain ⟨s, hs, e⟩ := Branch.cursor_of_mem_launch hf
    rw [e]
    exact Nat.lt_of_le_of_lt (size_of_mem_starts hs) (Branch.look_group h)

/-- The equation of `step`. -/
theorem step_eq (path : Nat) (event : Record) (passed : Nat) (b : Branch) (tally : Tally) :
    step path event passed b tally =
      let seen := b.look event passed tally.keys
      let tally := { tally with keys := seen.keys }
      let notes := Effects.note (.stepped b.id (address b.frames) :: seen.notes)
      let inside := b.frames.length + 1
      match seen.move with
      | .stay => (notes ++ .run seen.branch, tally)
      | .fail e => (notes ++ seen.branch.fail path e, tally)
      | .leave =>
        let after := seen.branch.complete path tally
        (notes ++ after.1, after.2)
      | .descend children =>
        let followers := seen.branch.carryOn b.frames (startsAt children 0) tally.nextId
        let after := runAll (followers.map (step path event inside))
          (tally.allocate (followers.length - 1))
        (notes ++ .note (seen.branch.noteSpawned followers) ++ after.1, after.2)
      | .group key template value known =>
        let members := Branch.launch (seen.branch.captures.insert key.name value)
          (b.frames ++ [.route key value]) template.starts tally.nextId
        let router := { seen.branch with cursor := .router key template known }
        let after := runAll (members.map (step path event inside))
          (tally.allocate members.length)
        (notes ++ .run router ++ .note (router.noteSpawned members) ++ after.1, after.2) := by
  rw [step]
  dsimp only
  split <;> rename_i h <;> simp only [h, List.attach_map_val]

end TracePattern
