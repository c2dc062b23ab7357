import TracePattern.Path

/-!
# Stacks

All that is around a branch lies on one stack, from the outermost layer to the innermost.  The
children of a node that waits for an event lie on it too: they are pushed when the node is entered,
and when its event came they are taken off and the first of them is entered in a sequence.

* `Layer`, `Head`, `Spawn`, `Stacked`: a branch by its stack and by what it waits for;
* `Expr.enter`, `enterChild`, `number`: new branches;
* `passLayers`: the layers that an event has to pass; `leaveLayers`: layers that are taken off;
* `Advance`, `Stacked.turn`, `Stacked.step`: what an event does to a branch;
* `StackedPath`: a path with such branches;
* `Branch.stacked`, `Path.stacked`: the stacks of a branch and of a path.
-/

namespace TracePattern

/-- A part of the stack of a branch. -/
inductive Layer
  | frame (f : Frame)
  /-- The children of a node whose event has not come yet. -/
  | children (es : List Expr)

/-- What a branch waits for. -/
inductive Head
  | event (condition : Condition)
  | router (key : KeyExtractor) (template : Expr) (seen : KeySet)

/-- A branch that was not numbered yet. The outermost layer comes first. -/
structure Spawn where
  captures : Captures
  stack : List Layer
  head : Head

/-- A branch with its number. -/
structure Stacked extends Spawn where
  id : Nat

/-! ### Words -/

namespace Layer

/-- The layer in words. -/
def describe : Layer → String
  | .frame f => f.describe
  | .children es => "then[" ++ Integer.decimal es.length ++ "]"

/-- The way through the layer, by the index of the child. Children that still wait are not on any
way. -/
def way : Layer → List Nat
  | .frame f => [f.child]
  | .children _ => []

/-- The sink of a recorded node. -/
def sink? : Layer → Option Nat
  | .frame (.record sink) => some sink
  | _ => none

end Layer

def Head.describe : Head → String
  | .event condition => "match(" ++ condition.source ++ ")"
  | .router key _ _ => "group_by(" ++ key.name ++ ")"

/-- The address of the node inside some layers. -/
def wayThrough (stack : List Layer) : List Nat := stack.flatMap Layer.way

namespace Stacked

/-- The address of the node where the branch waits. -/
def address (b : Stacked) : List Nat := wayThrough b.stack

/-- Where in the expression the branch stands. -/
def position (b : Stacked) : String :=
  " > ".intercalate (b.stack.map Layer.describe ++ [b.head.describe])

/-- The branch at its end. -/
def finish (b : Stacked) (outcome : Outcome) (error : Option EvalError) : Finish :=
  ⟨b.id, outcome, b.captures, b.position, error⟩

/-- The result of the branch for a sink of a path. -/
def report (b : Stacked) (path : Nat) (outcome : Outcome) (error : Option EvalError)
    (sink : Nat) : Report := ⟨sink, ⟨path, b.id, outcome, b.captures, error⟩⟩

end Stacked

/-! ### New branches -/

mutual
/-- The branches that wait for the first events of an expression. -/
def Expr.enter (captures : Captures) : Expr → List Layer → List Spawn
  | .event condition, stack => [⟨captures, stack, .event condition⟩]
  | .eventThen condition children, stack =>
    [⟨captures, stack ++ [.children children], .event condition⟩]
  | .sequence children, stack => Expr.enterFirst captures children children stack
  | .filter condition children, stack => Expr.enterEach captures condition 0 children stack
  | .groupBy key template, stack => [⟨captures, stack, .router key template .empty⟩]
  | .record sink inner, stack => inner.enter captures (stack ++ [.frame (.record sink)])

/-- The branches for the first of some children, in the sequence of `all` children. -/
def Expr.enterFirst (captures : Captures) (all : List Expr) : List Expr → List Layer → List Spawn
  | [], _ => []
  | e :: _, stack => e.enter captures (stack ++ [.frame (.sequence all 0)])

/-- The branches for all children of a filter, the first of which has the given index. -/
def Expr.enterEach (captures : Captures) (condition : Condition) (index : Nat) :
    List Expr → List Layer → List Spawn
  | [], _ => []
  | e :: rest, stack =>
    e.enter captures (stack ++ [.frame (.gate condition index)]) ++
      Expr.enterEach captures condition (index + 1) rest stack
end

/-- The branches for the child with the given index, in the sequence of its siblings. -/
def enterChild (captures : Captures) (children : List Expr) (index : Nat) (stack : List Layer) :
    List Spawn :=
  match children[index]? with
  | some child => child.enter captures (stack ++ [.frame (.sequence children index)])
  | none => []

/-- Numbers for new branches. The first one takes a number over, if there is one to take over. -/
def number : Option Nat → List Spawn → Tally → List Stacked × Tally
  | _, [], t => ([], t)
  | some id, s :: rest, t =>
    let others := number none rest t
    (⟨s, id⟩ :: others.1, others.2)
  | none, s :: rest, t =>
    let others := number none rest (t.allocate 1)
    (⟨s, t.nextId⟩ :: others.1, others.2)

/-! ### Layers and events -/

/-- One layer. Children that wait hold no event back. -/
def Layer.pass (event : Record) (branch : Nat) (node : List Nat) (captures : Captures)
    (keys : Keys) : Layer → Passage
  | .frame f => f.pass event branch node captures keys
  | .children _ => ⟨captures, keys, [], .ok true⟩

/-- Layers from the outermost to the innermost, up to the first that the event does not pass. -/
def passLayers (event : Record) (branch : Nat) (node : List Nat) (captures : Captures)
    (keys : Keys) : List Layer → Passage
  | [] => ⟨captures, keys, [], .ok true⟩
  | l :: rest =>
    let here := l.pass event branch node captures keys
    match here.verdict with
    | .ok true =>
      let further := passLayers event branch (node ++ l.way) here.captures here.keys rest
      { further with notes := here.notes ++ further.notes }
    | _ => here

/-- Where a branch is when layers were taken off. -/
inductive Exit
  /-- Nothing is left. -/
  | out
  /-- A sequence has a further child. -/
  | next (outer : List Layer) (children : List Expr) (index : Nat)
  /-- Children waited for the event. -/
  | descend (outer : List Layer) (children : List Expr)

/-- Takes layers off, the innermost of which is the first: the sinks that hear of it, and where the
branch is then. -/
def leaveLayers : List Layer → List Nat × Exit
  | [] => ([], .out)
  | .frame (.gate _ _) :: rest => leaveLayers rest
  | .frame (.route _ _) :: rest => leaveLayers rest
  | .frame (.record sink) :: rest =>
    let out := leaveLayers rest
    (sink :: out.1, out.2)
  | .frame (.sequence children index) :: rest =>
    if index + 1 < children.length then ([], .next rest.reverse children (index + 1))
    else leaveLayers rest
  | .children es :: rest => ([], .descend rest.reverse es)

/-! ### Turns -/

/-- Everything that an event did so far. -/
structure Advance where
  running : List Stacked
  finished : List Finish
  reports : List Report
  notes : List Note
  tally : Tally

namespace Advance

def run (adv : Advance) (b : Stacked) : Advance := { adv with running := adv.running ++ [b] }

/-- The branch ends, and these sinks hear of it. -/
def finish (adv : Advance) (path : Nat) (b : Stacked) (outcome : Outcome)
    (error : Option EvalError) (sinks : List Nat) : Advance :=
  { adv with
    finished := adv.finished ++ [b.finish outcome error]
    reports := adv.reports ++ sinks.map (b.report path outcome error) }

/-- Something was looked at, with the keys of the event after it. -/
def noted (adv : Advance) (notes : List Note) (keys : Keys) : Advance :=
  { adv with notes := adv.notes ++ notes, tally := { adv.tally with keys } }

/-- New branches follow from a branch. -/
def spawned (adv : Advance) (b : Stacked) (new : List Stacked × Tally) : Advance :=
  { adv with
    notes := adv.notes ++ (new.1.filter fun c => c.id ≠ b.id).map fun c => .spawned b.id c.id
    tally := new.2 }

end Advance

namespace Stacked

/-- The awaited event came: layers are taken off up to one that has more to do. The branches on
children that waited for the event are given with the number of layers that let it through. -/
def complete (path : Nat) (b : Stacked) (adv : Advance) : Advance × List (Stacked × Nat) :=
  let left := leaveLayers b.stack.reverse
  match left.2 with
  | .out => (adv.finish path b .successful none left.1, [])
  | .next outer children index =>
    let new := number (some b.id) (enterChild b.captures children index outer) adv.tally
    let adv := adv.spawned b new
    ({ adv with
      running := adv.running ++ new.1
      reports := adv.reports ++ left.1.map (b.report path .successful none) }, [])
  | .descend outer children =>
    let new := number (some b.id) (enterChild b.captures children 0 outer) adv.tally
    let adv := adv.spawned b new
    ({ adv with reports := adv.reports ++ left.1.map (b.report path .successful none) },
      new.1.map (·, outer.length + 1))

/-- The branch ends with an error, and all sinks around it hear of it. -/
def fail (path : Nat) (b : Stacked) (e : EvalError) (adv : Advance) : Advance :=
  adv.finish path b .failed (some e) (b.stack.reverse.filterMap Layer.sink?)

/-- An event that passed all layers meets what the branch waits for. -/
def meet (path : Nat) (event : Record) (b : Stacked) (adv : Advance) :
    Advance × List (Stacked × Nat) :=
  match b.head with
  | .event condition =>
    let done := condition.evaluate event b.captures
    let b := { b with captures := done.1 }
    let adv := adv.noted (done.2.marks.map .marked ++ [.tested b.id b.address done.2.guarded])
      adv.tally.keys
    match done.2.guarded with
    | .error e => (b.fail path e adv, [])
    | .ok false => (adv.run b, [])
    | .ok true => b.complete path adv
  | .router key template seen =>
    let (found, keys, notes) := adv.tally.keys.find key event
    let adv := adv.noted notes keys
    match found with
    | none => (adv.run b, [])
    | some value =>
      match seen.insert? value with
      | none => (adv.run b, [])
      | some known =>
        let router := { b with head := .router key template known }
        let new := number none (template.enter (b.captures.insert key.name value)
          (b.stack ++ [.frame (.route key value)])) adv.tally
        ((adv.run router).spawned b new, new.1.map (·, b.stack.length + 1))

/-- The event gets to the branch. The first `passed` layers have let it through before. With what is
done then come the branches that get the event next. -/
def turn (path : Nat) (event : Record) (passed : Nat) (b : Stacked) (adv : Advance) :
    Advance × List (Stacked × Nat) :=
  let way := passLayers event b.id (wayThrough (b.stack.take passed)) b.captures adv.tally.keys
    (b.stack.drop passed)
  let adv := adv.noted (.stepped b.id b.address :: way.notes) way.keys
  let b := { b with captures := way.captures }
  match way.verdict with
  | .error e => (b.fail path e adv, [])
  | .ok false => (adv.run b, [])
  | .ok true => b.meet path event adv

end Stacked

/-! ### The stacks of branches -/

namespace Cursor

/-- The children that wait for the same event as the cursor. -/
def pending : Cursor → List Layer
  | .event _ (some children) => [.children children]
  | _ => []

/-- What the cursor waits for. -/
def head : Cursor → Head
  | .event condition _ => .event condition
  | .router key template seen => .router key template seen

end Cursor

/-- A start inside a stack. -/
def Start.spawn (captures : Captures) (stack : List Layer) (s : Start) : Spawn :=
  ⟨captures, stack ++ s.frames.map .frame ++ s.cursor.pending, s.cursor.head⟩

/-- The branch by its stack. -/
def Branch.stacked (b : Branch) : Stacked :=
  ⟨⟨b.captures, b.frames.map .frame ++ b.cursor.pending, b.cursor.head⟩, b.id⟩

theorem Start.spawn_under (captures : Captures) (stack : List Layer) (f : Frame)
    (starts : List Start) : (starts.map (Start.under f)).map (Start.spawn captures stack) =
      starts.map (Start.spawn captures (stack ++ [.frame f])) := by
  simp [Start.spawn, Start.under, Function.comp_def]

mutual
/-- An expression is entered at its starts. -/
theorem Expr.enter_eq (captures : Captures) (e : Expr) (stack : List Layer) :
    e.enter captures stack = e.starts.map (Start.spawn captures stack) := by
  match e with
  | .event c => simp [enter, starts, Start.spawn, Cursor.pending, Cursor.head]
  | .eventThen c children => simp [enter, starts, Start.spawn, Cursor.pending, Cursor.head]
  | .sequence children => rw [enter, starts, enterFirst_eq]
  | .filter c children => rw [enter, starts, enterEach_eq]
  | .groupBy key template => simp [enter, starts, Start.spawn, Cursor.pending, Cursor.head]
  | .record sink inner => rw [enter, starts, Start.spawn_under, enter_eq]

theorem Expr.enterFirst_eq (captures : Captures) (all es : List Expr) (stack : List Layer) :
    enterFirst captures all es stack =
      (startsOfFirst all es).map (Start.spawn captures stack) := by
  match es with
  | [] => rfl
  | e :: rest => rw [enterFirst, startsOfFirst, Start.spawn_under, enter_eq]

theorem Expr.enterEach_eq (captures : Captures) (condition : Condition) (index : Nat)
    (es : List Expr) (stack : List Layer) : enterEach captures condition index es stack =
      (startsOfAll condition index es).map (Start.spawn captures stack) := by
  match es with
  | [] => rfl
  | e :: rest =>
    rw [enterEach, startsOfAll, List.map_append, Start.spawn_under, enter_eq, enterEach_eq]
end

theorem enterChild_eq (captures : Captures) (children : List Expr) (index : Nat)
    (stack : List Layer) : enterChild captures children index stack =
      (startsAt children index).map (Start.spawn captures stack) := by
  unfold enterChild startsAt
  cases children[index]? with
  | none => rfl
  | some child =>
    dsimp only
    rw [Start.spawn_under, Expr.enter_eq]

/-! ### Sizes -/

/-- The number of nodes that the layer still has before it. -/
def Layer.size : Layer → Nat
  | .frame _ => 0
  | .children es => Expr.sizes es

def Head.size : Head → Nat
  | .event _ => 1
  | .router _ template _ => 1 + template.size

/-- The number of nodes that some layers still have before them. -/
def stackSize : List Layer → Nat
  | [] => 0
  | l :: rest => l.size + stackSize rest

def Spawn.size (s : Spawn) : Nat := stackSize s.stack + s.head.size

theorem stackSize_append (outer inner : List Layer) :
    stackSize (outer ++ inner) = stackSize outer + stackSize inner := by
  induction outer with
  | nil => exact (Nat.zero_add _).symm
  | cons l rest ih => rw [List.cons_append, stackSize, stackSize, ih, Nat.add_assoc]

theorem stackSize_reverse (stack : List Layer) : stackSize stack.reverse = stackSize stack := by
  induction stack with
  | nil => rfl
  | cons l rest ih =>
    rw [List.reverse_cons, stackSize_append, ih, stackSize, stackSize, stackSize]
    omega

theorem stackSize_frames (frames : List Frame) : stackSize (frames.map .frame) = 0 := by
  induction frames with
  | nil => rfl
  | cons f rest ih => exact (Nat.zero_add _).trans ih

theorem Start.size_spawn (captures : Captures) (stack : List Layer) (s : Start) :
    (s.spawn captures stack).size = stackSize stack + s.cursor.size := by
  have cursor : stackSize s.cursor.pending + s.cursor.head.size = s.cursor.size := by
    cases s.cursor with
    | event c children =>
      cases children with
      | none => rfl
      | some children => simp [Cursor.pending, Cursor.head, stackSize, Layer.size, Head.size,
          Cursor.size, Nat.add_comm]
    | router key template seen =>
      simp [Cursor.pending, Cursor.head, stackSize, Head.size, Cursor.size]
  unfold spawn Spawn.size
  dsimp only
  rw [stackSize_append, stackSize_append, stackSize_frames]
  omega

theorem size_of_mem_enter {captures : Captures} {e : Expr} {stack : List Layer} {s : Spawn}
    (mem : s ∈ e.enter captures stack) : s.size ≤ stackSize stack + e.size := by
  rw [Expr.enter_eq] at mem
  obtain ⟨t, ht, rfl⟩ := List.mem_map.1 mem
  have := size_of_mem_starts ht
  rw [Start.size_spawn]
  omega

theorem size_of_mem_enterChild {captures : Captures} {children : List Expr} {index : Nat}
    {stack : List Layer} {s : Spawn} (mem : s ∈ enterChild captures children index stack) :
    s.size ≤ stackSize stack + Expr.sizes children := by
  rw [enterChild_eq] at mem
  obtain ⟨t, ht, rfl⟩ := List.mem_map.1 mem
  have := size_of_mem_startsAt ht
  rw [Start.size_spawn]
  omega

theorem mem_of_mem_number {reuse : Option Nat} {spawns : List Spawn} {t : Tally} {b : Stacked}
    (mem : b ∈ (number reuse spawns t).1) : b.toSpawn ∈ spawns := by
  induction spawns generalizing reuse t with
  | nil => cases reuse <;> cases mem
  | cons s rest ih =>
    cases reuse <;>
    · rcases List.mem_cons.1 mem with rfl | mem
      · exact List.mem_cons_self
      · exact List.mem_cons_of_mem _ (ih mem)

/-- Children that waited leave the stack together with the layers inside them. -/
theorem size_of_descend {layers outer : List Layer} {children : List Expr}
    (left : (leaveLayers layers).2 = .descend outer children) :
    stackSize outer + Expr.sizes children ≤ stackSize layers := by
  induction layers with
  | nil => cases left
  | cons l rest ih =>
    have here : stackSize (l :: rest) = l.size + stackSize rest := rfl
    cases l with
    | children es =>
      cases left
      rw [stackSize_reverse, here, Layer.size]
      omega
    | frame f =>
      have further : (leaveLayers rest).2 = .descend outer children := by
        cases f with
        | sequence children index =>
          unfold leaveLayers at left
          split at left
          · cases left
          · exact left
        | _ => exact left
      have := ih further
      omega

namespace Stacked

variable {path : Nat} {event : Record} {b : Stacked} {adv : Advance} {f : Stacked × Nat}

theorem size_of_mem_complete (mem : f ∈ (b.complete path adv).2) :
    f.1.size ≤ stackSize b.stack := by
  unfold complete at mem
  dsimp only at mem
  split at mem
  · cases mem
  · cases mem
  · rename_i outer children left
    obtain ⟨c, hc, rfl⟩ := List.mem_map.1 mem
    have entered := size_of_mem_enterChild (mem_of_mem_number hc)
    have inside := size_of_descend left
    rw [stackSize_reverse] at inside
    exact Nat.le_trans entered inside

theorem size_of_mem_meet (mem : f ∈ (b.meet path event adv).2) : f.1.size < b.size := by
  unfold meet at mem
  unfold Spawn.size
  split at mem
  · rename_i condition head
    dsimp only at mem
    split at mem
    · cases mem
    · cases mem
    · have := size_of_mem_complete mem
      rw [head, Head.size]
      exact Nat.lt_succ_of_le this
  · rename_i key template seen head
    dsimp only at mem
    split at mem
    · cases mem
    · rename_i value found
      split at mem
      · cases mem
      · rename_i known new
        obtain ⟨c, hc, rfl⟩ := List.mem_map.1 mem
        have entered := size_of_mem_enter (mem_of_mem_number hc)
        have route : stackSize [.frame (.route key value)] = 0 := rfl
        rw [stackSize_append, route] at entered
        unfold Spawn.size at entered
        rw [head, Head.size]
        dsimp only
        omega

/-- The branches that get the event next have less before them. -/
theorem size_of_mem_turn {passed : Nat} (mem : f ∈ (b.turn path event passed adv).2) :
    f.1.size < b.size := by
  unfold turn at mem
  dsimp only at mem
  split at mem
  · cases mem
  · cases mem
  · have := size_of_mem_meet mem
    exact this

end Stacked

/-- An event gets to a branch of a path, and then to the branches that get it next. -/
def Stacked.step (path : Nat) (event : Record) (passed : Nat) (b : Stacked) (adv : Advance) :
    Advance :=
  let own := b.turn path event passed adv
  (own.2.attach.map fun ⟨f, _⟩ => step path event f.2 f.1).foldl (fun adv turn => turn adv) own.1
termination_by b.size
decreasing_by exact size_of_mem_turn ‹_›

/-- The equation of `Stacked.step`. -/
theorem Stacked.step_eq (path : Nat) (event : Record) (passed : Nat) (b : Stacked)
    (adv : Advance) : b.step path event passed adv =
      let own := b.turn path event passed adv
      (own.2.map fun f => f.1.step path event f.2).foldl (fun adv turn => turn adv) own.1 := by
  rw [step]
  exact congrArg (List.foldl (fun adv turn => turn adv) _)
    (List.attach_map_val (f := fun f : Stacked × Nat => f.1.step path event f.2))

/-! ### Paths -/

/-- A path whose branches have stacks. -/
structure StackedPath where
  id : Nat
  running : List Stacked
  finished : List Finish
  nextId : Nat
  stats : Stats
  closed : Bool

namespace StackedPath

/-- The path of an expression at its start. -/
def start (id : Nat) (tree : Expr) (initial : Captures) : StackedPath :=
  let new := number none (tree.enter initial []) ⟨0, 0, []⟩
  { id
    running := new.1
    finished := []
    nextId := new.2.nextId
    stats := ⟨0, new.2.spawned, 0, 0⟩
    closed := false }

/-- The event gets to all running branches, in the order of their numbers. -/
def turn (p : StackedPath) (event : Record) : Advance :=
  (p.running.map fun b => b.step p.id event 0).foldl (fun adv turn => turn adv)
    ⟨[], [], [], [], ⟨p.nextId, 0, []⟩⟩

/-- The path after an event. A closed path takes no events. -/
def onEvent (p : StackedPath) (event : Record) : StackedPath × Output :=
  if p.closed then (p, .none)
  else
    let adv := p.turn event
    ({ p with
        running := adv.running.mergeSort fun a b => a.id ≤ b.id
        finished := p.finished ++ adv.finished
        nextId := adv.tally.nextId
        stats :=
          { eventsApplied := p.stats.eventsApplied + 1
            branchesSpawned := p.stats.branchesSpawned + adv.tally.spawned
            succeeded := p.stats.succeeded + Path.count .successful adv.finished
            failed := p.stats.failed + Path.count .failed adv.finished } },
      ⟨adv.reports, adv.notes⟩)

/-- The path takes no more events. -/
def close (p : StackedPath) : StackedPath := { p with closed := true }

end StackedPath

/-- The path by the stacks of its branches. -/
def Path.stacked (p : Path) : StackedPath :=
  ⟨p.id, p.running.map Branch.stacked, p.finished, p.nextId, p.stats, p.closed⟩

end TracePattern
