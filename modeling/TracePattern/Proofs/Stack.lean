import Mathlib.Data.List.Induction
import TracePattern.Proofs.Chain
import TracePattern.Stack

/-!
# Paths with stacks

A path does the same whether its branches have stacks, or frames and a cursor that keeps the
children of its node.  On the stack of a running branch there are the nodes above the place where it
waits, and nothing else but the children that wait there.

* `Branch.passLayers_stacked`, `leaveLayers_frames`: events and layers;
* `number_enter`, `number_enterChild`: new branches;
* `Advance.of`, `Look.made`, `Due.turn_stacked`: turns of branches with stacks;
* `Path.stacked_after`: paths with stacks are the paths by the stacks of their branches;
* `Expr.Awaits`, `Expr.pending`: what a branch waits for at a node, and the children on its stack;
* `StackedPath.stacks_after`: the stacks of all branches of a path.
-/

namespace TracePattern

/-! ### Layers -/

/-- Only children wait on these layers. -/
def OnlyChildren (layers : List Layer) : Prop := ∀ l ∈ layers, ∃ es, l = .children es

theorem Cursor.onlyChildren_pending (c : Cursor) : OnlyChildren c.pending := by
  cases c with
  | event c children =>
    cases children with
    | none => exact List.forall_mem_nil _
    | some es => exact List.forall_mem_singleton.2 ⟨es, rfl⟩
  | router key template seen => exact List.forall_mem_nil _

section Waiting

variable {waiting : List Layer} (children : OnlyChildren waiting)
include children

/-- Children that wait are on no way. -/
theorem wayThrough_frames (frames : List Frame) :
    wayThrough (frames.map .frame ++ waiting) = address frames := by
  have none : wayThrough waiting = [] := List.flatMap_eq_nil_iff.2 fun l mem => by
    obtain ⟨es, rfl⟩ := children l mem
    rfl
  have all : wayThrough (frames.map .frame) = address frames := by
    induction frames with
    | nil => rfl
    | cons f rest ih => exact congrArg (f.child :: ·) ih
  rw [wayThrough, List.flatMap_append, ← wayThrough, ← wayThrough, all, none, List.append_nil]

/-- Children that wait hold no event back. -/
theorem passLayers_frames (event : Record) (branch : ℕ) (node : List ℕ) (captures : Captures)
    (keys : Keys) (frames : List Frame) :
    passLayers event branch node captures keys (frames.map .frame ++ waiting) =
      passAll event branch node captures keys frames := by
  induction frames generalizing node captures keys with
  | nil =>
    induction waiting generalizing node with
    | nil => rfl
    | cons l rest ih =>
      obtain ⟨⟨es, rfl⟩, others⟩ := List.forall_mem_cons.1 children
      exact ih others (node ++ [])
  | cons f rest ih =>
    rw [List.map_cons, List.cons_append, passLayers, passAll]
    dsimp only [Layer.pass, Layer.way]
    cases (f.pass event branch node captures keys).verdict with
    | error e => rfl
    | ok passed =>
      cases passed with
      | false => rfl
      | true =>
        dsimp only
        rw [ih]

end Waiting

namespace Branch

/-- The event passes the layers of a branch as it passes its frames. -/
theorem passLayers_stacked (b : Branch) (event : Record) (passed : ℕ) (keys : Keys) :
    passLayers event b.id (wayThrough (b.stacked.stack.take passed)) b.captures keys
        (b.stacked.stack.drop passed) =
      passAll event b.id (address (b.frames.take passed)) b.captures keys
        (b.frames.drop passed) := by
  have inside := b.cursor.onlyChildren_pending
  unfold stacked
  dsimp only
  rw [List.take_append, List.drop_append, ← List.map_take, ← List.map_drop,
    wayThrough_frames fun l mem => inside l (List.mem_of_mem_take mem),
    passLayers_frames fun l mem => inside l (List.mem_of_mem_drop mem)]

theorem address_stacked (b : Branch) : b.stacked.address = address b.frames :=
  wayThrough_frames b.cursor.onlyChildren_pending b.frames

theorem position_stacked (b : Branch) : b.stacked.position = b.position := by
  have words : b.cursor.pending.map Layer.describe ++ [b.cursor.head.describe] =
      b.cursor.describe := by
    cases b.cursor with
    | event c children => cases children <;> rfl
    | router key template seen => rfl
  unfold Stacked.position position stacked
  dsimp only
  rw [← words, List.map_append, List.map_map, List.append_assoc]
  rfl

theorem report_stacked (b : Branch) (path : ℕ) (outcome : Outcome) (error : Option EvalError) :
    b.stacked.report path outcome error = fun sink => ⟨sink, b.recorded path outcome error⟩ := rfl

end Branch

/-- The innermost frame is left first. -/
theorem unwind_concat (frames : List Frame) (f : Frame) :
    unwind (frames ++ [f]) = match f with
      | .sequence children index =>
        if index + 1 < children.length then ⟨[], some (frames, children, index + 1)⟩
        else unwind frames
      | .record sink => ⟨sink :: (unwind frames).sinks, (unwind frames).next⟩
      | _ => unwind frames := by
  induction frames with
  | nil => cases f <;> rfl
  | cons g rest ih =>
    rw [List.cons_append, unwind.eq_def]
    dsimp only
    rw [ih]
    cases f with
    | gate c child => exact (unwind.eq_def (g :: rest)).symm
    | route key value => exact (unwind.eq_def (g :: rest)).symm
    | sequence children index =>
      by_cases more : index + 1 < children.length
      · simp only [if_pos more]
      · simp only [if_neg more]
        exact (unwind.eq_def (g :: rest)).symm
    | record sink =>
      dsimp only
      rw [unwind.eq_def (g :: rest)]
      dsimp only
      cases (unwind rest).next with
      | some next => rfl
      | none =>
        cases g with
        | sequence children index =>
          dsimp only
          split <;> rfl
        | _ => rfl

/-- Frames are taken off the stack as nodes are left. -/
theorem leaveLayers_frames (frames : List Frame) :
    leaveLayers (frames.map .frame).reverse = ((unwind frames).sinks,
      match (unwind frames).next with
      | some (outer, children, index) => .next (outer.map .frame) children index
      | none => .out) := by
  induction frames using List.reverseRecOn with
  | nil => rfl
  | append_singleton frames f ih =>
    rw [List.map_append, List.map_singleton, List.reverse_append, List.reverse_singleton,
      List.singleton_append, unwind_concat]
    cases f with
    | gate c child => exact ih
    | route key value => exact ih
    | record sink => rw [leaveLayers, ih]
    | sequence children index =>
      rw [leaveLayers]
      dsimp only
      split
      · rw [List.reverse_reverse]
      · exact ih

/-! ### New branches -/

theorem number_launch (captures : Captures) (outer : List Frame) (starts : List Start)
    (t : Tally) : number none (starts.map (Start.spawn captures (outer.map .frame))) t =
      ((Branch.launch captures outer starts t.nextId).map Branch.stacked,
        t.allocate starts.length) := by
  induction starts generalizing t with
  | nil => rfl
  | cons s rest ih =>
    rw [List.map_cons, number, ih (t.allocate 1)]
    simp [Branch.launch, Branch.stacked, Start.spawn, Tally.allocate, List.zipIdx_cons]
    omega

/-- The branches on an expression have their numbers in the order in which it is entered. -/
theorem number_enter (captures : Captures) (e : Expr) (outer : List Frame) (t : Tally) :
    let members := Branch.launch captures outer e.starts t.nextId
    number none (e.enter captures (outer.map .frame)) t =
      (members.map Branch.stacked, t.allocate members.length) := by
  intro members
  rw [Expr.enter_eq, number_launch, show members.length = _ from Branch.length_launch ..]

/-- The first of the branches on a child carries on for `b`. -/
theorem number_enterChild (b : Branch) (children : List Expr) (index : ℕ) (outer : List Frame)
    (t : Tally) :
    let followers := b.carryOn outer (startsAt children index) t.nextId
    number (some b.stacked.id) (enterChild b.stacked.captures children index (outer.map .frame)) t =
      (followers.map Branch.stacked, t.allocate (followers.length - 1)) := by
  intro followers
  rw [enterChild_eq, show followers.length = _ from Branch.length_carryOn ..]
  unfold followers
  cases startsAt children index with
  | nil => rfl
  | cons s rest =>
    rw [List.map_cons, number, show b.stacked.captures = b.captures from rfl, number_launch]
    simp [Branch.carryOn, Branch.stacked, Start.spawn]

/-! ### Turns -/

namespace Advance

/-- What was done, with the stacks of the branches that run on. -/
def of (done : Effects × Tally) : Advance :=
  ⟨done.1.running.map Branch.stacked, done.1.finished, done.1.reports, done.1.notes, done.2⟩

variable {done : Effects × Tally}

theorem run_of (b : Branch) : (of done).run b.stacked = of (done.1 ++ .run b, done.2) := by
  simp [run, of, Effects.run]

theorem noted_of (notes : List Note) (keys : Keys) :
    (of done).noted notes keys = of (done.1 ++ .note notes, { done.2 with keys }) := by
  simp [noted, of, Effects.note]

theorem spawned_of (b : Branch) (new : List Branch) (tally : Tally) :
    (of done).spawned b.stacked (new.map Branch.stacked, tally) =
      of (done.1 ++ .note (b.noteSpawned new), tally) := by
  have notes : ((new.map Branch.stacked).filter fun c => c.id ≠ b.stacked.id).map
      (fun c => Note.spawned b.stacked.id c.id) = b.noteSpawned new := by
    rw [List.filter_map, List.map_map]
    rfl
  unfold spawned of
  dsimp only
  rw [notes]
  simp [Effects.note]

theorem finish_of (b : Branch) (path : ℕ) (outcome : Outcome) (error : Option EvalError)
    (sinks : List ℕ) : (of done).finish path b.stacked outcome error sinks =
      of (done.1 ++ ⟨[], [b.finish outcome error],
        sinks.map fun sink => ⟨sink, b.recorded path outcome error⟩, []⟩, done.2) := by
  have place : b.stacked.finish outcome error = b.finish outcome error := by
    rw [Stacked.finish, b.position_stacked]
    rfl
  unfold finish of
  dsimp only
  rw [place, b.report_stacked]
  simp

end Advance

namespace Branch

variable {b : Branch} {path : ℕ} {event : Record} {done : Effects × Tally}

/-- The sinks on the stack are those around the branch. -/
theorem fail_stacked (e : EvalError) : b.stacked.fail path e (Advance.of done) =
    Advance.of (proceed done fun t => (b.fail path e, t)) := by
  have children : b.cursor.pending.reverse.filterMap Layer.sink? = [] :=
    List.filterMap_eq_nil_iff.2 fun l mem => by
      obtain ⟨es, rfl⟩ := b.cursor.onlyChildren_pending l (List.mem_reverse.1 mem)
      rfl
  have frames : (b.frames.map .frame).reverse.filterMap Layer.sink? = sinksAround b.frames := by
    rw [← List.map_reverse, List.filterMap_map]
    exact List.filterMap_congr fun f _ => by cases f <;> rfl
  have sinks : b.stacked.stack.reverse.filterMap Layer.sink? = sinksAround b.frames := by
    rw [stacked, List.reverse_append, List.filterMap_append, children, frames, List.nil_append]
  rw [Stacked.fail, sinks, Advance.finish_of]
  rfl

/-- A branch whose node has no children leaves its frames. -/
theorem complete_stacked {c : Condition} (cursor : b.cursor = .event c none) :
    b.stacked.complete path (Advance.of done) =
      (Advance.of (proceed done (b.complete path)), []) := by
  have stack : b.stacked.stack = b.frames.map .frame := by
    rw [stacked, cursor]
    exact List.append_nil _
  rw [Stacked.complete, stack, leaveLayers_frames, proceed, complete]
  cases (unwind b.frames).next with
  | none =>
    dsimp only
    rw [Advance.finish_of]
  | some next =>
    obtain ⟨outer, children, index⟩ := next
    dsimp only
    rw [number_enterChild, Advance.spawned_of, report_stacked]
    simp [Advance.of, Effects.note]

/-- The children that waited are taken off the stack, and the first of them is entered in a
sequence. -/
theorem descend_stacked {c : Condition} {children : List Expr}
    (cursor : b.cursor = .event c (some children)) :
    let followers := b.carryOn b.frames (startsAt children 0) done.2.nextId
    b.stacked.complete path (Advance.of done) =
      (Advance.of (done.1 ++ .note (b.noteSpawned followers),
        done.2.allocate (followers.length - 1)),
        followers.map fun f => (f.stacked, b.frames.length + 1)) := by
  intro followers
  have stack : b.stacked.stack.reverse = .children children :: (b.frames.map .frame).reverse := by
    rw [stacked, cursor]
    exact List.reverse_concat
  rw [Stacked.complete, stack, leaveLayers, List.reverse_reverse]
  dsimp only
  rw [number_enterChild, Advance.spawned_of]
  simp [Advance.of, followers, Function.comp_def]

end Branch

/-- What is done about a branch inside `frames` that saw an event so, with stacks. -/
def Look.made (seen : Look) (path : ℕ) (frames : List Frame) (done : Effects × Tally) :
    Advance × List (Stacked × ℕ) :=
  let followers := seen.followers frames done.2.nextId
  (Advance.of (proceed (done.1 ++ .note seen.notes, { done.2 with keys := seen.keys })
    (seen.act path followers)), followers.map fun f => (f.stacked, frames.length + 1))

/-- Notes of what came before the look come first. -/
theorem Look.made_noted (seen : Look) (path : ℕ) (frames : List Frame) (done : Effects × Tally)
    (notes : List Note) (keys : Keys) :
    seen.made path frames (done.1 ++ .note notes, { done.2 with keys }) =
      { seen with notes := notes ++ seen.notes }.made path frames done := by
  have both : done.1 ++ .note notes ++ .note seen.notes = done.1 ++ .note (notes ++ seen.notes) :=
    Effects.append_assoc ..
  unfold made
  dsimp only
  rw [both]
  rfl

/-- What is done about a branch in its turn, before those behind it. -/
theorem Due.made_eq (sees : Due → Keys → Look) (path : ℕ) (d : Due) (done : Effects × Tally) :
    (Advance.of (proceed done (d.alone sees path)),
        (d.behind sees done.2).map fun f => (f.branch.stacked, f.passed)) =
      let seen := sees d done.2.keys
      { seen with notes := .stepped d.branch.id (address d.branch.frames) :: seen.notes }.made path
        d.branch.frames done := by
  unfold Look.made proceed alone behind
  dsimp only
  rw [Effects.append_assoc, List.map_map]
  rfl

namespace Branch

variable {b : Branch} {path : ℕ} {event : Record} {done : Effects × Tally}

/-- A branch with a stack tests the condition that it waits for. -/
theorem meet_stacked_of_event {c : Condition} {children : Option (List Expr)}
    (cursor : b.cursor = .event c children) :
    let tested := c.evaluate event b.captures
    let after : Branch := { b with captures := tested.1 }
    let before := Advance.of (done.1 ++ .note (tested.2.marks.map .marked ++
      [.tested b.id (address b.frames) tested.2.guarded]), done.2)
    b.stacked.meet path event (Advance.of done) = match tested.2.guarded with
      | .error e => (after.stacked.fail path e before, [])
      | .ok false => (before.run after.stacked, [])
      | .ok true => after.stacked.complete path before := by
  intro tested after before
  have noted : (Advance.of done).noted (tested.2.marks.map .marked ++
      [.tested b.id after.stacked.address tested.2.guarded]) done.2.keys = before := by
    rw [after.address_stacked]
    exact Advance.noted_of ..
  obtain ⟨id, captures, frames, cursor'⟩ := b
  cases cursor
  rw [← noted]
  rfl

/-- A branch with a stack that forms groups looks for the key of the event. -/
theorem meet_stacked_of_router {key : KeyExtractor} {template : Expr} {known : KeySet}
    (cursor : b.cursor = .router key template known) :
    let found := done.2.keys.find key event
    let before := Advance.of (done.1 ++ .note found.2.2, { done.2 with keys := found.2.1 })
    b.stacked.meet path event (Advance.of done) = match found.1 with
      | none => (before.run b.stacked, [])
      | some value => match known.insert? value with
        | none => (before.run b.stacked, [])
        | some seen =>
          let router : Branch := { b with cursor := .router key template seen }
          let new := number none (template.enter (b.captures.insert key.name value)
            (b.stacked.stack ++ [.frame (.route key value)])) before.tally
          ((before.run router.stacked).spawned b.stacked new,
            new.1.map (·, b.stacked.stack.length + 1)) := by
  intro found before
  have noted : (Advance.of done).noted found.2.2 found.2.1 = before := Advance.noted_of ..
  obtain ⟨id, captures, frames, cursor'⟩ := b
  cases cursor
  rw [← noted]
  rfl

/-- An event that passed all layers meets what the branch waits for. -/
theorem meet_stacked (b : Branch) (done : Effects × Tally) :
    b.stacked.meet path event (Advance.of done) =
      (b.meet event done.2.keys).made path b.frames done := by
  unfold Look.made Look.followers Look.act meet
  obtain ⟨id, captures, frames, cursor⟩ := b
  cases cursor with
  | event c children =>
    rw [meet_stacked_of_event rfl]
    dsimp only
    cases (c.evaluate event captures).2.guarded with
    | error e =>
      dsimp only
      rw [fail_stacked]
      rfl
    | ok held =>
      cases held with
      | false =>
        dsimp only
        rw [Advance.run_of]
        rfl
      | true =>
        cases children with
        | none =>
          dsimp only
          rw [complete_stacked rfl]
          rfl
        | some children =>
          dsimp only
          rw [descend_stacked rfl]
          rfl
  | router key template known =>
    rw [meet_stacked_of_router rfl]
    dsimp only
    cases (done.2.keys.find key event).1 with
    | none =>
      dsimp only
      rw [Advance.run_of]
      rfl
    | some value =>
      dsimp only
      cases known.insert? value with
      | none =>
        dsimp only
        rw [Advance.run_of]
        rfl
      | some seen =>
        have stack : (Branch.mk id captures frames (.router key template known)).stacked.stack =
            frames.map .frame := List.append_nil _
        have outer : frames.map Layer.frame ++ [.frame (.route key value)] =
            (frames ++ [.route key value] : List Frame).map .frame := by simp
        dsimp only
        rw [stack, outer, number_enter, Advance.run_of, Advance.spawned_of, List.length_map,
          List.map_map]
        exact Prod.ext (congrArg Advance.of (Prod.ext (Effects.append_assoc ..) rfl)) rfl

/-- The event gets to a branch with a stack. -/
theorem turn_stacked_eq (b : Branch) (passed : ℕ) (done : Effects × Tally) :
    let way := passAll event b.id (address (b.frames.take passed)) b.captures done.2.keys
      (b.frames.drop passed)
    let after : Branch := { b with captures := way.captures }
    let before := Advance.of (done.1 ++ .note (.stepped b.id (address b.frames) :: way.notes),
      { done.2 with keys := way.keys })
    b.stacked.turn path event passed (Advance.of done) = match way.verdict with
      | .error e => (after.stacked.fail path e before, [])
      | .ok false => (before.run after.stacked, [])
      | .ok true => after.stacked.meet path event before := by
  intro way after before
  have noted : (Advance.of done).noted (.stepped b.id (address b.frames) :: way.notes) way.keys =
      before := Advance.noted_of ..
  have passes : passLayers event b.stacked.id (wayThrough (b.stacked.stack.take passed))
      b.stacked.captures (Advance.of done).tally.keys (b.stacked.stack.drop passed) = way :=
    b.passLayers_stacked event passed done.2.keys
  unfold Stacked.turn
  rw [← noted, b.address_stacked, passes]
  rfl

end Branch

/-- **A branch with a stack has the same turn**, and the branches behind it are the same. -/
theorem Due.turn_stacked (path : ℕ) (event : Record) (d : Due) (done : Effects × Tally) :
    d.branch.stacked.turn path event d.passed (Advance.of done) =
      (Advance.of (proceed done (d.alone (Due.look event) path)),
        (d.behind (Due.look event) done.2).map fun f => (f.branch.stacked, f.passed)) := by
  rw [Branch.turn_stacked_eq, made_eq, look]
  unfold Branch.look
  dsimp only
  cases (passAll event d.branch.id (address (d.branch.frames.take d.passed)) d.branch.captures
      done.2.keys (d.branch.frames.drop d.passed)).verdict with
  | error e =>
    dsimp only
    rw [Branch.fail_stacked]
    rfl
  | ok through =>
    cases through with
    | false =>
      dsimp only
      rw [Advance.run_of]
      rfl
    | true =>
      dsimp only
      rw [Branch.meet_stacked, Look.made_noted]
      rfl

/-- The turns of branches with stacks, one after another. -/
theorem foldl_step_stacked (path : ℕ) (event : Record) (todo : List Due) (done : Effects × Tally) :
    (todo.map fun d => d.branch.stacked.step path event d.passed).foldl (fun adv turn => turn adv)
        (Advance.of done) =
      Advance.of (proceed done (runAll (todo.map fun d => step path event d.passed d.branch))) := by
  -- The branches with stacks that are to come lead to the same end all the time.
  let rest (todo : List Due) (done : Effects × Tally) : Advance :=
    (todo.map fun d => d.branch.stacked.step path event d.passed).foldl (fun adv turn => turn adv)
      (Advance.of done)
  refine ((step_turns path event).induction (P := fun later x => rest later x = rest todo done)
    (fun d later x same => ?_) rfl).symm
  rw [← same]
  unfold rest
  rw [List.map_append, List.foldl_append, List.map_cons, List.foldl_cons, Stacked.step_eq,
    d.turn_stacked]
  dsimp only
  rw [List.map_map]
  rfl

/-! ### Paths with stacks -/

namespace StackedPath

/-- The path after something happened. -/
def apply (p : StackedPath) : Path.Act → StackedPath
  | .event e => (p.onEvent e).1
  | .close => p.close

/-- The path after several happenings. -/
def after (p : StackedPath) (acts : List Path.Act) : StackedPath := acts.foldl apply p

end StackedPath

namespace Path

theorem stacked_start (id : ℕ) (name : Option String) (tree : Expr) (initial : Captures) :
    (start id name tree initial).stacked = .start id tree initial := by
  unfold start stacked StackedPath.start
  dsimp only
  rw [show ([] : List Layer) = ([] : List Frame).map .frame from rfl, number_enter]
  simp [Tally.allocate]

theorem turn_stacked (p : Path) (event : Record) :
    p.stacked.turn event = Advance.of (p.turn event) := by
  have steps := foldl_step_stacked p.id event (p.running.map (⟨·, 0⟩)) (.none, ⟨p.nextId, 0, []⟩)
  rw [map_due, proceed_none, List.map_map] at steps
  rw [StackedPath.turn, stacked, List.map_map]
  exact steps

/-- **An event does the same to a path with stacks**, and causes the same outside. -/
theorem stacked_onEvent (p : Path) (event : Record) :
    p.stacked.onEvent event = ((p.onEvent event).1.stacked, (p.onEvent event).2) := by
  have sorted (bs : List Branch) :
      (bs.map Branch.stacked).mergeSort (fun a b => a.id ≤ b.id) =
        (bs.mergeSort fun a b => a.id ≤ b.id).map Branch.stacked :=
    (List.map_mergeSort (f := Branch.stacked) fun _ _ _ _ => rfl).symm
  unfold StackedPath.onEvent onEvent
  rw [turn_stacked, show p.stacked.closed = p.closed from rfl]
  split
  · rfl
  · dsimp only [Advance.of, stacked]
    rw [sorted]

theorem stacked_apply (p : Path) (act : Act) : (p.apply act).stacked = p.stacked.apply act := by
  cases act with
  | close => rfl
  | event e => exact (congrArg Prod.fst (p.stacked_onEvent e)).symm

/-- **A path with stacks is the path by the stacks of its branches**, after every life. -/
theorem stacked_after (p : Path) (acts : List Act) :
    (p.after acts).stacked = p.stacked.after acts := by
  induction acts generalizing p with
  | nil => rfl
  | cons act rest ih =>
    rw [after_cons, ih, stacked_apply]
    rfl

end Path

/-! ### Stacks of branches -/

namespace Expr

/-- What a branch waits for at the node. -/
inductive Awaits : Expr → Head → Prop
  | event {c : Condition} : Awaits (.event c) (.event c)
  | eventThen {c : Condition} {children : List Expr} : Awaits (.eventThen c children) (.event c)
  | groupBy {key : KeyExtractor} {template : Expr} {seen : KeySet} :
    Awaits (.groupBy key template) (.router key template seen)

/-- The children that wait at the node for its event. -/
def pending : Expr → List Layer
  | .eventThen _ children => [.children children]
  | _ => []

variable {n : Expr} {c : Cursor}

theorem Waits.awaits (waits : n.Waits c) : n.Awaits c.head := by
  cases waits with
  | event => exact .event
  | eventThen => exact .eventThen
  | groupBy => exact .groupBy

theorem Waits.pending_eq (waits : n.Waits c) : c.pending = n.pending := by
  cases waits <;> rfl

end Expr

namespace StackedPath

/-- **Stacks are chains of ancestors.** A path with stacks is the path of the expression by the
stacks of its branches, after every life.  Each running branch then waits at a node of the
expression.  Its stack has a frame for each node above, from the outermost to the innermost: the
condition of a filter, the children of a sequence or of a node whose event came, with the number of
the one on the way, the extractor of a group with a key, and the sink of a recorded node.  The
children of the node where it waits, if it has any, are the last layer.

At the start of a path its branches are numbered from left to right, have the first captures, and
wait at the nodes that open the expression. -/
theorem stacks_after {tree : Expr} (valid : tree.defect? = none) (coherent : tree.Coherent) (id : ℕ)
    (initial : Captures) :
    let first := start id tree initial
    (∀ name acts, ((Path.start id name tree initial).after acts).stacked = first.after acts) ∧
    (∀ acts, ∀ b ∈ (first.after acts).running, ∃ n frames, tree.node? b.address = some n ∧
      n.Awaits b.head ∧ List.Forall₂ Ancestor.Makes (tree.ancestors b.address) frames ∧
      b.stack = frames.map .frame ++ n.pending) ∧
    first.running.map Stacked.id = List.range first.running.length ∧
    (∀ b ∈ first.running, b.captures = initial) ∧
    (first.running.map Stacked.address).Pairwise (· < ·) ∧
    ∀ way, way ∈ first.running.map Stacked.address ↔ tree.Opens way := by
  intro first
  have same (name : Option String) (acts : List Path.Act) :
      ((Path.start id name tree initial).after acts).stacked = first.after acts := by
    rw [Path.stacked_after, Path.stacked_start]
  let framed := Path.start id none tree initial
  have running : first.running = framed.running.map Branch.stacked :=
    congrArg running (same none []).symm
  have addresses : first.running.map Stacked.address = tree.openings := by
    rw [running, List.map_map, ← Path.addresses_start id none tree initial]
    exact List.map_congr_left fun b _ => b.address_stacked
  refine ⟨same, ?chains, ?ids, ?kept, addresses ▸ tree.pairwise_openings,
    fun way => addresses ▸ tree.mem_openings way⟩
  case chains =>
    intro acts b mem
    rw [← same none] at mem
    obtain ⟨a, ha, rfl⟩ := List.mem_map.1 mem
    have founded := Path.founded_after valid coherent id none initial acts
    obtain ⟨n, leads, waits⟩ := founded.stands a ha
    rw [a.address_stacked]
    have chain := leads.makes (founded.keyed a ha) []
    refine ⟨n, a.frames, leads.node?, waits.awaits, chain, ?_⟩
    rw [← waits.pending_eq]
    rfl
  case ids =>
    rw [running, List.map_map, List.length_map, List.range_eq_range',
      show framed.running.length = tree.starts.length from Branch.length_launch ..]
    exact Branch.ids_launch ..
  case kept =>
    intro b mem
    obtain ⟨a, ha, rfl⟩ := List.mem_map.1 (running ▸ mem)
    obtain ⟨s, -, rfl⟩ := List.mem_map.1 ha
    rfl

/-- A recorded group and a node with children, both in a filter, at the start and after the first
event of a host. -/
theorem stacks_after_one_host :
    let key : KeyExtractor := ⟨0, "host", .property "host"⟩
    let last : Expr := .event (.propertyEquals "n" .null)
    let tree : Expr := .filter .always
      [.record 0 (.groupBy key (.sequence [.event .always, last])), .eventThen .always [last]]
    let event : Record := ⟨"", "", "", .epoch, [.string "host" "a"]⟩
    let first := start 1 tree .empty
    tree.defect? = none ∧ tree.Coherent ∧
      first.running.map (fun b => b.stack.map Layer.describe) =
        [["filter(true)", "record"], ["filter(true)", "then[1]"]] ∧
      ∀ b ∈ (first.after [.event event]).running, ∃ n frames,
        tree.node? b.address = some n ∧ n.Awaits b.head ∧
        List.Forall₂ Ancestor.Makes (tree.ancestors b.address) frames ∧
        b.stack = frames.map .frame ++ n.pending := by
  intro key last tree event first
  have coherent : tree.Coherent := by
    intro j hj k hk _
    rw [List.mem_singleton.1 hj, List.mem_singleton.1 hk]
  exact ⟨by decide, coherent, by decide +kernel,
    (stacks_after (by decide) coherent 1 .empty).2.1 [.event event]⟩

end StackedPath

end TracePattern
