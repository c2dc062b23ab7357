import Mathlib.Data.List.Forall2
import TracePattern.Proofs.Flattening.Agenda
import TracePattern.Proofs.Ledger

/-!
# Nested sequences

Expressions with the same parts are matched alike: what an event does to a branch is known from the
outline of its place. So sequences may be nested or not.

* `Branch.face`, `Finish.unplaced`: what branches and results show, without sequences;
* `Branch.look_face`: what an event means for two branches with one face;
* `Twin`, `Due.Twins`, `runAll_twin`: steps of two such branches;
* `Path.Twins`, `Path.Twins.onEvent`: paths;
* `Path.after_flatten`: an expression with fewer nested sequences.
-/

namespace TracePattern

/-! ### Faces -/

/-- What shows of a branch without sequences. -/
structure Face where
  id : ℕ
  captures : Captures
  outline : Outline

/-- The branch without sequences. -/
def Branch.face (b : Branch) : Face := ⟨b.id, b.captures, agenda b.frames, b.cursor.stand⟩

/-- The branch only forms groups. -/
def Face.isRouter (f : Face) : Bool := f.outline.stand matches .router ..

theorem Branch.isRouter_face (b : Branch) : b.face.isRouter = b.isRouter := by
  obtain ⟨_, _, _, cursor⟩ := b
  cases cursor <;> rfl

/-- The result without its position. -/
def Finish.unplaced (f : Finish) : Finish := { f with position := "" }

/-- The number of gates that have let an event through. -/
def Branch.gatesPassed (passed : ℕ) (b : Branch) : ℕ := (b.frames.take passed).countP Frame.isGate

/-- What an event means, without sequences. -/
inductive Course
  | stay
  | fail (e : EvalError)
  | leave
  | descend (parts : List Part)
  | group (key : KeyExtractor) (template : List Part) (value : Value) (seen : KeySet)

def Move.course : Move → Course
  | .stay => .stay
  | .fail e => .fail e
  | .leave => .leave
  | .descend children => .descend (Expr.partsOf children)
  | .group key template value seen => .group key template.parts value seen

/-- The faces of branches with new numbers. -/
def faces (captures : Captures) (outlines : List Outline) (next : ℕ) : List Face :=
  (outlines.zipIdx next).map fun o => ⟨o.2, captures, o.1⟩

/-- The faces of branches, the first of which carries on the number of another one. -/
def facesOnward (id : ℕ) (captures : Captures) (outlines : List Outline) (next : ℕ) : List Face :=
  match outlines with
  | [] => []
  | o :: rest => ⟨id, captures, o⟩ :: faces captures rest next

namespace Branch

theorem faces_launch (captures : Captures) (outer : List Frame) (starts : List Start) (next : ℕ) :
    (launch captures outer starts next).map face =
      faces captures ((starts.map Start.outline).map (Outline.inside (agenda outer))) next := by
  simp [launch, faces, List.zipIdx_map, face, Outline.inside, Start.outline, agenda_append]

theorem faces_carryOn (b : Branch) (outer : List Frame) (starts : List Start) (next : ℕ) :
    (b.carryOn outer starts next).map face = facesOnward b.id b.captures
      ((starts.map Start.outline).map (Outline.inside (agenda outer))) next := by
  cases starts with
  | nil => rfl
  | cons s rest =>
    have others := faces_launch b.captures outer rest next
    simp only [carryOn, List.map_cons, facesOnward, others]
    simp [face, Outline.inside, Start.outline, agenda_append]

section Same

variable {b c : Branch} (same : c.face = b.face)
include same

theorem id_of_face : c.id = b.id := congrArg Face.id same

theorem captures_of_face : c.captures = b.captures := congrArg Face.captures same

theorem agenda_of_face : agenda c.frames = agenda b.frames :=
  congrArg (fun face => face.outline.agenda) same

theorem stand_of_face : c.cursor.stand = b.cursor.stand :=
  congrArg (fun face => face.outline.stand) same

theorem gates_of_face : c.frames.filter Frame.isGate = b.frames.filter Frame.isGate := by
  rw [gates_agenda, gates_agenda, agenda_of_face same]

theorem unplaced_of_face (outcome : Outcome) (error : Option EvalError) :
    (c.finish outcome error).unplaced = (b.finish outcome error).unplaced := by
  simp [finish, Finish.unplaced, id_of_face same, captures_of_face same]

theorem recorded_of_face (path : ℕ) (outcome : Outcome) (error : Option EvalError) :
    c.recorded path outcome error = b.recorded path outcome error := by
  simp [recorded, id_of_face same, captures_of_face same]

/-- The same gates are ahead where equally many have been passed. -/
theorem ahead_of_face {passed passed' : ℕ}
    (level : c.gatesPassed passed' = b.gatesPassed passed) :
    (c.frames.drop passed').filter Frame.isGate =
      (b.frames.drop passed).filter Frame.isGate := by
  have cut (d : Branch) (n : ℕ) : (d.frames.drop n).filter Frame.isGate =
      (d.frames.filter Frame.isGate).drop (d.gatesPassed n) := by
    conv_rhs => rw [← List.take_append_drop n d.frames]
    rw [List.filter_append, gatesPassed, List.countP_eq_length_filter, List.drop_left]
  rw [cut, cut, level, gates_of_face same]

end Same

end Branch

/-! ### Looks -/

/-- Two looks of branches with one face. -/
structure Look.Twins (x y : Look) : Prop where
  face : y.branch.face = x.branch.face
  keys : y.keys = x.keys
  course : y.move.course = x.move.course

namespace Branch

theorem meet_face {b c : Branch} (same : c.face = b.face) (event : Record) (keys : Keys) :
    (b.meet event keys).Twins (c.meet event keys) := by
  have agendas := agenda_of_face same
  have stands := stand_of_face same
  obtain ⟨id, captures, frames, cursor⟩ := b
  obtain ⟨id', captures', frames', cursor'⟩ := c
  obtain rfl : id' = id := id_of_face same
  obtain rfl : captures' = captures := captures_of_face same
  dsimp only at agendas stands
  cases cursor with
  | event condition children =>
    cases cursor' with
    | router => cases stands
    | event condition' children' =>
      obtain ⟨rfl, parts⟩ : condition' = condition ∧
        children'.map Expr.partsOf = children.map Expr.partsOf := by simpa [Cursor.stand] using stands
      refine ⟨by simp [meet, face, agendas, Cursor.stand, parts], rfl, ?_⟩
      simp only [meet]
      cases (condition'.evaluate event captures').2.guarded with
      | error e => rfl
      | ok held =>
        cases held with
        | false => rfl
        | true =>
          cases children with
          | none =>
            cases children' with
            | none => rfl
            | some _ => cases parts
          | some children =>
            cases children' with
            | none => cases parts
            | some children' => exact congrArg Course.descend (Option.some.inj parts)
  | router key template seen =>
    cases cursor' with
    | event => cases stands
    | router key' template' seen' =>
      obtain ⟨rfl, parts, rfl⟩ : key' = key ∧ template'.parts = template.parts ∧ seen' = seen := by
        simpa [Cursor.stand] using stands
      simp only [meet]
      cases (keys.find key' event).1 with
      | none => exact ⟨by simp [face, agendas, Cursor.stand, parts], rfl, rfl⟩
      | some value =>
        dsimp only
        cases seen'.insert? value with
        | none => exact ⟨by simp [face, agendas, Cursor.stand, parts], rfl, rfl⟩
        | some known =>
          exact ⟨by simp [face, agendas, Cursor.stand, parts], rfl, by simp [Move.course, parts]⟩

/-- **An event means the same for two branches with one face.** -/
theorem look_face {b c : Branch} (same : c.face = b.face) {passed passed' : ℕ}
    (level : c.gatesPassed passed' = b.gatesPassed passed) (event : Record) (keys : Keys) :
    (b.look event passed keys).Twins (c.look event passed' keys) := by
  have way := passAll_of_gates (ahead_of_face same level) event b.id c.id
    (address (b.frames.take passed)) (address (c.frames.take passed')) b.captures keys
  unfold look
  rw [captures_of_face same]
  dsimp only at way ⊢
  generalize passAll event b.id _ b.captures keys _ = x at way ⊢
  generalize passAll event c.id _ b.captures keys _ = y at way ⊢
  obtain ⟨captures, kept, verdict⟩ := way
  have through : Branch.face { c with captures := y.captures } =
      Branch.face { b with captures := x.captures } := by
    simp only [face, Face.mk.injEq] at same ⊢
    exact ⟨same.1, captures, same.2.2⟩
  rw [verdict, kept]
  split
  · exact ⟨through, rfl, rfl⟩
  · exact ⟨through, rfl, rfl⟩
  · have met := meet_face through event x.keys
    exact ⟨met.face, met.keys, met.course⟩

end Branch

/-! ### Steps -/

/-- Two parts of a step do the same, but for sequences. -/
structure Twin (x y : Effects × Tally) : Prop where
  running : y.1.running.map Branch.face = x.1.running.map Branch.face
  finished : y.1.finished.map Finish.unplaced = x.1.finished.map Finish.unplaced
  reports : y.1.reports = x.1.reports
  tally : y.2 = x.2

/-- Lists that show the same, entry by entry. -/
theorem forall₂_of_map_eq {α β γ : Type} {f : α → γ} {g : β → γ} {R : α → β → Prop} {as : List α}
    {bs : List β} (same : bs.map g = as.map f)
    (related : ∀ a ∈ as, ∀ b ∈ bs, g b = f a → R a b) : List.Forall₂ R as bs := by
  induction as generalizing bs with
  | nil =>
    obtain rfl := List.map_eq_nil_iff.1 same
    exact .nil
  | cons a as ih =>
    obtain ⟨b, bs, rfl, first, rest⟩ := List.map_eq_cons_iff.1 same
    refine .cons (related a List.mem_cons_self b List.mem_cons_self first) (ih rest ?_)
    exact fun a ha b hb => related a (List.mem_cons_of_mem _ ha) b (List.mem_cons_of_mem _ hb)

/-- One part after another. -/
theorem Twin.proceed {x y : Effects × Tally} {turn turn' : Turn} (h : Twin x y)
    (part : Twin (turn x.2) (turn' y.2)) : Twin (proceed x turn) (proceed y turn') := by
  refine ⟨?_, ?_, congrArg₂ (· ++ ·) h.reports part.reports, part.tally⟩
  · simp only [TracePattern.proceed, Effects.running_append, List.map_append, h.running,
      part.running]
  · simp only [TracePattern.proceed, Effects.finished_append, List.map_append, h.finished,
      part.finished]

section Steps

variable {S S' : Scope} {path : ℕ} {event : Record} {b c : Branch}

/-- The branches that go on after a node is left stand where the next part starts. -/
theorem faces_next (within : ∀ f ∈ b.frames, f.Within S) {outer : List Frame}
    {children : List Expr} {index : ℕ} {part : Part} {later : List Part}
    (next : (unwind b.frames).next = some (outer, children, index))
    (parts : Expr.partsOf (children.drop index) = part :: later) (n : ℕ) :
    (b.carryOn outer (startsAt children index) n).map Branch.face = facesOnward b.id b.captures
      (part.openings.map (Outline.inside (agenda outer ++ later.reverse.map .todo))) n := by
  obtain ⟨-, inside, less⟩ := within_unwind within next
  rw [Branch.faces_carryOn, startsAt_outline inside less, parts, Part.openingsOf,
    map_inside_inside]

/-- Two branches with one face leave their nodes alike. -/
theorem complete_twin (within : ∀ f ∈ b.frames, f.Within S) (within' : ∀ f ∈ c.frames, f.Within S')
    (same : c.face = b.face) (t : Tally) : Twin (b.complete path t) (c.complete path t) := by
  obtain ⟨sinks, settles⟩ := unwind_agenda within
  obtain ⟨sinks', settles'⟩ := unwind_agenda within'
  rw [Branch.agenda_of_face same] at sinks' settles'
  have reports : ((unwind c.frames).sinks.map fun sink =>
      (⟨sink, c.recorded path .successful none⟩ : Report)) =
        (unwind b.frames).sinks.map fun sink => ⟨sink, b.recorded path .successful none⟩ := by
    rw [← sinks, ← sinks', Branch.recorded_of_face same]
  unfold Branch.complete
  dsimp only
  cases settled : (settle (agenda b.frames)).2 with
  | none =>
    rw [settled] at settles settles'
    rw [show (unwind b.frames).next = none from settles,
      show (unwind c.frames).next = none from settles']
    exact ⟨rfl, congrArg ([·]) (Branch.unplaced_of_face same _ _), reports, rfl⟩
  | some next =>
    obtain ⟨items, part⟩ := next
    rw [settled] at settles settles'
    obtain ⟨outer, children, index, later, next, parts, rfl⟩ := settles
    obtain ⟨outer', children', index', later', next', parts', around⟩ := settles'
    rw [next, next']
    have followers : (c.carryOn outer' (startsAt children' index') t.nextId).map Branch.face =
        (b.carryOn outer (startsAt children index) t.nextId).map Branch.face := by
      rw [faces_next within next parts, faces_next within' next' parts', around,
        Branch.id_of_face same, Branch.captures_of_face same]
    have count := congrArg List.length followers
    rw [List.length_map, List.length_map] at count
    exact ⟨followers, rfl, reports, by dsimp only; rw [count]⟩

/-- The gates that a branch has passed with some frames and one more. -/
theorem gatesPassed_inside {outer inner : List Frame} {f : Frame}
    (frames : b.frames = outer ++ f :: inner) : b.gatesPassed (outer.length + 1) =
      outer.countP Frame.isGate + [f].countP Frame.isGate := by
  have split : b.frames = (outer ++ [f]) ++ inner := by rw [frames, List.append_cons]
  rw [Branch.gatesPassed, split, List.take_left' (by simp), List.countP_append]

theorem countP_gates_of_face (same : c.face = b.face) :
    c.frames.countP Frame.isGate = b.frames.countP Frame.isGate := by
  rw [List.countP_eq_length_filter, List.countP_eq_length_filter, Branch.gates_of_face same]

/-- Two branches with one face are to get an event, and equally many of their gates have let it
through before. -/
structure Due.Twins (S S' : Scope) (d d' : Due) : Prop where
  within : d.branch.Within S
  within' : d'.branch.Within S'
  face : d'.branch.face = d.branch.face
  level : d'.branch.gatesPassed d'.passed = d.branch.gatesPassed d.passed

namespace Due.Twins

variable {d d' : Due} (h : d.Twins S S' d')
include h

theorem look (event : Record) (keys : Keys) : (d.look event keys).Twins (d'.look event keys) :=
  Branch.look_face h.face h.level event keys

/-- The branches that follow have the same faces. -/
theorem followers (event : Record) (keys : Keys) (next : ℕ) :
    ((d'.look event keys).followers d'.branch.frames next).map Branch.face =
      ((d.look event keys).followers d.branch.frames next).map Branch.face := by
  obtain ⟨face, -, course⟩ := h.look event keys
  have agendas := Branch.agenda_of_face h.face
  have parts : (d.look event keys).move.From d.branch.cursor := d.branch.from_look ..
  have parts' : (d'.look event keys).move.From d'.branch.cursor := d'.branch.from_look ..
  have inside := h.within.2
  have inside' := h.within'.2
  unfold Look.followers
  generalize d.look event keys = seen at *
  generalize d'.look event keys = seen' at *
  obtain ⟨branch, _, _, move⟩ := seen
  obtain ⟨branch', _, _, move'⟩ := seen'
  dsimp only at *
  cases move with
  | descend children =>
    cases move' with
    | descend children' =>
      have same : Expr.partsOf children' = Expr.partsOf children := Course.descend.inj course
      obtain ⟨_, cursor⟩ := parts
      obtain ⟨_, cursor'⟩ := parts'
      rw [cursor] at inside
      rw [cursor'] at inside'
      dsimp only
      rw [Branch.faces_carryOn, Branch.faces_carryOn,
        startsAt_outline inside.2.2 (List.length_pos_iff.2 inside.2.1),
        startsAt_outline inside'.2.2 (List.length_pos_iff.2 inside'.2.1), List.drop_zero,
        List.drop_zero, same, agendas, Branch.id_of_face face, Branch.captures_of_face face]
    | _ => cases course
  | group key template value known =>
    cases move' with
    | group key' template' value' known' =>
      obtain ⟨rfl, same, rfl, rfl⟩ := Course.group.inj course
      obtain ⟨_, cursor⟩ := parts
      obtain ⟨_, cursor'⟩ := parts'
      rw [cursor] at inside
      rw [cursor'] at inside'
      dsimp only
      rw [Branch.faces_launch, Branch.faces_launch, Expr.starts_outline inside.2,
        Expr.starts_outline inside'.2, same, Branch.captures_of_face face, agenda_append,
        agenda_append, agendas]
    | _ => cases course
  | _ => cases move' <;> first | rfl | cases course

/-- What happens to the one branch alone happens to the other. -/
theorem alone (path : ℕ) (event : Record) (t : Tally) :
    Twin (d.alone (Due.look event) path t) (d'.alone (Due.look event) path t) := by
  obtain ⟨face, keys, course⟩ := h.look event t.keys
  have followers := congrArg List.length (h.followers event t.keys t.nextId)
  rw [List.length_map, List.length_map] at followers
  have frames : (d.look event t.keys).branch.frames = d.branch.frames := d.branch.look_frames ..
  have frames' : (d'.look event t.keys).branch.frames = d'.branch.frames :=
    d'.branch.look_frames ..
  suffices acts : Twin
      ((d.look event t.keys).act path
        ((d.look event t.keys).followers d.branch.frames t.nextId)
        { t with keys := (d.look event t.keys).keys })
      ((d'.look event t.keys).act path
        ((d'.look event t.keys).followers d'.branch.frames t.nextId)
        { t with keys := (d'.look event t.keys).keys }) from
    ⟨acts.running, acts.finished, acts.reports, acts.tally⟩
  have outer := frames ▸ h.within.1
  have outer' := frames' ▸ h.within'.1
  rw [keys]
  unfold Look.act
  rw [followers]
  generalize (d.look event t.keys).followers d.branch.frames t.nextId = fs at *
  generalize (d'.look event t.keys).followers d'.branch.frames t.nextId = gs at *
  generalize d.look event t.keys = seen at *
  generalize d'.look event t.keys = seen' at *
  obtain ⟨branch, _, _, move⟩ := seen
  obtain ⟨branch', _, _, move'⟩ := seen'
  dsimp only at *
  cases move with
  | stay =>
    cases move' <;> cases course
    exact ⟨congrArg ([·]) face, rfl, rfl, rfl⟩
  | fail e =>
    cases move' <;> cases course
    refine ⟨rfl, congrArg ([·]) (Branch.unplaced_of_face face _ _), ?_, rfl⟩
    simp only [Branch.fail, sinksAround_agenda, Branch.agenda_of_face face,
      Branch.recorded_of_face face]
  | leave =>
    cases move' <;> cases course
    exact complete_twin outer outer' face _
  | descend children =>
    cases move' with
    | descend children' => exact ⟨rfl, rfl, rfl, rfl⟩
    | _ => cases course
  | group key template value known =>
    cases move' with
    | group key' template' value' known' =>
      obtain ⟨rfl, same, rfl, rfl⟩ := Course.group.inj course
      have router : Branch.face { branch' with cursor := .router key' template' known' } =
          Branch.face { branch with cursor := .router key' template known' } := by
        simp only [Branch.face, Face.mk.injEq, Outline.mk.injEq] at face ⊢
        exact ⟨face.1, face.2.1, face.2.2.1, by simp [Cursor.stand, same]⟩
      exact ⟨congrArg ([·]) router, rfl, rfl, rfl⟩
    | _ => cases course

/-- The branches behind the one and the other have one face each. -/
theorem behind (event : Record) (t : Tally) :
    List.Forall₂ (Due.Twins S S') (d.behind (Due.look event) t)
      (d'.behind (Due.look event) t) := by
  have parts : (d.look event t.keys).move.From d.branch.cursor := d.branch.from_look ..
  have parts' : (d'.look event t.keys).move.From d'.branch.cursor := d'.branch.from_look ..
  have course := (h.look event t.keys).course
  unfold Due.behind
  refine List.forall₂_map_left_iff.2 (List.forall₂_map_right_iff.2 ?_)
  refine forall₂_of_map_eq (h.followers event t.keys t.nextId) fun f hf g hg same => ?_
  refine ⟨Due.within_of_mem_followers parts h.within hf,
    Due.within_of_mem_followers parts' h.within' hg, same, ?_⟩
  obtain ⟨x, _, frames, kind⟩ := Look.frames_of_mem_followers hf
  obtain ⟨x', _, frames', kind'⟩ := Look.frames_of_mem_followers hg
  -- Both stand in a sequence, or both in a group.
  have level : [x'].countP Frame.isGate = [x].countP Frame.isGate := by
    rcases kind with ⟨_, move, rfl⟩ | ⟨_, _, _, _, move, rfl⟩ <;>
      rcases kind' with ⟨_, move', rfl⟩ | ⟨_, _, _, _, move', rfl⟩ <;>
      rw [move, move'] at course <;> first | rfl | cases course
  show g.gatesPassed (d'.branch.frames.length + 1) = f.gatesPassed (d.branch.frames.length + 1)
  rw [gatesPassed_inside frames, gatesPassed_inside frames', countP_gates_of_face h.face, level]

end Due.Twins

/-- **Events do the same to branches with the same faces.** -/
theorem runAll_twin {bs cs : List Branch} (within : ∀ b ∈ bs, b.Within S)
    (within' : ∀ c ∈ cs, c.Within S') (same : cs.map Branch.face = bs.map Branch.face)
    (path : ℕ) (event : Record) (t : Tally) :
    Twin (runAll (bs.map (step path event 0)) t) (runAll (cs.map (step path event 0)) t) := by
  have alike : List.Forall₂ (Due.Twins S S') (bs.map (⟨·, 0⟩)) (cs.map (⟨·, 0⟩)) := by
    refine List.forall₂_map_left_iff.2 (List.forall₂_map_right_iff.2 ?_)
    exact forall₂_of_map_eq same fun b hb c hc same => ⟨within b hb, within' c hc, same, rfl⟩
  have before : Twin (.none, t) (.none, t) := ⟨rfl, rfl, rfl, rfl⟩
  have steps := (step_turns path event).related (step_turns path event).made ?next alike before
  · rwa [map_due, map_due] at steps
  case next =>
    intro d d' x y twins h
    constructor
    · refine h.proceed ?_
      rw [h.tally]
      exact twins.alone path event x.2
    · rw [h.tally]
      exact twins.behind event x.2

end Steps

/-! ### Paths -/

namespace Path

/-- What two paths show is the same, but for sequences. -/
structure Twins (p q : Path) : Prop where
  id : q.id = p.id
  running : q.running.map Branch.face = p.running.map Branch.face
  finished : q.finished.map Finish.unplaced = p.finished.map Finish.unplaced
  nextId : q.nextId = p.nextId
  stats : q.stats = p.stats
  closed : q.closed = p.closed

variable {S S' : Scope} {p q : Path}

theorem count_of_unplaced {fs gs : List Finish}
    (same : gs.map Finish.unplaced = fs.map Finish.unplaced) (outcome : Outcome) :
    count outcome gs = count outcome fs := by
  have unplaced (fs : List Finish) : count outcome (fs.map Finish.unplaced) = count outcome fs := by
    simp only [count, List.filter_map, List.length_map]
    rfl
  rw [← unplaced, same, unplaced]

theorem twins_start {tree tree' : Expr} (within : tree.Within S) (within' : tree'.Within S')
    (parts : tree'.parts = tree.parts) (id : ℕ) (name : Option String) (initial : Captures) :
    (start id name tree initial).Twins (start id name tree' initial) := by
  have branches : (Branch.launch initial [] tree'.starts 0).map Branch.face =
      (Branch.launch initial [] tree.starts 0).map Branch.face := by
    rw [Branch.faces_launch, Branch.faces_launch, Expr.starts_outline within,
      Expr.starts_outline within', parts]
  have count := congrArg List.length branches
  rw [List.length_map, List.length_map] at count
  exact ⟨rfl, branches, rfl, count, congrArg (Stats.mk 0 · 0 0) count, rfl⟩

/-- The turns of all running branches are twins. -/
theorem Twins.turn (h : p.Twins q) (within : ∀ b ∈ p.running, b.Within S)
    (within' : ∀ b ∈ q.running, b.Within S') (e : Record) : Twin (p.turn e) (q.turn e) := by
  unfold Path.turn
  rw [h.id, h.nextId]
  exact runAll_twin within within' h.running p.id e _

theorem Twins.onEvent (h : p.Twins q) (within : ∀ b ∈ p.running, b.Within S)
    (within' : ∀ b ∈ q.running, b.Within S') (e : Record) :
    (p.onEvent e).1.Twins (q.onEvent e).1 ∧ (q.onEvent e).2.reports = (p.onEvent e).2.reports := by
  cases hc : p.closed with
  | true =>
    rw [onEvent_of_closed hc, onEvent_of_closed (h.closed.trans hc)]
    exact ⟨h, rfl⟩
  | false =>
    have hq : q.closed = false := h.closed.trans hc
    have turn := h.turn within within' e
    refine ⟨⟨?_, ?_, ?_, ?_, ?_, ?_⟩, ?_⟩
    · rw [id_onEvent, id_onEvent, h.id]
    · have sorted (bs : List Branch) : (bs.mergeSort fun a b => a.id ≤ b.id).map Branch.face =
          (bs.map Branch.face).mergeSort fun a b => a.id ≤ b.id :=
        List.map_mergeSort fun _ _ _ _ => rfl
      rw [running_onEvent hc, running_onEvent hq, sorted, sorted, turn.running]
    · rw [finished_onEvent hc, finished_onEvent hq, List.map_append, List.map_append, h.finished,
        turn.finished]
    · rw [nextId_onEvent hc, nextId_onEvent hq, turn.tally]
    · rw [stats_onEvent hc, stats_onEvent hq, h.stats, turn.tally, count_of_unplaced turn.finished,
        count_of_unplaced turn.finished]
    · rw [closed_onEvent, closed_onEvent, h.closed]
    · rw [reports_onEvent hc, reports_onEvent hq, turn.reports]

theorem Twins.after (h : p.Twins q) (within : ∀ b ∈ p.running, b.Within S)
    (within' : ∀ b ∈ q.running, b.Within S') (acts : List Act) :
    (p.after acts).Twins (q.after acts) := by
  induction acts generalizing p q with
  | nil => exact h
  | cons act rest ih =>
    refine ih (p := p.apply act) (q := q.apply act) ?_ (within_apply within act)
      (within_apply within' act)
    cases act with
    | event e => exact (h.onEvent within within' e).1
    | close => exact ⟨h.id, h.running, h.finished, h.nextId, h.stats, rfl⟩

/-- **Nested sequences can be flattened.** If the children of sequences are put into the place of the
sequences, in other sequences and among the children of nodes that wait for events, and sequences of
one child are replaced by the child, then the expression that results is as well-formed as the first
one, and its paths show the same in every life: running branches with their numbers, captured values
and whether they only form groups, results up to their positions, counters, and what sinks hear of in
a further event. -/
theorem after_flatten {tree tree' : Expr} (valid : tree.defect? = none)
    (flat : Relation.ReflTransGen Expr.Flattens tree tree') :
    tree'.defect? = none ∧
    ∀ (id : ℕ) (name : Option String) (initial : Captures) (acts : List Act) (e : Record),
      let p := (start id name tree initial).after acts
      let q := (start id name tree' initial).after acts
      q.running.map (fun b => (b.id, b.captures, b.isRouter)) =
        p.running.map (fun b => (b.id, b.captures, b.isRouter)) ∧
      q.finished.map Finish.unplaced = p.finished.map Finish.unplaced ∧
      q.stats = p.stats ∧ q.nextId = p.nextId ∧
      (q.onEvent e).2.reports = (p.onEvent e).2.reports := by
  obtain ⟨valid', parts⟩ := Expr.defect?_of_flattens valid flat
  refine ⟨valid', fun id name initial acts e => ?_⟩
  intro p q
  have within : tree.Within .all :=
    Expr.within_of_valid valid (fun _ _ => trivial) fun _ _ => trivial
  have within' : tree'.Within .all :=
    Expr.within_of_valid valid' (fun _ _ => trivial) fun _ _ => trivial
  have twins : p.Twins q := (twins_start within within' parts id name initial).after
    (within_after within []) (within_after within' []) acts
  have reports := (twins.onEvent (within_after within acts) (within_after within' acts) e).2
  have shown (bs : List Branch) : bs.map (fun b => (b.id, b.captures, b.isRouter)) =
      (bs.map Branch.face).map fun f => (f.id, f.captures, f.isRouter) := by
    rw [List.map_map]
    exact List.map_congr_left fun b _ => by rw [← b.isRouter_face]; rfl
  refine ⟨?_, twins.finished, twins.stats, twins.nextId, reports⟩
  rw [shown, shown, twins.running]

/-- Sequences in each other, around a filter, and behind a node that hands its event on. -/
theorem after_flatten_nested :
    let taps : Expr := .tap "n" "seen"
    let stops : Condition := .predicate fun _ captures =>
      if captures.contains "seen" then .error (.evaluation "seen") else .pure true
    let filter (inner : Expr) : Expr := .filter (.propertyEquals "host" (.string "a")) [inner]
    let tree : Expr := .record 0 (.sequence [.eventThen .always
      [.sequence [.sequence [taps, filter (.sequence [.event .always])], taps], .event stops]])
    let tree' : Expr := .record 0 (.eventThen .always
      [taps, filter (.event .always), taps, .event stops])
    let event : Record := ⟨"", "", "", .epoch, [.string "host" "a"]⟩
    let p := (start 1 none tree .empty).after [.event event, .event event, .event event]
    let q := (start 1 none tree' .empty).after [.event event, .event event, .event event]
    tree.defect? = none ∧ Relation.ReflTransGen Expr.Flattens tree tree' ∧
      q.finished.map Finish.unplaced = p.finished.map Finish.unplaced ∧
      (q.onEvent event).2.reports = (p.onEvent event).2.reports := by
  intro taps stops filter tree tree' event p q
  have flat : Relation.ReflTransGen Expr.Flattens tree tree' :=
    .tail (.tail (.tail (.single (.inRecord 0 (.unwrap _)))
      (.inRecord 0 (.spliceThen .always [] _ [.event stops])))
      (.inRecord 0 (.spliceThen .always [] _ [taps, .event stops])))
      (.inRecord 0 (.inThen .always [taps] [taps, .event stops] (.inFilter _ [] [] (.unwrap _))))
  obtain ⟨-, alike⟩ := after_flatten (by decide) flat
  obtain ⟨-, finished, -, -, reports⟩ :=
    alike 1 none .empty [.event event, .event event, .event event] event
  exact ⟨by decide, flat, finished, reports⟩

end Path

end TracePattern
