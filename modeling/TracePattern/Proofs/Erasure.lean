import Mathlib.Data.List.Forall2
import Mathlib.Tactic.Common
import TracePattern.Proofs.Run
import TracePattern.Proofs.Turns

/-!
# Expressions without recorded nodes

A recorded node reports the results of its inner expression and does nothing else: without its
recorded nodes an expression is matched in the same way.  The sinks take reports and give nothing
back, so that it does not matter what they do with them.

* `Expr.erase`, `Start.erase`, `Branch.erase`: what is left without recorded nodes;
* `Expr.starts_erase`, `unwind_erase`, `Due.look_erase`: erasure of the parts of a step;
* `Unrecorded`, `Branch.Resembles`, `Finish.Resembles`: what the two sides have in common;
* `runAll_erases`: the steps of erased branches;
* `Path.after_erase`: every life of the erased path.
-/

namespace TracePattern

/-! ### Erasure -/

mutual
/-- The expression without its recorded nodes. -/
def Expr.erase : Expr → Expr
  | .event condition => .event condition
  | .eventThen condition children => .eventThen condition (Expr.eraseAll children)
  | .sequence children => .sequence (Expr.eraseAll children)
  | .filter condition children => .filter condition (Expr.eraseAll children)
  | .groupBy key template => .groupBy key template.erase
  | .record _ inner => inner.erase

/-- Several expressions without their recorded nodes. -/
def Expr.eraseAll : List Expr → List Expr
  | [] => []
  | e :: rest => e.erase :: Expr.eraseAll rest
end

/-- The frame without recorded nodes, if it is not one itself. -/
def Frame.erase? : Frame → Option Frame
  | .sequence children index => some (.sequence (Expr.eraseAll children) index)
  | .gate condition child => some (.gate condition child)
  | .route key value => some (.route key value)
  | .record _ => none

/-- Frames without recorded nodes. -/
def eraseFrames (frames : List Frame) : List Frame := frames.filterMap Frame.erase?

def Cursor.erase : Cursor → Cursor
  | .event condition children => .event condition (children.map Expr.eraseAll)
  | .router key template seen => .router key template.erase seen

def Start.erase (s : Start) : Start := ⟨eraseFrames s.frames, s.cursor.erase⟩

/-- The branch in the expression without recorded nodes. -/
def Branch.erase (b : Branch) : Branch :=
  { b with frames := eraseFrames b.frames, cursor := b.cursor.erase }

def Move.erase : Move → Move
  | .stay => .stay
  | .fail e => .fail e
  | .leave => .leave
  | .descend children => .descend (Expr.eraseAll children)
  | .group key template value seen => .group key template.erase value seen

theorem Expr.eraseAll_eq (es : List Expr) : eraseAll es = es.map erase := by
  induction es with
  | nil => rfl
  | cons e rest ih => rw [eraseAll, ih, List.map_cons]

@[simp] theorem Expr.length_eraseAll (es : List Expr) : (eraseAll es).length = es.length := by
  rw [eraseAll_eq, List.length_map]

theorem eraseFrames_append (outer inner : List Frame) :
    eraseFrames (outer ++ inner) = eraseFrames outer ++ eraseFrames inner :=
  List.filterMap_append

/-! ### Starts -/

theorem map_erase_under {f g : Frame} (h : f.erase? = some g) (starts : List Start) :
    (starts.map (Start.under f)).map Start.erase = (starts.map Start.erase).map (Start.under g) := by
  rw [List.map_map, List.map_map]
  refine List.map_congr_left fun s _ => ?_
  simp [Start.under, Start.erase, eraseFrames, h]

mutual
/-- The starts of the erased expression are the erased starts. -/
theorem Expr.starts_erase (e : Expr) : e.erase.starts = e.starts.map Start.erase := by
  match e with
  | .event c => rfl
  | .eventThen c children => rfl
  | .sequence children => exact startsOfFirst_erase children children
  | .filter c children => exact startsOfAll_erase c 0 children
  | .groupBy key template => rfl
  | .record sink inner =>
    rw [erase, starts_erase inner, starts, List.map_map]
    rfl

theorem Expr.startsOfFirst_erase (all es : List Expr) :
    startsOfFirst (eraseAll all) (eraseAll es) = (startsOfFirst all es).map Start.erase := by
  match es with
  | [] => rfl
  | e :: rest => rw [eraseAll, startsOfFirst, startsOfFirst, starts_erase e, map_erase_under rfl]

theorem Expr.startsOfAll_erase (c : Condition) (i : ℕ) (es : List Expr) :
    startsOfAll c i (eraseAll es) = (startsOfAll c i es).map Start.erase := by
  match es with
  | [] => rfl
  | e :: rest =>
    rw [eraseAll, startsOfAll, startsOfAll, starts_erase e, startsOfAll_erase c (i + 1) rest,
      List.map_append, map_erase_under rfl]
end

theorem startsAt_erase (children : List Expr) (i : ℕ) :
    startsAt (Expr.eraseAll children) i = (startsAt children i).map Start.erase := by
  unfold startsAt
  rw [Expr.eraseAll_eq, List.getElem?_map]
  cases children[i]? with
  | none => rfl
  | some child =>
    simp only [Option.map_some]
    rw [Expr.starts_erase, ← Expr.eraseAll_eq, map_erase_under rfl]

namespace Branch

theorem launch_erase (captures : Captures) (outer : List Frame) (starts : List Start) (next : ℕ) :
    launch captures (eraseFrames outer) (starts.map Start.erase) next =
      (launch captures outer starts next).map erase := by
  simp [launch, List.zipIdx_map, Function.comp_def, erase, Start.erase, eraseFrames_append]

theorem carryOn_erase (b : Branch) (outer : List Frame) (starts : List Start) (next : ℕ) :
    b.erase.carryOn (eraseFrames outer) (starts.map Start.erase) next =
      (b.carryOn outer starts next).map erase := by
  cases starts with
  | nil => rfl
  | cons s rest =>
    have others := launch_erase b.captures outer rest next
    simp [carryOn, erase, Start.erase, eraseFrames_append] at others ⊢
    exact others

end Branch

/-! ### Leaving nodes -/

/-- The same nodes are left, and the same child comes next. -/
theorem unwind_erase (frames : List Frame) :
    (unwind (eraseFrames frames)).next = (unwind frames).next.map fun n =>
      (eraseFrames n.1, Expr.eraseAll n.2.1, n.2.2) := by
  induction frames with
  | nil => rfl
  | cons f rest ih =>
    cases f with
    | record sink =>
      -- The node itself is not there any more, and it has no further child.
      rw [show eraseFrames (.record sink :: rest) = eraseFrames rest from rfl, ih, unwind]
      cases (unwind rest).next <;> rfl
    | sequence children index =>
      rw [show eraseFrames (.sequence children index :: rest) =
        .sequence (Expr.eraseAll children) index :: eraseFrames rest from rfl, unwind, unwind, ih,
        Expr.length_eraseAll]
      cases (unwind rest).next with
      | some next => rfl
      | none =>
        dsimp only [Option.map_none]
        split <;> rfl
    | gate condition child =>
      rw [show eraseFrames (.gate condition child :: rest) =
        .gate condition child :: eraseFrames rest from rfl, unwind, unwind, ih]
      cases (unwind rest).next <;> rfl
    | route key value =>
      rw [show eraseFrames (.route key value :: rest) =
        .route key value :: eraseFrames rest from rfl, unwind, unwind, ih]
      cases (unwind rest).next <;> rfl

/-! ### Looks -/

/-- Recorded nodes let every event through. -/
theorem passAll_erase (event : Record) (branch : ℕ) (node node' : List ℕ) (captures : Captures)
    (keys : Keys) (frames : List Frame) :
    (passAll event branch node' captures keys (eraseFrames frames)).captures =
        (passAll event branch node captures keys frames).captures ∧
      (passAll event branch node' captures keys (eraseFrames frames)).keys =
        (passAll event branch node captures keys frames).keys ∧
      (passAll event branch node' captures keys (eraseFrames frames)).verdict =
        (passAll event branch node captures keys frames).verdict := by
  refine passAll_of_gates ?_ event branch branch node node' captures keys
  induction frames with
  | nil => rfl
  | cons f rest ih =>
    cases f with
    | record sink => exact ih
    | sequence children index => exact ih
    | gate condition child => exact congrArg (Frame.gate condition child :: ·) ih
    | route key value => exact congrArg (Frame.route key value :: ·) ih

/-- The look of the erased branch. -/
structure Look.Erases (x y : Look) : Prop where
  branch : y.branch = x.branch.erase
  keys : y.keys = x.keys
  move : y.move = x.move.erase

theorem Branch.meet_erase (b : Branch) (event : Record) (keys : Keys) :
    (b.meet event keys).Erases (b.erase.meet event keys) := by
  obtain ⟨id, captures, frames, cursor⟩ := b
  cases cursor with
  | event condition children =>
    refine ⟨rfl, rfl, ?_⟩
    simp only [erase, Cursor.erase, meet]
    cases (condition.evaluate event captures).2.guarded with
    | error e => rfl
    | ok held =>
      cases held with
      | false => rfl
      | true => cases children <;> rfl
  | router key template seen =>
    simp only [erase, Cursor.erase, meet]
    cases (keys.find key event).1 with
    | none => exact ⟨rfl, rfl, rfl⟩
    | some value =>
      dsimp only
      cases seen.insert? value <;> exact ⟨rfl, rfl, rfl⟩

/-- The branch, due without recorded nodes: of those of its frames that are left, as many let the
event through before. -/
def Due.erase (d : Due) : Due :=
  ⟨d.branch.erase, (eraseFrames (d.branch.frames.take d.passed)).length⟩

/-- **The erased branch sees an event like the branch.** -/
theorem Due.look_erase (d : Due) (event : Record) (keys : Keys) :
    (d.look event keys).Erases (d.erase.look event keys) := by
  obtain ⟨b, passed⟩ := d
  have ahead : b.erase.frames.drop (eraseFrames (b.frames.take passed)).length =
      eraseFrames (b.frames.drop passed) := by
    have split : b.erase.frames =
        eraseFrames (b.frames.take passed) ++ eraseFrames (b.frames.drop passed) := by
      rw [← eraseFrames_append, List.take_append_drop]
      rfl
    rw [split, List.drop_left]
  have way := passAll_erase event b.id (address (b.frames.take passed))
    (address (b.erase.frames.take (eraseFrames (b.frames.take passed)).length)) b.captures keys
    (b.frames.drop passed)
  unfold look erase Branch.look
  dsimp only
  rw [ahead, show b.erase.id = b.id from rfl, show b.erase.captures = b.captures from rfl]
  generalize passAll event b.id _ b.captures keys (eraseFrames (b.frames.drop passed)) = y at *
  generalize passAll event b.id _ b.captures keys (b.frames.drop passed) = x at *
  obtain ⟨captures, keys, notes, verdict⟩ := x
  obtain ⟨rfl, rfl, rfl⟩ := way
  dsimp only
  match y.verdict with
  | .error e => exact ⟨rfl, rfl, rfl⟩
  | .ok false => exact ⟨rfl, rfl, rfl⟩
  | .ok true =>
    have met := Branch.meet_erase { b with captures := y.captures } event y.keys
    exact ⟨met.branch, met.keys, met.move⟩

/-! ### What both sides have in common -/

/-- Two positions in words, the second of which has no recorded nodes. -/
def Unrecorded (place place' : String) : Prop :=
  ∃ words : List String, place = " > ".intercalate words ∧
    place' = " > ".intercalate (words.filter fun word => word ≠ "record")

/-- Two running branches that are alike but for the recorded nodes in their positions. -/
structure Branch.Resembles (b c : Branch) : Prop where
  id : c.id = b.id
  captures : c.captures = b.captures
  isRouter : c.isRouter = b.isRouter
  position : Unrecorded b.position c.position

/-- Two results that are alike but for the recorded nodes in their positions. -/
structure Finish.Resembles (f g : Finish) : Prop where
  id : g.id = f.id
  outcome : g.outcome = f.outcome
  captures : g.captures = f.captures
  position : Unrecorded f.position g.position
  error : g.error = f.error

/-- Only recorded nodes are called so. -/
theorem Frame.describe_erase (frames : List Frame) :
    (eraseFrames frames).map describe =
      (frames.map describe).filter fun word => word ≠ "record" := by
  induction frames with
  | nil => rfl
  | cons f rest ih =>
    have kept : ∀ g, f.erase? = some g → g.describe = f.describe → f.describe ≠ "record" →
        (eraseFrames (f :: rest)).map describe =
          ((f :: rest).map describe).filter fun word => word ≠ "record" := by
      intro g erased same other
      rw [eraseFrames, List.filterMap_cons_some erased, List.map_cons, List.map_cons,
        List.filter_cons_of_pos (by simpa using other), same]
      exact congrArg _ ih
    cases f with
    | record sink => exact ih
    | sequence children index =>
      refine kept _ rfl (by simp [describe]) fun h => ?_
      have := congrArg String.toList h
      simp [describe] at this
    | gate condition child =>
      refine kept _ rfl rfl fun h => ?_
      have := congrArg String.toList h
      simp [describe] at this
    | route key value =>
      refine kept _ rfl rfl fun h => ?_
      have := congrArg String.toList h
      simp [describe] at this

theorem Cursor.describe_erase (cursor : Cursor) :
    cursor.erase.describe = cursor.describe.filter fun word => word ≠ "record" := by
  have named : ∀ word ∈ cursor.describe, word ≠ "record" := by
    intro word hword h
    have := congrArg String.toList h
    cases cursor with
    | event c children =>
      cases children with
      | none =>
        obtain rfl : word = _ := by simpa [describe] using hword
        simp at this
      | some children =>
        rcases (by simpa [describe] using hword : word = _ ∨ word = _) with rfl | rfl <;>
          simp at this
    | router key template seen =>
      obtain rfl : word = _ := by simpa [describe] using hword
      simp at this
  rw [List.filter_eq_self.2 fun word hword => by simpa using named word hword]
  cases cursor with
  | event c children =>
    cases children with
    | none => rfl
    | some children => simp [erase, describe]
  | router key template seen => rfl

theorem Branch.position_erase (b : Branch) : Unrecorded b.position b.erase.position := by
  refine ⟨b.frames.map Frame.describe ++ b.cursor.describe, rfl, ?_⟩
  rw [List.filter_append, ← Frame.describe_erase, ← Cursor.describe_erase]
  rfl

theorem Branch.resembles_erase (b : Branch) : b.Resembles b.erase := by
  refine ⟨rfl, rfl, ?_, b.position_erase⟩
  cases h : b.cursor <;> simp [isRouter, erase, Cursor.erase, h]

theorem Branch.resembles_finish (b : Branch) (outcome : Outcome) (error : Option EvalError) :
    (b.finish outcome error).Resembles (b.erase.finish outcome error) :=
  ⟨rfl, rfl, rfl, b.position_erase, rfl⟩

/-! ### Steps -/

/-- The second part of a step does without recorded nodes what the first one does with them. -/
structure Erases (x y : Effects × Tally) : Prop where
  running : y.1.running = x.1.running.map Branch.erase
  finished : List.Forall₂ Finish.Resembles x.1.finished y.1.finished
  tally : y.2 = x.2

namespace Erases

variable {x y : Effects × Tally} {turn turn' : Turn}

/-- One part after another. -/
theorem proceed (h : Erases x y) (part : Erases (turn x.2) (turn' y.2)) :
    Erases (proceed x turn) (proceed y turn') := by
  refine ⟨?_, List.rel_append h.finished part.finished, part.tally⟩
  show y.1.running ++ (turn' y.2).1.running = (x.1.running ++ (turn x.2).1.running).map Branch.erase
  rw [List.map_append, h.running, part.running]

theorem complete (path path' : ℕ) (b : Branch) (t : Tally) :
    Erases (b.complete path t) (b.erase.complete path' t) := by
  have unwound : (unwind b.erase.frames).next = _ := unwind_erase b.frames
  unfold Branch.complete
  dsimp only
  rw [unwound]
  cases (unwind b.frames).next with
  | none => exact ⟨rfl, .cons (b.resembles_finish _ _) .nil, rfl⟩
  | some next =>
    obtain ⟨outer, children, index⟩ := next
    dsimp only [Option.map_some]
    rw [startsAt_erase, Branch.carryOn_erase, List.length_map]
    exact ⟨rfl, .nil, rfl⟩

end Erases

namespace Look.Erases

variable {x y : Look} (h : x.Erases y)
include h

theorem followers (frames : List Frame) (next : ℕ) :
    y.followers (eraseFrames frames) next = (x.followers frames next).map Branch.erase := by
  unfold Look.followers
  rw [h.move, h.branch]
  cases x.move with
  | descend children =>
    dsimp only [Move.erase]
    rw [startsAt_erase, Branch.carryOn_erase]
  | group key template value known =>
    have outer : eraseFrames frames ++ [.route key value] =
        eraseFrames (frames ++ [.route key value]) := by
      rw [eraseFrames_append]
      rfl
    dsimp only [Move.erase]
    rw [outer, Expr.starts_erase, Branch.launch_erase]
    rfl
  | _ => rfl

theorem act (path path' : ℕ) (followers : List Branch) (t : Tally) :
    TracePattern.Erases (x.act path followers t)
      (y.act path' (followers.map Branch.erase) t) := by
  unfold Look.act
  rw [h.move, h.branch]
  cases x.move with
  | stay => exact ⟨rfl, .nil, rfl⟩
  | fail e => exact ⟨rfl, .cons (x.branch.resembles_finish _ _) .nil, rfl⟩
  | leave => exact .complete path path' x.branch t
  | descend children => exact ⟨rfl, .nil, by dsimp only [Move.erase]; rw [List.length_map]⟩
  | group key template value known =>
    exact ⟨rfl, .nil, by dsimp only [Move.erase]; rw [List.length_map]⟩

end Look.Erases

section Steps

variable {event : Record}

/-- The frames that have let an event through to a branch further in, without recorded nodes. -/
theorem inside_erase {f g : Frame} (h : f.erase? = some g) (outer inner : List Frame) :
    (eraseFrames ((outer ++ f :: inner).take (outer.length + 1))).length =
      (eraseFrames outer).length + 1 := by
  rw [List.take_append, List.take_of_length_le (Nat.le_succ _), Nat.add_sub_cancel_left,
    eraseFrames_append, List.length_append]
  simp [eraseFrames, h]

theorem behind_erase (d : Due) (t : Tally) :
    d.erase.behind (Due.look event) t = (d.behind (Due.look event) t).map Due.erase := by
  unfold Due.behind
  rw [show d.erase.branch.frames = eraseFrames d.branch.frames from rfl,
    (d.look_erase event t.keys).followers, List.map_map, List.map_map]
  refine List.map_congr_left fun f mem => ?_
  obtain ⟨g, inner, frames, kind⟩ := Look.frames_of_mem_followers mem
  have kept : ∃ g', g.erase? = some g' := by
    rcases kind with ⟨_, _, rfl⟩ | ⟨_, _, _, _, _, rfl⟩ <;> exact ⟨_, rfl⟩
  obtain ⟨g', kept⟩ := kept
  have passed := inside_erase kept d.branch.frames inner
  rw [← frames] at passed
  simp [Due.erase, passed]

/-- **The steps of erased branches do what the steps of the branches do.** -/
theorem runAll_erases (path path' : ℕ) (event : Record) (bs : List Branch) (t : Tally) :
    Erases (runAll (bs.map (step path event 0)) t)
      (runAll ((bs.map Branch.erase).map (step path' event 0)) t) := by
  have alike : List.Forall₂ (fun d d' => d' = d.erase)
      (bs.map fun b => (⟨b, 0⟩ : Due)) ((bs.map Branch.erase).map (⟨·, 0⟩)) := by
    rw [List.map_map]
    exact List.forall₂_map_left_iff.2 (List.forall₂_map_right_iff.2
      (List.forall₂_same.2 fun _ _ => rfl))
  have before : Erases (.none, t) (.none, t) := ⟨rfl, .nil, rfl⟩
  have steps := (step_turns path event).related (step_turns path' event).made ?next alike before
  · rwa [map_due, map_due] at steps
  case next =>
    rintro d _ x y rfl h
    have looks := d.look_erase event x.2.keys
    constructor
    · refine h.proceed ?_
      have acts := looks.act path path'
        ((d.look event x.2.keys).followers d.branch.frames x.2.nextId)
        { x.2 with keys := (d.look event x.2.keys).keys }
      rw [h.tally]
      unfold Due.alone
      dsimp only
      rw [show d.erase.branch.frames = eraseFrames d.branch.frames from rfl, looks.followers,
        looks.keys]
      exact ⟨acts.running, acts.finished, acts.tally⟩
    · rw [h.tally, behind_erase]
      exact List.forall₂_map_right_iff.2 (List.forall₂_same.2 fun _ _ => rfl)

end Steps

/-! ### Paths -/

namespace Path

/-- What two paths show is the same, but for the recorded nodes in positions. -/
structure Resembles (p q : Path) : Prop where
  running : List.Forall₂ Branch.Resembles p.running q.running
  finished : List.Forall₂ Finish.Resembles p.finished q.finished
  nextId : q.nextId = p.nextId
  stats : q.stats = p.stats
  closed : q.closed = p.closed

/-- The second path stands in the expression without recorded nodes where the first one stands. -/
structure Erased (p q : Path) : Prop where
  running : q.running = p.running.map Branch.erase
  finished : List.Forall₂ Finish.Resembles p.finished q.finished
  nextId : q.nextId = p.nextId
  stats : q.stats = p.stats
  closed : q.closed = p.closed

variable {p q : Path}

theorem Erased.resembles (h : Erased p q) : p.Resembles q := by
  refine ⟨?_, h.finished, h.nextId, h.stats, h.closed⟩
  rw [h.running]
  exact List.forall₂_map_right_iff.2 (List.forall₂_same.2 fun b _ => b.resembles_erase)

theorem erased_start (id id' : ℕ) (name name' : Option String) (tree : Expr) (initial : Captures) :
    Erased (start id name tree initial) (start id' name' tree.erase initial) := by
  have branches := Branch.launch_erase initial [] tree.starts 0
  rw [← Expr.starts_erase] at branches
  have same : (Branch.launch initial [] tree.erase.starts 0).length =
      (Branch.launch initial [] tree.starts 0).length := by
    rw [show Branch.launch initial [] tree.erase.starts 0 = _ from branches, List.length_map]
  exact ⟨branches, .nil, same, congrArg (Stats.mk 0 · 0 0) same, rfl⟩

theorem count_of_resembles {fs gs : List Finish} (h : List.Forall₂ Finish.Resembles fs gs)
    (outcome : Outcome) : count outcome gs = count outcome fs := by
  induction h with
  | nil => rfl
  | cons first _ ih =>
    simp only [count] at ih ⊢
    rw [List.filter_cons, List.filter_cons, first.outcome]
    split
    · simpa using ih
    · exact ih

theorem Erased.onEvent (h : Erased p q) (e : Record) :
    Erased (p.onEvent e).1 (q.onEvent e).1 := by
  cases hc : p.closed with
  | true =>
    rw [onEvent_of_closed hc, onEvent_of_closed (h.closed.trans hc)]
    exact h
  | false =>
    have hq : q.closed = false := h.closed.trans hc
    have turn : Erases (p.turn e) (q.turn e) := by
      unfold Path.turn
      rw [h.running, h.nextId]
      exact runAll_erases p.id q.id e p.running _
    refine ⟨?_, ?_, ?_, ?_, ?_⟩
    · rw [running_onEvent hc, running_onEvent hq, turn.running]
      exact (List.map_mergeSort (f := Branch.erase) fun _ _ _ _ => rfl).symm
    · rw [finished_onEvent hc, finished_onEvent hq]
      exact List.rel_append h.finished turn.finished
    · rw [nextId_onEvent hc, nextId_onEvent hq, turn.tally]
    · rw [stats_onEvent hc, stats_onEvent hq, h.stats, turn.tally,
        count_of_resembles turn.finished, count_of_resembles turn.finished]
    · rw [closed_onEvent, closed_onEvent, h.closed]

/-- **Recorded nodes do not show in a path.** In every life, the path of an expression and that of
the expression without its recorded nodes have the same running branches, the same results and the
same counters. Only the words of positions differ, by those of the recorded nodes. -/
theorem after_erase (id : ℕ) (name : Option String) (tree : Expr) (initial : Captures)
    (acts : List Act) :
    ((start id name tree initial).after acts).Resembles
      ((start id name tree.erase initial).after acts) := by
  refine Erased.resembles ?_
  have start_erased := erased_start id id name name tree initial
  generalize start id name tree initial = p at *
  generalize start id name tree.erase initial = q at *
  induction acts generalizing p q with
  | nil => exact start_erased
  | cons act rest ih =>
    refine ih _ _ ?_
    cases act with
    | event e => exact start_erased.onEvent e
    | close =>
      exact ⟨start_erased.running, start_erased.finished, start_erased.nextId, start_erased.stats,
        rfl⟩

end Path

end TracePattern
