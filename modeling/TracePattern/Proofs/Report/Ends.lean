import Mathlib.Data.List.TakeWhile
import TracePattern.Proofs.Ledger
import TracePattern.Proofs.Place
import TracePattern.Proofs.Reaction

/-!
# Who hears of the end of a branch

A branch that fails is reported to all recorded nodes around it.  A branch whose awaited event came,
at a node without children, is reported to the recorded nodes that it leaves.  Which nodes these are
is a matter of the expression and of the address of the branch.

* `Listener`, `Expr.listenersAround`, `Expr.listenersLeft`: recorded nodes above an address;
* `Expr.Leads.sinksAround_eq`, `Expr.Leads.sinks_unwind`: they are the ones that the frames tell;
* `End`, `Path.ends`: the branches that fail or are done with a node in an event;
* `Path.Placed.onEvent_ends`: the reports and results of an event.
-/

namespace TracePattern

/-! ### Listeners -/

/-- A recorded node, by its address, and its sink. -/
structure Listener where
  node : List ℕ
  sink : ℕ

namespace Ancestor

/-- The ancestor, if it is a recorded node. -/
def listener? (a : Ancestor) : Option Listener :=
  match a.node with
  | .record sink _ => some ⟨a.address, sink⟩
  | _ => none

/-- The node does its children one after another, and the one on the way is not the last. -/
def hasNext (a : Ancestor) : Bool :=
  match a.node with
  | .sequence children => a.child + 1 < children.length
  | .eventThen _ children => a.child + 1 < children.length
  | _ => false

end Ancestor

namespace Expr

/-- The recorded nodes above an address, innermost first. -/
def listenersAround (e : Expr) (way : List ℕ) : List Listener :=
  (e.ancestors way).reverse.filterMap Ancestor.listener?

/-- The recorded nodes that are left when the node at an address is completed, innermost first: those
inside the first node that has a next child. -/
def listenersLeft (e : Expr) (way : List ℕ) : List Listener :=
  ((e.ancestors way).reverse.takeWhile fun a => !a.hasNext).filterMap Ancestor.listener?

/-- With the node at the address the whole expression is completed. -/
def completedAt (e : Expr) (way : List ℕ) : Bool := (e.ancestors way).all fun a => !a.hasNext

end Expr

/-- The sink of a recorded node. -/
def Frame.sink? : Frame → Option ℕ
  | .record sink => some sink
  | _ => none

/-- The child that the frame stands for is not the last of its node. -/
def Frame.hasNext : Frame → Bool
  | .sequence children index => index + 1 < children.length
  | _ => false

theorem takeWhile_concat {α : Type} (p : α → Bool) (as : List α) (a : α) :
    (as ++ [a]).takeWhile p = if as.all p then as ++ [a].takeWhile p else as.takeWhile p := by
  induction as with
  | nil => simp
  | cons b as ih => cases h : p b <;> simp [h, ih, apply_ite (b :: ·)]

/-- Completed nodes are left up to the first frame with a next child. -/
theorem unwind_eq (frames : List Frame) :
    (unwind frames).next.isNone = (frames.all fun f => !f.hasNext) ∧
      (unwind frames).sinks =
        (frames.reverse.takeWhile fun f => !f.hasNext).filterMap Frame.sink? := by
  induction frames with
  | nil => exact ⟨rfl, rfl⟩
  | cons f rest ih =>
    obtain ⟨next, sinks⟩ := ih
    rw [List.reverse_cons, takeWhile_concat, List.all_reverse, List.all_cons]
    simp only [unwind]
    generalize unwind rest = inner at *
    obtain ⟨left, stop⟩ := inner
    cases stop with
    | some stop =>
      have stopped : (rest.all fun f => !f.hasNext) = false := next.symm
      rw [stopped]
      exact ⟨by simp, sinks⟩
    | none =>
      have done : (rest.all fun f => !f.hasNext) = true := next.symm
      have all : rest.reverse.takeWhile (fun f => !f.hasNext) = rest.reverse :=
        List.takeWhile_eq_self_iff.2 (by simpa using done)
      rw [all] at sinks
      rw [done, if_pos rfl, List.filterMap_append, ← sinks]
      cases f with
      | record sink => exact ⟨rfl, rfl⟩
      | sequence children index =>
        by_cases more : index + 1 < children.length <;> simp [Frame.hasNext, Frame.sink?, more]
      | gate c child => simp [Frame.hasNext, Frame.sink?]
      | route key value => simp [Frame.hasNext, Frame.sink?]

namespace Expr

variable {e n : Expr} {frames : List Frame}

/-- The ancestors of a place are as its frames say. -/
theorem Leads.traits (leads : e.Leads frames n) (here : List ℕ) :
    (e.ancestorsFrom here (address frames)).map
        (fun a => (a.listener?.map Listener.sink, a.hasNext)) =
      frames.map fun f => (f.sink?, f.hasNext) := by
  induction leads generalizing here with
  | nil => rfl
  | cons into _ ih =>
    rw [address, List.map_cons, ancestorsFrom, into.child?, List.map_cons, List.map_cons]
    refine congrArg₂ List.cons ?_ (ih _)
    cases into <;> rfl

theorem Leads.sinksAround_eq (leads : e.Leads frames n) :
    sinksAround frames = (e.listenersAround (address frames)).map Listener.sink := by
  have traits := congrArg (fun ts => ts.reverse.filterMap Prod.fst) (leads.traits [])
  simp only [← List.map_reverse, List.filterMap_map] at traits
  rw [listenersAround, List.map_filterMap]
  exact traits.symm

theorem Leads.sinks_unwind (leads : e.Leads frames n) :
    (unwind frames).sinks = (e.listenersLeft (address frames)).map Listener.sink := by
  have traits := congrArg (fun ts => (ts.reverse.takeWhile fun t => !t.2).filterMap Prod.fst)
    (leads.traits [])
  simp only [← List.map_reverse, List.takeWhile_map, List.filterMap_map] at traits
  rw [(unwind_eq frames).2, listenersLeft, List.map_filterMap]
  exact traits.symm

theorem Leads.isNone_unwind (leads : e.Leads frames n) :
    (unwind frames).next.isNone = e.completedAt (address frames) := by
  have traits := congrArg (fun ts => ts.all fun t => !t.2) (leads.traits [])
  simp only [List.all_map] at traits
  rw [(unwind_eq frames).1]
  exact traits.symm

end Expr

/-! ### Ends -/

/-- A branch, with its last captured values, that fails, or whose awaited event came at a node
without children. -/
structure End where
  branch : Branch
  /-- The error of a branch that fails. -/
  error : Option EvalError

namespace End

def id (x : End) : ℕ := x.branch.id

/-- The address of the node where the branch stood. -/
def address (x : End) : List ℕ := TracePattern.address x.branch.frames

/-- How the recorded nodes see the branch. -/
def outcome (x : End) : Outcome := if x.error.isSome then .failed else .successful

/-- The recorded nodes that hear of the branch, innermost first: all around a branch that fails, and
the ones that are left by a branch that is done with its node. -/
def listeners (x : End) (tree : Expr) : List Listener :=
  if x.error.isSome then tree.listenersAround x.address else tree.listenersLeft x.address

/-- The reports to these nodes. -/
def reports (x : End) (path : ℕ) (tree : Expr) : List Report :=
  (x.listeners tree).map fun l => ⟨l.sink, x.branch.recorded path x.outcome x.error⟩

/-- The result of the branch, if this is its end. -/
def finish? (x : End) (tree : Expr) : Option Finish :=
  if x.error.isSome || tree.completedAt x.address then some (x.branch.finish x.outcome x.error)
  else none

end End

mutual
/-- The ends in a reaction of branch `id`, in their order in time. -/
def Reaction.ends (path id : ℕ) : Reaction → Tally → List End
  | .stay _, _ => []
  | .fail s e, _ => [⟨s.branch id, some e⟩]
  | .leave s, _ => [⟨s.branch id, none⟩]
  | .descend followers, t =>
    Reaction.endsAll path (id :: List.range' t.nextId (followers.length - 1)) followers
      (t.allocate (followers.length - 1))
  | .group _ members, t =>
    Reaction.endsAll path (List.range' t.nextId members.length) members (t.allocate members.length)

/-- The ends in several reactions, of branches with the given numbers. -/
def Reaction.endsAll (path : ℕ) : List ℕ → List Reaction → Tally → List End
  | id :: ids, r :: rest, t =>
    r.ends path id t ++ Reaction.endsAll path ids rest (r.deliver path id t).2
  | [], _, _ => []
  | _ :: _, [], _ => []
end

/-- The branches that fail, or are done with a node without children, when the event comes; in their
order in time. -/
def Path.ends (p : Path) (event : Record) : List End :=
  if p.closed then []
  else Reaction.endsAll p.id (p.running.map Branch.id)
    ((p.running.map Branch.strand).map (Strand.react event 0)) ⟨p.nextId, 0, []⟩

/-! ### Sound reactions -/

/-- The event is the one that the strand waited for. -/
def Strand.Held (event : Record) (s : Strand) : Prop :=
  ∃ c before, s.cursor = .event c none ∧ (c.evaluate event before).1 = s.captures ∧
    (c.evaluate event before).2.guarded = .ok true

/-- A strand at a place of the expression. -/
def Strand.Stands (tree : Expr) (s : Strand) : Prop := tree.Stands s.frames s.cursor

mutual
/-- The reaction to the event of a strand that stood, inside the given frames, in the expression: all
strands in it do so too. -/
def Reaction.Sound (tree : Expr) (event : Record) (frames : List Frame) : Reaction → Prop
  | .stay s => s.frames = frames ∧ s.Stands tree
  | .fail s _ => s.frames = frames ∧ s.Stands tree
  | .leave s => s.frames = frames ∧ s.Stands tree ∧ s.Held event
  | .descend followers => Reaction.SoundAll tree event frames followers
  | .group router members =>
    router.frames = frames ∧ router.Stands tree ∧ Reaction.SoundAll tree event frames members

/-- The same for the reactions of several strands further in. -/
def Reaction.SoundAll (tree : Expr) (event : Record) (frames : List Frame) : List Reaction → Prop
  | [] => True
  | r :: rest => (∃ inner, r.Sound tree event (frames ++ inner)) ∧
      Reaction.SoundAll tree event frames rest
end

theorem Reaction.soundAll_iff {tree : Expr} {event : Record} {frames : List Frame}
    {rs : List Reaction} : Reaction.SoundAll tree event frames rs ↔
      ∀ r ∈ rs, ∃ inner, r.Sound tree event (frames ++ inner) := by
  induction rs with
  | nil => simp [Reaction.SoundAll]
  | cons r rest ih => simp [Reaction.SoundAll, ih]

namespace Strand

variable {tree : Expr} {event : Record} {passed : ℕ} {s : Strand}

theorem look_leave (left : (s.look event passed).2 = .leave) :
    (s.look event passed).1.Held event := by
  unfold look at left ⊢
  dsimp only at left ⊢
  split at left
  · cases left
  · cases left
  · unfold meet at left ⊢
    dsimp only at left ⊢
    split at left
    · rename_i c children cursor
      dsimp only at left
      split at left
      · cases left
      · cases left
      · rename_i held
        split at left
        · exact ⟨c, _, cursor, by simp, held⟩
        · cases left
    · split at left
      · cases left
      · split at left <;> cases left

/-- **The reaction of a strand at a place is sound.** -/
theorem sound_react (stands : s.Stands tree) :
    (s.react event passed).Sound tree event s.frames := by
  induction size : s.cursor.size using Nat.strongRecOn generalizing passed s with
  | ind n ih =>
    subst size
    have seen_stands : (s.look event passed).1.Stands tree := by
      simpa [Stands] using stands
    have frames := s.look_frames event passed
    have leaves := @look_leave event passed s
    have descends := @look_descend s event passed
    have groups := @look_group s event passed
    obtain ⟨n, leads, waits⟩ := stands
    rw [react_eq]
    dsimp only
    generalize s.look event passed = seen at *
    obtain ⟨seen, move⟩ := seen
    dsimp only at *
    cases move with
    | stay => exact ⟨frames, seen_stands⟩
    | fail e => exact ⟨frames, seen_stands⟩
    | leave => exact ⟨frames, seen_stands, leaves rfl⟩
    | descend children =>
      obtain ⟨c, cursor⟩ := descends rfl
      rw [cursor] at waits
      cases waits
      refine Reaction.soundAll_iff.2 fun r mem => ?_
      obtain ⟨t, ht, rfl⟩ := List.mem_map.1 mem
      have smaller := smaller_strandsAt_children cursor t ht
      obtain ⟨start, hs, rfl⟩ := List.mem_map.1 ht
      have follower : Stands tree ⟨seen.captures, s.frames ++ start.frames, start.cursor⟩ :=
        (Expr.stands_of_mem_startsAt .eventThen hs).under leads
      exact ⟨start.frames, ih _ smaller follower rfl⟩
    | group key template value known =>
      obtain ⟨before, cursor, -, -⟩ := groups rfl
      rw [cursor] at waits
      cases waits
      refine ⟨frames, ⟨_, frames ▸ leads, .groupBy⟩, Reaction.soundAll_iff.2 fun r mem => ?_⟩
      obtain ⟨t, ht, rfl⟩ := List.mem_map.1 mem
      have smaller := smaller_strandsAt_template cursor t ht
      obtain ⟨start, hs, rfl⟩ := List.mem_map.1 ht
      have member : Stands tree ⟨seen.captures.insert key.name value,
          s.frames ++ [.route key value] ++ start.frames, start.cursor⟩ :=
        (Expr.stands_of_mem_starts hs).under (leads.append (.cons .groupBy .nil))
      refine ⟨.route key value :: start.frames, ?_⟩
      simpa using @ih _ smaller (s.frames.length + 1) _ member rfl

end Strand

/-- Leaving a node is reported to the recorded nodes that are left with it, and is a result if nothing
is to be done afterwards. -/
theorem Branch.effects_complete (path : ℕ) (b : Branch) (t : Tally) :
    (b.complete path t).1.reports =
        (unwind b.frames).sinks.map (fun sink => ⟨sink, b.recorded path .successful none⟩) ∧
      (b.complete path t).1.finished =
        if (unwind b.frames).next.isNone then [b.finish .successful none] else [] := by
  unfold complete
  dsimp only
  split <;> rename_i next <;> simp [next]

namespace Reaction

variable {tree : Expr} {event : Record}

mutual
/-- What runs on after a sound reaction stands in the expression. -/
theorem stands_of_mem_strands {frames : List Frame} {r : Reaction}
    (sound : r.Sound tree event frames) {s : Strand}
    (mem : s ∈ r.strands) : s.Stands tree := by
  match r with
  | .stay _ =>
    obtain rfl := List.mem_singleton.1 mem
    exact sound.2
  | .fail _ _ => cases mem
  | .leave left =>
    obtain ⟨-, ⟨n, leads, -⟩, -⟩ := sound
    unfold strands at mem
    split at mem
    · cases mem
    · rename_i outer children index next
      obtain ⟨start, hs, rfl⟩ := List.mem_map.1 mem
      obtain ⟨d, outer_leads, lists⟩ := leads.lists_of_unwind next
      exact (Expr.stands_of_mem_startsAt lists hs).under outer_leads
  | .descend followers => exact stands_of_mem_strandsOf (r := followers) sound mem
  | .group router members =>
    rcases List.mem_cons.1 mem with rfl | mem
    · exact sound.2.1
    · exact stands_of_mem_strandsOf (r := members) sound.2.2 mem

theorem stands_of_mem_strandsOf {frames : List Frame} {r : List Reaction}
    (sound : SoundAll tree event frames r) {s : Strand} (mem : s ∈ strandsOf r) : s.Stands tree := by
  match r with
  | [] => cases mem
  | first :: rest =>
    obtain ⟨⟨inner, here⟩, others⟩ := sound
    rcases List.mem_append.1 mem with mem | mem
    · exact stands_of_mem_strands here mem
    · exact stands_of_mem_strandsOf others mem
end

mutual
/-- The ends in a sound reaction are at places of the expression, and those without an error had got
the event that they waited for. -/
theorem held_of_mem_ends {frames : List Frame} {r : Reaction}
    (sound : r.Sound tree event frames) {path id : ℕ} {t : Tally} {x : End}
    (mem : x ∈ r.ends path id t) :
    x.branch.strand.Stands tree ∧ (x.error = none → x.branch.strand.Held event) := by
  match r with
  | .stay _ => cases mem
  | .fail _ _ =>
    obtain rfl := List.mem_singleton.1 mem
    exact ⟨sound.2, nofun⟩
  | .leave _ =>
    obtain rfl := List.mem_singleton.1 mem
    exact ⟨sound.2.1, fun _ => sound.2.2⟩
  | .descend followers =>
    have followers_sound : SoundAll tree event frames followers := sound
    exact held_of_mem_endsAll followers_sound mem
  | .group _ members => exact held_of_mem_endsAll sound.2.2 mem

theorem held_of_mem_endsAll {frames : List Frame} {rs : List Reaction}
    (sound : SoundAll tree event frames rs) {path : ℕ} {ids : List ℕ} {t : Tally} {x : End}
    (mem : x ∈ endsAll path ids rs t) :
    x.branch.strand.Stands tree ∧ (x.error = none → x.branch.strand.Held event) := by
  match ids, rs with
  | [], _ => simp [endsAll] at mem
  | _ :: _, [] => simp [endsAll] at mem
  | id :: ids, first :: rest =>
    obtain ⟨⟨inner, here⟩, others⟩ := sound
    rcases List.mem_append.1 mem with mem | mem
    · exact held_of_mem_ends here mem
    · exact held_of_mem_endsAll others mem
end

mutual
/-- **The reports and results of a sound reaction are those of its ends.** -/
theorem deliver_ends {frames : List Frame} {r : Reaction} (sound : r.Sound tree event frames)
    (path id : ℕ) (t : Tally) :
    (r.deliver path id t).1.reports = (r.ends path id t).flatMap (·.reports path tree) ∧
      (r.deliver path id t).1.finished = (r.ends path id t).filterMap (·.finish? tree) := by
  match r with
  | .stay _ => exact ⟨rfl, rfl⟩
  | .fail s e =>
    obtain ⟨-, n, leads, -⟩ := sound
    refine ⟨?_, rfl⟩
    simp only [deliver, Branch.fail, ends, List.flatMap_singleton, End.reports, End.listeners]
    rw [show (s.branch id).frames = s.frames from rfl, leads.sinksAround_eq, List.map_map]
    rfl
  | .leave s =>
    obtain ⟨-, ⟨n, leads, -⟩, -⟩ := sound
    obtain ⟨reports, finished⟩ := (s.branch id).effects_complete path t
    constructor
    · simp only [deliver, ends, List.flatMap_singleton, End.reports, End.listeners]
      rw [reports, show (s.branch id).frames = s.frames from rfl, leads.sinks_unwind, List.map_map]
      rfl
    · simp only [deliver, ends]
      rw [finished, show (s.branch id).frames = s.frames from rfl, leads.isNone_unwind]
      cases completed : tree.completedAt (address s.frames) <;>
        simp [End.finish?, End.address, Strand.branch, completed, End.outcome]
  | .descend followers =>
    have followers_sound : SoundAll tree event frames followers := sound
    exact deliverAll_ends followers_sound path _ _
  | .group _ members => exact deliverAll_ends sound.2.2 path _ _

theorem deliverAll_ends {frames : List Frame} {rs : List Reaction}
    (sound : SoundAll tree event frames rs) (path : ℕ) (ids : List ℕ) (t : Tally) :
    (deliverAll path ids rs t).1.reports = (endsAll path ids rs t).flatMap (·.reports path tree) ∧
      (deliverAll path ids rs t).1.finished =
        (endsAll path ids rs t).filterMap (·.finish? tree) := by
  match ids, rs with
  | [], _ => simp [endsAll, deliverAll, Effects.none]
  | _ :: _, [] => simp [endsAll, deliverAll, Effects.none]
  | id :: ids, first :: rest =>
    obtain ⟨⟨inner, here⟩, others⟩ := sound
    obtain ⟨reports, finished⟩ := deliver_ends here path id t
    obtain ⟨reports', finished'⟩ := deliverAll_ends others path ids (first.deliver path id t).2
    simp only [deliverAll, endsAll, Effects.reports_append, Effects.finished_append,
      List.flatMap_append, List.filterMap_append, reports, reports', finished, finished', and_self]
end

end Reaction

/-! ### Events of a path -/

namespace Path

variable {S : Scope} {tree : Expr} {p : Path}

theorem ends_of_open (opened : p.closed = false) (e : Record) :
    p.ends e = Reaction.endsAll p.id (p.running.map Branch.id)
      ((p.running.map Branch.strand).map (Strand.react e 0)) ⟨p.nextId, 0, []⟩ := by
  simp only [ends, opened, Bool.false_eq_true, if_false]

theorem ends_of_closed (closed : p.closed = true) (e : Record) : p.ends e = [] := if_pos closed

/-- The running branches are at places of the expression, which is within the scope. -/
structure Placed (S : Scope) (tree : Expr) (p : Path) : Prop where
  within : ∀ b ∈ p.running, b.Within S
  stands : ∀ b ∈ p.running, b.strand.Stands tree

namespace Placed

theorem start (within : tree.Within S) (id : ℕ) (name : Option String) (initial : Captures) :
    (Path.start id name tree initial).Placed S tree := by
  refine ⟨within_after within [], fun b mem => ?_⟩
  obtain ⟨s, hs, frames, cursor⟩ := Branch.place_of_mem_launch mem
  show tree.Stands b.frames b.cursor
  rw [frames, cursor]
  exact Expr.stands_of_mem_starts hs

theorem sound (h : p.Placed S tree) (e : Record) :
    Reaction.SoundAll tree e [] ((p.running.map Branch.strand).map (Strand.react e 0)) := by
  refine Reaction.soundAll_iff.2 fun r mem => ?_
  obtain ⟨s, hs, rfl⟩ := List.mem_map.1 mem
  obtain ⟨b, hb, rfl⟩ := List.mem_map.1 hs
  exact ⟨b.frames, Strand.sound_react (h.stands b hb)⟩

theorem onEvent (coherent : S.Coherent) (h : p.Placed S tree) (e : Record) :
    (p.onEvent e).1.Placed S tree := by
  cases opened : p.closed with
  | true => rwa [onEvent_of_closed opened]
  | false =>
    refine ⟨within_onEvent h.within opened e, fun b mem => ?_⟩
    refine Reaction.stands_of_mem_strandsOf (h.sound e) ?_
    exact (strands_onEvent coherent h.within opened e).mem_iff.1 (List.mem_map_of_mem mem)

theorem after (coherent : S.Coherent) (h : p.Placed S tree) (acts : List Act) :
    (p.after acts).Placed S tree :=
  after_induction h (fun _ e h _ => h.onEvent coherent e) (fun _ h => ⟨h.within, h.stands⟩) acts

/-- **The reports and results of an event are those of its ends.** -/
theorem onEvent_ends (coherent : S.Coherent) (h : p.Placed S tree) (e : Record) :
    (p.onEvent e).2.reports = (p.ends e).flatMap (·.reports p.id tree) ∧
      (p.onEvent e).1.finished = p.finished ++ (p.ends e).filterMap (·.finish? tree) := by
  cases opened : p.closed with
  | true => simp [onEvent_of_closed opened, ends_of_closed opened, Output.none]
  | false =>
    have matched : Matches S e (p.turn e) _ := turn_matches coherent h.within
    obtain ⟨reports, finished⟩ := Reaction.deliverAll_ends (h.sound e) p.id
      (p.running.map Branch.id) ⟨p.nextId, 0, []⟩
    rw [ends_of_open opened, ← reports, ← finished]
    constructor
    · simp only [Path.onEvent, opened, Bool.false_eq_true, if_false, matched.reports]
    · rw [finished_onEvent opened, matched.finished]

theorem held_of_mem_ends (h : p.Placed S tree) {e : Record} {x : End} (mem : x ∈ p.ends e) :
    x.branch.strand.Stands tree ∧ (x.error = none → x.branch.strand.Held e) := by
  cases opened : p.closed with
  | true => simp [ends_of_closed opened] at mem
  | false =>
    rw [ends_of_open opened] at mem
    exact Reaction.held_of_mem_endsAll (h.sound e) mem

end Placed

end Path

end TracePattern
