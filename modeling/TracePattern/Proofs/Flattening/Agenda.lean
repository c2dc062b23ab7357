import TracePattern.Proofs.Flattening.Parts
import TracePattern.Proofs.Step

/-!
# What is still to come

Where a branch stands shows without sequences as an agenda: the parts that come later, the last of
them first, with the filters, groups and recorded nodes in between. Places in expressions with the
same parts have the same agendas.

* `Item`, `agenda`, `Stand`, `Outline`: a place without sequences;
* `Part.openings`, `Expr.starts_outline`, `startsAt_outline`: the outlines of the places at which a
  match starts are known from the parts;
* `gates_agenda`, `sinksAround_agenda`: gates and sinks are in the agenda;
* `settle`, `unwind_agenda`: nodes are left as the agenda says.
-/

namespace TracePattern

/-! ### Outlines -/

/-- An entry of an agenda: a part that comes later, or a node around all that comes after. -/
inductive Item
  | todo (part : Part)
  | around (frame : Frame)

/-- A sequence shows as the parts that it still has after the current child. -/
def Frame.items : Frame → List Item
  | .sequence children index => (Expr.partsOf (children.drop (index + 1))).reverse.map .todo
  | f => [.around f]

/-- Frames without sequences. -/
def agenda (frames : List Frame) : List Item := frames.flatMap Frame.items

/-- A cursor without sequences. -/
inductive Stand
  | event (condition : Condition) (children : Option (List Part))
  | router (key : KeyExtractor) (template : List Part) (seen : KeySet)

def Cursor.stand : Cursor → Stand
  | .event condition children => .event condition (children.map Expr.partsOf)
  | .router key template seen => .router key template.parts seen

/-- A place without sequences. -/
structure Outline where
  agenda : List Item
  stand : Stand

/-- The same place seen from further out. -/
def Outline.inside (items : List Item) (o : Outline) : Outline := ⟨items ++ o.agenda, o.stand⟩

def Start.outline (s : Start) : Outline := ⟨agenda s.frames, s.cursor.stand⟩

theorem agenda_append (outer inner : List Frame) :
    agenda (outer ++ inner) = agenda outer ++ agenda inner :=
  List.flatMap_append

@[simp] theorem map_inside_nil (outlines : List Outline) :
    outlines.map (Outline.inside []) = outlines :=
  List.map_id outlines

theorem map_inside_inside (outer inner : List Item) (outlines : List Outline) :
    (outlines.map (Outline.inside inner)).map (Outline.inside outer) =
      outlines.map (Outline.inside (outer ++ inner)) := by
  simp [Outline.inside, Function.comp_def]

theorem outline_under (f : Frame) (starts : List Start) :
    (starts.map (Start.under f)).map Start.outline =
      (starts.map Start.outline).map (Outline.inside f.items) := by
  simp [Start.under, Start.outline, Outline.inside, agenda, Function.comp_def]

/-! ### Openings -/

namespace Part

mutual
/-- The outlines of the places at which a match of a part starts. -/
def openings : Part → List Outline
  | .event condition => [⟨[], .event condition none⟩]
  | .eventThen condition parts => [⟨[], .event condition (some parts)⟩]
  | .filter condition children => openingsEach condition 0 children
  | .groupBy key template => [⟨[], .router key template .empty⟩]
  | .record sink inner => (openingsOf inner).map (Outline.inside [.around (.record sink)])

/-- The same for parts one after another. -/
def openingsOf : List Part → List Outline
  | [] => []
  | first :: rest => first.openings.map (Outline.inside (rest.reverse.map .todo))

/-- The same for the children of a filter, the first of which has the given index. -/
def openingsEach (condition : Condition) (index : ℕ) : List (List Part) → List Outline
  | [] => []
  | parts :: rest =>
    (openingsOf parts).map (Outline.inside [.around (.gate condition index)]) ++
      openingsEach condition (index + 1) rest
end

theorem openingsOf_append {parts : List Part} (some : parts ≠ []) (later : List Part) :
    openingsOf (parts ++ later) =
      (openingsOf parts).map (Outline.inside (later.reverse.map .todo)) := by
  cases parts with
  | nil => exact absurd rfl some
  | cons first rest =>
    rw [List.cons_append, openingsOf, openingsOf, map_inside_inside, List.reverse_append,
      List.map_append]

end Part

variable {S : Scope}

mutual
/-- **The places at which a match starts are known from the parts.** -/
theorem Expr.starts_outline {e : Expr} (h : e.Within S) :
    e.starts.map Start.outline = Part.openingsOf e.parts := by
  match e with
  | .event c => rfl
  | .eventThen c children => rfl
  | .sequence [] => exact absurd rfl h.1
  | .sequence (first :: rest) =>
    rw [Expr.starts, Expr.startsOfFirst, outline_under, Expr.starts_outline h.2.1, Expr.parts,
      Expr.partsOf, Part.openingsOf_append (Expr.parts_ne_nil h.2.1)]
    rfl
  | .filter c children =>
    rw [Expr.starts, Expr.startsOfAll_outline c 0 h.2.2]
    simp [Expr.parts, Part.openingsOf, Part.openings]
  | .groupBy key template => rfl
  | .record sink inner =>
    rw [Expr.starts, outline_under, Expr.starts_outline (e := inner) h]
    simp [Expr.parts, Part.openingsOf, Part.openings, Outline.inside, Frame.items,
      Function.comp_def]

theorem Expr.startsOfAll_outline (c : Condition) (index : ℕ) {es : List Expr}
    (h : Expr.AllWithin S es) : (Expr.startsOfAll c index es).map Start.outline =
      Part.openingsEach c index (Expr.partsEach es) := by
  match es with
  | [] => rfl
  | e :: rest =>
    rw [Expr.startsOfAll, List.map_append, outline_under, Expr.starts_outline h.1,
      Expr.startsOfAll_outline c (index + 1) h.2, Expr.partsEach, Part.openingsEach]
    rfl
end

/-- The places at which a list of children goes on are known from the parts that are left. -/
theorem startsAt_outline {children : List Expr} (h : Expr.AllWithin S children) {index : ℕ}
    (less : index < children.length) : (startsAt children index).map Start.outline =
      Part.openingsOf (Expr.partsOf (children.drop index)) := by
  have within := h.mem (List.getElem_mem less)
  rw [startsAt, List.getElem?_eq_getElem less, List.drop_eq_getElem_cons less, Expr.partsOf,
    Part.openingsOf_append (Expr.parts_ne_nil within), ← Expr.starts_outline within]
  exact outline_under _ _

/-! ### Gates and sinks -/

/-- The frame of an entry, if it can hold events back. -/
def Item.gate? : Item → Option Frame
  | .todo _ => none
  | .around f => if f.isGate then some f else none

/-- The sink of an entry. -/
def Item.sink? : Item → Option ℕ
  | .around (.record sink) => some sink
  | _ => none

theorem filterMap_todo {α : Type} (f : Item → Option α) (none : ∀ part, f (.todo part) = none)
    (parts : List Part) : (parts.map Item.todo).filterMap f = [] := by
  rw [List.filterMap_map]
  exact List.filterMap_eq_nil_iff.2 fun part _ => none part

theorem gates_agenda (frames : List Frame) :
    frames.filter Frame.isGate = (agenda frames).filterMap Item.gate? := by
  induction frames with
  | nil => rfl
  | cons f rest ih =>
    rw [agenda, List.flatMap_cons, List.filterMap_append, List.filter_cons, ih]
    cases f with
    | sequence children index =>
      rw [Frame.items, filterMap_todo _ fun _ => rfl]
      rfl
    | _ => rfl

theorem sinksAround_agenda (frames : List Frame) :
    sinksAround frames = (agenda frames).reverse.filterMap Item.sink? := by
  unfold sinksAround
  rw [List.filterMap_reverse, List.filterMap_reverse]
  congr 1
  induction frames with
  | nil => rfl
  | cons f rest ih =>
    rw [agenda, List.flatMap_cons, List.filterMap_append, List.filterMap_cons, ih]
    cases f with
    | sequence children index =>
      rw [Frame.items, filterMap_todo _ fun _ => rfl]
      rfl
    | _ => rfl

/-! ### Leaving nodes -/

/-- Entries are left from the innermost on, up to the next part: the sinks that hear of it, and the
part with the entries around it. -/
def settle : List Item → List ℕ × Option (List Item × Part)
  | [] => ([], none)
  | item :: rest =>
    let inner := settle rest
    match inner.2 with
    | some (outer, part) => (inner.1, some (item :: outer, part))
    | none =>
      match item with
      | .todo part => (inner.1, some ([], part))
      | .around (.record sink) => (inner.1 ++ [sink], none)
      | .around _ => (inner.1, none)

theorem settle_append_of_some (items : List Item) {rest outer : List Item} {part : Part}
    (h : (settle rest).2 = some (outer, part)) :
    settle (items ++ rest) = ((settle rest).1, some (items ++ outer, part)) := by
  induction items with
  | nil => exact Prod.ext rfl h
  | cons item items ih => simp only [List.cons_append, settle, ih]

/-- The innermost of some parts that come later is the next one. -/
theorem settle_todo {rest : List Item} (none : (settle rest).2 = none) (part : Part)
    (later : List Part) : settle ((part :: later).reverse.map .todo ++ rest) =
      ((settle rest).1, some (later.reverse.map .todo, part)) := by
  have last : settle (.todo part :: rest) = ((settle rest).1, some ([], part)) := by
    rw [settle, none]
  rw [List.reverse_cons, List.map_append, List.append_assoc]
  have all := settle_append_of_some (later.reverse.map .todo) (congrArg Prod.snd last)
  simpa [last] using all

theorem Expr.AllWithin.drop {es : List Expr} (h : Expr.AllWithin S es) (n : ℕ) :
    Expr.AllWithin S (es.drop n) := by
  induction n generalizing es with
  | zero => exact h
  | succ n ih =>
    cases es with
    | nil => exact h
    | cons e rest => exact ih h.2

/-- The first part that comes next, where nodes are left for a further child. -/
def Unwound.Settles (u : Unwound) : Option (List Item × Part) → Prop
  | none => u.next = none
  | some (items, part) => ∃ outer children index later, u.next = some (outer, children, index) ∧
    Expr.partsOf (children.drop index) = part :: later ∧
    items = agenda outer ++ later.reverse.map .todo

/-- **Nodes are left as the agenda says.** -/
theorem unwind_agenda {frames : List Frame} (within : ∀ f ∈ frames, f.Within S) :
    (settle (agenda frames)).1 = (unwind frames).sinks ∧
      (unwind frames).Settles (settle (agenda frames)).2 := by
  induction frames with
  | nil => exact ⟨rfl, rfl⟩
  | cons f rest ih =>
    obtain ⟨first, others⟩ := List.forall_mem_cons.1 within
    obtain ⟨sinks, settles⟩ := ih others
    have split : agenda (f :: rest) = f.items ++ agenda rest := rfl
    unfold unwind
    dsimp only
    rw [split]
    cases later : (settle (agenda rest)).2 with
    | some next =>
      obtain ⟨items, part⟩ := next
      rw [later] at settles
      obtain ⟨outer, children, index, later', next, parts, rfl⟩ := settles
      rw [settle_append_of_some _ later, next]
      exact ⟨sinks, f :: outer, children, index, later', rfl, parts, (List.append_assoc ..).symm⟩
    | none =>
      rw [later] at settles
      rw [show (unwind rest).next = none from settles]
      cases f with
      | sequence children index =>
        dsimp only [Frame.items]
        split
        · rename_i less
          have left : Expr.partsOf (children.drop (index + 1)) ≠ [] :=
            Expr.partsOf_ne_nil (by simpa using less) (first.2.drop _)
          obtain ⟨part, later', parts⟩ := List.exists_cons_of_ne_nil left
          rw [parts, settle_todo later]
          exact ⟨sinks, [], children, index + 1, later', rfl, parts, rfl⟩
        · rename_i last
          rw [List.drop_eq_nil_of_le (Nat.not_lt.1 last)]
          refine ⟨sinks, ?_⟩
          show Unwound.Settles _ (settle (agenda rest)).2
          rw [later]
          rfl
      | _ =>
        simp only [Frame.items, List.singleton_append, settle, later]
        exact ⟨by rw [sinks], rfl⟩

end TracePattern
