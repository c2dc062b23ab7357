import Mathlib.Logic.Relation
import Mathlib.Tactic.Common
import TracePattern.Proofs.Scope

/-!
# Expressions without nested sequences

A sequence inside a sequence, or inside the children of a node that waits for an event, can be
replaced by its own children, and a sequence of one child by the child.

* `Expr.Flattens`: one such replacement, anywhere in an expression;
* `Part`, `Expr.parts`: the parts that a match of an expression goes through one after another. These
  have no sequences;
* `Expr.Flattens.parts`: a replacement leaves the parts as they are;
* `Expr.Sound`, `Expr.Flattens.sound`: it makes no expression malformed.
-/

namespace TracePattern

/-! ### Replacements -/

/-- The second expression is the first one with the children of a sequence in the place of the
sequence, or with the one child of a sequence in its place. -/
inductive Expr.Flattens : Expr → Expr → Prop
  | unwrap (e : Expr) : Flattens (.sequence [e]) e
  | splice (before children after : List Expr) :
    Flattens (.sequence (before ++ .sequence children :: after))
      (.sequence (before ++ children ++ after))
  | spliceThen (condition : Condition) (before children after : List Expr) :
    Flattens (.eventThen condition (before ++ .sequence children :: after))
      (.eventThen condition (before ++ children ++ after))
  | inSequence (before after : List Expr) {e f : Expr} (h : Flattens e f) :
    Flattens (.sequence (before ++ e :: after)) (.sequence (before ++ f :: after))
  | inThen (condition : Condition) (before after : List Expr) {e f : Expr} (h : Flattens e f) :
    Flattens (.eventThen condition (before ++ e :: after))
      (.eventThen condition (before ++ f :: after))
  | inFilter (condition : Condition) (before after : List Expr) {e f : Expr} (h : Flattens e f) :
    Flattens (.filter condition (before ++ e :: after)) (.filter condition (before ++ f :: after))
  | inGroup (key : KeyExtractor) {e f : Expr} (h : Flattens e f) :
    Flattens (.groupBy key e) (.groupBy key f)
  | inRecord (sink : ℕ) {e f : Expr} (h : Flattens e f) : Flattens (.record sink e) (.record sink f)

/-! ### Parts -/

/-- A node that is no sequence, with the parts of its children. -/
inductive Part
  | event (condition : Condition)
  | eventThen (condition : Condition) (parts : List Part)
  | filter (condition : Condition) (children : List (List Part))
  | groupBy (key : KeyExtractor) (template : List Part)
  | record (sink : ℕ) (inner : List Part)

namespace Expr

mutual
/-- The parts that a match of the expression goes through one after another. -/
def parts : Expr → List Part
  | .event condition => [.event condition]
  | .eventThen condition children => [.eventThen condition (partsOf children)]
  | .sequence children => partsOf children
  | .filter condition children => [.filter condition (partsEach children)]
  | .groupBy key template => [.groupBy key template.parts]
  | .record sink inner => [.record sink inner.parts]

/-- The parts of expressions one after another. -/
def partsOf : List Expr → List Part
  | [] => []
  | e :: rest => e.parts ++ partsOf rest

/-- The parts of expressions side by side. -/
def partsEach : List Expr → List (List Part)
  | [] => []
  | e :: rest => e.parts :: partsEach rest
end

theorem partsOf_append (before after : List Expr) :
    partsOf (before ++ after) = partsOf before ++ partsOf after := by
  induction before with
  | nil => rfl
  | cons e rest ih => rw [List.cons_append, partsOf, partsOf, ih, List.append_assoc]

theorem partsEach_append (before after : List Expr) :
    partsEach (before ++ after) = partsEach before ++ partsEach after := by
  induction before with
  | nil => rfl
  | cons e rest ih => rw [List.cons_append, partsEach, partsEach, ih, List.cons_append]

/-- **A replacement leaves the parts as they are.** -/
theorem Flattens.parts {e f : Expr} (h : e.Flattens f) : f.parts = e.parts := by
  have spliced (before children after : List Expr) : partsOf (before ++ children ++ after) =
      partsOf (before ++ .sequence children :: after) := by
    rw [partsOf_append, partsOf_append, partsOf_append, partsOf, Expr.parts, List.append_assoc]
  have inside {e f : Expr} (before after : List Expr) (same : f.parts = e.parts) :
      partsOf (before ++ f :: after) = partsOf (before ++ e :: after) := by
    rw [partsOf_append, partsOf_append, partsOf, partsOf, same]
  induction h with
  | unwrap e => rw [Expr.parts, partsOf, partsOf, List.append_nil]
  | splice before children after =>
    rw [Expr.parts, Expr.parts]
    exact spliced before children after
  | spliceThen condition before children after =>
    rw [Expr.parts, Expr.parts, spliced before children after]
  | inSequence before after _ ih =>
    rw [Expr.parts, Expr.parts]
    exact inside before after ih
  | inThen condition before after _ ih => rw [Expr.parts, Expr.parts, inside before after ih]
  | inFilter condition before after _ ih =>
    rw [Expr.parts, Expr.parts, partsEach_append, partsEach_append, partsEach, partsEach, ih]
  | inGroup key _ ih => rw [Expr.parts, Expr.parts, ih]
  | inRecord sink _ ih => rw [Expr.parts, Expr.parts, ih]

variable {S : Scope}

mutual
/-- An expression without empty lists of children has parts. -/
theorem parts_ne_nil {e : Expr} (h : e.Within S) : e.parts ≠ [] := by
  match e with
  | .event c => exact List.cons_ne_nil _ _
  | .eventThen c children => exact List.cons_ne_nil _ _
  | .sequence children => exact partsOf_ne_nil h.1 h.2
  | .filter c children => exact List.cons_ne_nil _ _
  | .groupBy key template => exact List.cons_ne_nil _ _
  | .record sink inner => exact List.cons_ne_nil _ _

theorem partsOf_ne_nil {es : List Expr} (some : es ≠ []) (h : AllWithin S es) :
    partsOf es ≠ [] := by
  match es with
  | [] => exact absurd rfl some
  | e :: rest =>
    intro none
    exact parts_ne_nil h.1 (List.append_eq_nil_iff.1 none).1
end

/-! ### Well-formedness -/

/-- The children of a node. -/
def children : Expr → List Expr
  | .event _ => []
  | .eventThen _ children => children
  | .sequence children => children
  | .filter _ children => children
  | .groupBy _ template => [template]
  | .record _ inner => [inner]

/-- The expression has no defect when so many nodes are above it. -/
inductive Sound : ℕ → Expr → Prop
  | node {depth : ℕ} {e : Expr} (shallow : depth ≤ maxDepth) (own : e.ownReason? = none)
    (below : ∀ child ∈ e.children, Sound (depth + 1) child) : Sound depth e

theorem sound_iff {depth : ℕ} {e : Expr} : e.Sound depth ↔ depth ≤ maxDepth ∧
    e.ownReason? = none ∧ ∀ child ∈ e.children, child.Sound (depth + 1) := by
  constructor
  · rintro ⟨shallow, own, below⟩
    exact ⟨shallow, own, below⟩
  · rintro ⟨shallow, own, below⟩
    exact .node shallow own below

mutual
/-- Whether there is a defect does not depend on the way to the expression, only on its length. -/
theorem defectAt?_eq_none {location : List Segment} {depth : ℕ} {e : Expr} :
    defectAt? location depth e = none ↔ e.Sound depth := by
  rw [defectAt?, sound_iff]
  split
  · rename_i deep
    simp [Nat.not_le.2 deep]
  · rename_i shallow
    dsimp only
    split
    · rename_i reason own
      simp [own]
    · rename_i own
      simp only [Nat.not_lt.1 shallow, own, true_and]
      match e with
      | .event c => simp [children]
      | .eventThen c children => exact defectIn?_eq_none
      | .sequence children => exact defectIn?_eq_none
      | .filter c children => exact defectIn?_eq_none
      | .groupBy key template =>
        rw [children, List.forall_mem_singleton]
        exact defectAt?_eq_none (e := template)
      | .record sink inner =>
        rw [children, List.forall_mem_singleton]
        exact defectAt?_eq_none (e := inner)

theorem defectIn?_eq_none {here : List Segment} {depth index : ℕ} {es : List Expr} :
    defectIn? here depth index es = none ↔ ∀ e ∈ es, e.Sound (depth + 1) := by
  match es with
  | [] => simp [defectIn?]
  | e :: rest =>
    rw [defectIn?, List.forall_mem_cons, ← @defectAt?_eq_none (here ++ [.child index]),
      ← @defectIn?_eq_none here depth (index + 1)]
    split <;> simp_all
end

/-- Fewer nodes above do not hurt. -/
theorem Sound.mono {depth depth' : ℕ} {e : Expr} (h : e.Sound depth) (less : depth' ≤ depth) :
    e.Sound depth' := by
  induction h generalizing depth' with
  | node shallow own _ ih =>
    exact .node (Nat.le_trans less shallow) own fun child mem => ih child mem (Nat.succ_le_succ less)

theorem ownReason?_sequence {children : List Expr} :
    (sequence children).ownReason? = none ↔ children ≠ [] := by
  simp [ownReason?]

theorem ownReason?_eventThen {condition : Condition} {children : List Expr} :
    (eventThen condition children).ownReason? = none ↔
      condition.captureKey ≠ some "" ∧ children ≠ [] := by
  by_cases unnamed : condition.captureKey = some "" <;> simp [ownReason?, unnamed]

theorem ownReason?_filter {condition : Condition} {children : List Expr} :
    (filter condition children).ownReason? = none ↔
      condition.captureKey ≠ some "" ∧ children ≠ [] := by
  by_cases unnamed : condition.captureKey = some "" <;> simp [ownReason?, unnamed]

/-- The children of a sequence can take its place: they get one node less above them. -/
theorem Sound.splice {depth : ℕ} {before children after : List Expr}
    (sound : ∀ child ∈ before ++ .sequence children :: after, child.Sound depth) :
    before ++ children ++ after ≠ [] ∧
      ∀ child ∈ before ++ children ++ after, child.Sound depth := by
  obtain ⟨-, own, inner⟩ := sound_iff.1 (sound (.sequence children) (by simp))
  refine ⟨?_, fun child mem => ?_⟩
  · have some := ownReason?_sequence.1 own
    simp [some]
  · rcases List.mem_append.1 mem with mem | mem
    · rcases List.mem_append.1 mem with mem | mem
      · exact sound child (List.mem_append_left _ mem)
      · exact (inner child mem).mono (Nat.le_succ depth)
    · exact sound child (List.mem_append_right _ (List.mem_cons_of_mem _ mem))

/-- One child can take the place of another one. -/
theorem Sound.replace {depth : ℕ} {before after : List Expr} {e f : Expr}
    (h : e.Sound depth → f.Sound depth)
    (sound : ∀ child ∈ before ++ e :: after, child.Sound depth) :
    before ++ f :: after ≠ [] ∧ ∀ child ∈ before ++ f :: after, child.Sound depth := by
  simp only [List.mem_append, List.mem_cons] at sound ⊢
  refine ⟨by simp, ?_⟩
  rintro child (mem | rfl | mem)
  · exact sound child (.inl mem)
  · exact h (sound e (.inr (.inl rfl)))
  · exact sound child (.inr (.inr mem))

/-- **A replacement makes no expression malformed.** -/
theorem Flattens.sound {e f : Expr} (h : e.Flattens f) {depth : ℕ} (sound : e.Sound depth) :
    f.Sound depth := by
  induction h generalizing depth with
  | unwrap e =>
    exact ((sound_iff.1 sound).2.2 e List.mem_cons_self).mono (Nat.le_succ depth)
  | splice before children after =>
    obtain ⟨shallow, -, below⟩ := sound_iff.1 sound
    obtain ⟨some, below⟩ := Sound.splice below
    exact .node shallow (ownReason?_sequence.2 some) below
  | spliceThen condition before children after =>
    obtain ⟨shallow, own, below⟩ := sound_iff.1 sound
    obtain ⟨some, below⟩ := Sound.splice below
    exact .node shallow (ownReason?_eventThen.2 ⟨(ownReason?_eventThen.1 own).1, some⟩) below
  | inSequence before after _ ih =>
    obtain ⟨shallow, -, below⟩ := sound_iff.1 sound
    obtain ⟨some, below⟩ := Sound.replace ih below
    exact .node shallow (ownReason?_sequence.2 some) below
  | inThen condition before after _ ih =>
    obtain ⟨shallow, own, below⟩ := sound_iff.1 sound
    obtain ⟨some, below⟩ := Sound.replace ih below
    exact .node shallow (ownReason?_eventThen.2 ⟨(ownReason?_eventThen.1 own).1, some⟩) below
  | inFilter condition before after _ ih =>
    obtain ⟨shallow, own, below⟩ := sound_iff.1 sound
    obtain ⟨some, below⟩ := Sound.replace ih below
    exact .node shallow (ownReason?_filter.2 ⟨(ownReason?_filter.1 own).1, some⟩) below
  | inGroup key _ ih =>
    obtain ⟨shallow, own, below⟩ := sound_iff.1 sound
    exact .node shallow own (List.forall_mem_singleton.2 (ih (below _ List.mem_cons_self)))
  | inRecord sink _ ih =>
    obtain ⟨shallow, own, below⟩ := sound_iff.1 sound
    exact .node shallow own (List.forall_mem_singleton.2 (ih (below _ List.mem_cons_self)))

/-- An expression without defect has none after any number of replacements, and has the same
parts. -/
theorem defect?_of_flattens {e f : Expr} (valid : e.defect? = none)
    (h : Relation.ReflTransGen Flattens e f) : f.defect? = none ∧ f.parts = e.parts := by
  induction h with
  | refl => exact ⟨valid, rfl⟩
  | tail _ last ih =>
    exact ⟨defectAt?_eq_none.2 (last.sound (defectAt?_eq_none.1 ih.1)), last.parts.trans ih.2⟩

end Expr

end TracePattern
