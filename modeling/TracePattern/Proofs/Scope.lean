import TracePattern.Branch.Step
import TracePattern.Expr.Defect

/-!
# The parts of an expression

Whatever a branch meets on its way is a part of the expression of its path.  A scope says what the
conditions and extractors of an expression are like; it holds of all frames and cursors that come
from the expression.

* `Expr.conditions`, `Expr.extractors`: the parts that call user code;
* `Scope`, `Expr.Within`: an expression without empty lists of children, with its parts in a scope;
* `Frame.Within`, `Cursor.Within`, `Branch.Within`: the same for the place of a branch;
* `Expr.within_of_valid`: an expression without defect is within every scope of its parts;
* `Expr.starts_ne_nil`: a match of such an expression starts somewhere.
-/

namespace TracePattern

/-! ### Parts -/

namespace Expr

mutual
/-- The conditions of an expression. -/
def conditions : Expr → List Condition
  | .event c => [c]
  | .eventThen c children => c :: conditionsOf children
  | .sequence children => conditionsOf children
  | .filter c children => c :: conditionsOf children
  | .groupBy _ template => template.conditions
  | .record _ inner => inner.conditions

/-- The conditions of several expressions. -/
def conditionsOf : List Expr → List Condition
  | [] => []
  | e :: rest => e.conditions ++ conditionsOf rest
end

mutual
/-- The extractors of an expression. -/
def extractors : Expr → List KeyExtractor
  | .event _ => []
  | .eventThen _ children => extractorsOf children
  | .sequence children => extractorsOf children
  | .filter _ children => extractorsOf children
  | .groupBy key template => key :: template.extractors
  | .record _ inner => inner.extractors

/-- The extractors of several expressions. -/
def extractorsOf : List Expr → List KeyExtractor
  | [] => []
  | e :: rest => e.extractors ++ extractorsOf rest
end

/-- Extractors of one number are copies of one extractor. -/
def Coherent (e : Expr) : Prop :=
  ∀ j ∈ e.extractors, ∀ k ∈ e.extractors, j.ident = k.ident → j = k

end Expr

/-! ### Scopes -/

/-- What the conditions and extractors of an expression are like. -/
structure Scope where
  condition : Condition → Prop
  key : KeyExtractor → Prop

/-- Any conditions and extractors. -/
def Scope.all : Scope := ⟨fun _ => True, fun _ => True⟩

/-- The parts of one expression. -/
def Scope.of (e : Expr) : Scope := ⟨(· ∈ e.conditions), (· ∈ e.extractors)⟩

variable {S : Scope}

mutual
/-- No list of children is empty, and the parts are in the scope. -/
def Expr.Within (S : Scope) : Expr → Prop
  | .event c => S.condition c
  | .eventThen c children => S.condition c ∧ children ≠ [] ∧ Expr.AllWithin S children
  | .sequence children => children ≠ [] ∧ Expr.AllWithin S children
  | .filter c children => S.condition c ∧ children ≠ [] ∧ Expr.AllWithin S children
  | .groupBy key template => S.key key ∧ template.Within S
  | .record _ inner => inner.Within S

/-- The same for several expressions. -/
def Expr.AllWithin (S : Scope) : List Expr → Prop
  | [] => True
  | e :: rest => e.Within S ∧ Expr.AllWithin S rest
end

theorem Expr.AllWithin.mem {es : List Expr} (h : Expr.AllWithin S es) {e : Expr} (he : e ∈ es) :
    e.Within S := by
  induction es with
  | nil => cases he
  | cons d rest ih =>
    rw [Expr.AllWithin] at h
    rcases List.mem_cons.1 he with rfl | he
    · exact h.1
    · exact ih h.2 he

namespace Expr

mutual
theorem within_of_defectAt? {location : List Segment} {depth : Nat} {e : Expr}
    (h : defectAt? location depth e = none) (hc : ∀ c ∈ e.conditions, S.condition c)
    (hk : ∀ k ∈ e.extractors, S.key k) : e.Within S := by
  rw [defectAt?] at h
  split at h
  · cases h
  · dsimp only at h
    split at h
    · cases h
    · rename_i own
      match e with
      | .event c => exact hc c (by simp [conditions])
      | .eventThen c children =>
        refine ⟨hc c (by simp [conditions]), ?_, ?_⟩
        · rintro rfl
          simp only [ownReason?] at own
          split at own <;> simp at own
        · exact allWithin_of_defectIn? h (fun d hd => hc d (by simp [conditions, hd])) hk
      | .sequence children =>
        refine ⟨?_, allWithin_of_defectIn? h hc hk⟩
        rintro rfl
        simp [ownReason?] at own
      | .filter c children =>
        refine ⟨hc c (by simp [conditions]), ?_, ?_⟩
        · rintro rfl
          simp only [ownReason?] at own
          split at own <;> simp at own
        · exact allWithin_of_defectIn? h (fun d hd => hc d (by simp [conditions, hd])) hk
      | .groupBy key template =>
        exact ⟨hk key (by simp [extractors]),
          within_of_defectAt? h hc fun k hk' => hk k (by simp [extractors, hk'])⟩
      | .record sink inner => exact within_of_defectAt? (e := inner) h hc hk

theorem allWithin_of_defectIn? {here : List Segment} {depth index : Nat} {es : List Expr}
    (h : defectIn? here depth index es = none) (hc : ∀ c ∈ conditionsOf es, S.condition c)
    (hk : ∀ k ∈ extractorsOf es, S.key k) : AllWithin S es := by
  match es with
  | [] => trivial
  | e :: rest =>
    rw [defectIn?] at h
    split at h
    · cases h
    · rename_i first
      refine ⟨within_of_defectAt? first ?_ ?_, allWithin_of_defectIn? h ?_ ?_⟩
      · exact fun c hc' => hc c (by simp [conditionsOf, hc'])
      · exact fun k hk' => hk k (by simp [extractorsOf, hk'])
      · exact fun c hc' => hc c (by simp [conditionsOf, hc'])
      · exact fun k hk' => hk k (by simp [extractorsOf, hk'])
end

/-- An expression without defect is within every scope that has its parts. -/
theorem within_of_valid {e : Expr} (valid : e.defect? = none)
    (hc : ∀ c ∈ e.conditions, S.condition c) (hk : ∀ k ∈ e.extractors, S.key k) : e.Within S :=
  within_of_defectAt? valid hc hk

end Expr

/-! ### Places -/

/-- A frame of an expression within the scope. -/
def Frame.Within (S : Scope) : Frame → Prop
  | .sequence children _ => children ≠ [] ∧ Expr.AllWithin S children
  | .gate c _ => S.condition c
  | .route key _ => S.key key
  | .record _ => True

/-- A cursor in an expression within the scope. -/
def Cursor.Within (S : Scope) : Cursor → Prop
  | .event c none => S.condition c
  | .event c (some children) => S.condition c ∧ children ≠ [] ∧ Expr.AllWithin S children
  | .router key template _ => S.key key ∧ template.Within S

/-- Frames and a cursor of an expression within the scope. -/
def PlaceWithin (S : Scope) (frames : List Frame) (cursor : Cursor) : Prop :=
  (∀ f ∈ frames, f.Within S) ∧ cursor.Within S

/-- A branch that stands in an expression within the scope. -/
def Branch.Within (S : Scope) (b : Branch) : Prop := PlaceWithin S b.frames b.cursor

theorem Frame.within_append {outer inner : List Frame} (ho : ∀ f ∈ outer, f.Within S)
    (hi : ∀ f ∈ inner, f.Within S) : ∀ f ∈ outer ++ inner, f.Within S := by
  intro f hf
  rcases List.mem_append.1 hf with hf | hf
  · exact ho f hf
  · exact hi f hf

theorem PlaceWithin.cons {f : Frame} {frames : List Frame} {cursor : Cursor} (hf : f.Within S)
    (h : PlaceWithin S frames cursor) : PlaceWithin S (f :: frames) cursor :=
  ⟨List.forall_mem_cons.2 ⟨hf, h.1⟩, h.2⟩

theorem PlaceWithin.under {outer inner : List Frame} {cursor : Cursor}
    (ho : ∀ f ∈ outer, f.Within S) (h : PlaceWithin S inner cursor) :
    PlaceWithin S (outer ++ inner) cursor :=
  ⟨Frame.within_append ho h.1, h.2⟩

mutual
/-- The starts of an expression are places in it. -/
theorem Expr.within_starts {e : Expr} (h : e.Within S) {s : Start} (hs : s ∈ e.starts) :
    PlaceWithin S s.frames s.cursor := by
  match e with
  | .event c =>
    obtain rfl : s = _ := by simpa [Expr.starts] using hs
    exact ⟨by simp, h⟩
  | .eventThen c children =>
    obtain rfl : s = _ := by simpa [Expr.starts] using hs
    exact ⟨by simp, h⟩
  | .sequence children => exact Expr.within_startsOfFirst h.1 h.2 h.2 hs
  | .filter c children => exact Expr.within_startsOfAll h.1 h.2.2 hs
  | .groupBy key template =>
    obtain rfl : s = _ := by simpa [Expr.starts] using hs
    exact ⟨by simp, h⟩
  | .record sink inner =>
    obtain ⟨t, ht, rfl⟩ := List.mem_map.1 hs
    exact .cons (f := .record sink) trivial (Expr.within_starts (e := inner) h ht)

theorem Expr.within_startsOfFirst {all es : List Expr} (hne : all ≠ [])
    (hall : Expr.AllWithin S all) (h : Expr.AllWithin S es) {s : Start}
    (hs : s ∈ Expr.startsOfFirst all es) : PlaceWithin S s.frames s.cursor := by
  match es with
  | [] => cases hs
  | e :: rest =>
    obtain ⟨t, ht, rfl⟩ := List.mem_map.1 hs
    exact .cons (f := .sequence all 0) ⟨hne, hall⟩ (Expr.within_starts h.1 ht)

theorem Expr.within_startsOfAll {c : Condition} {i : Nat} {es : List Expr} (hc : S.condition c)
    (h : Expr.AllWithin S es) {s : Start} (hs : s ∈ Expr.startsOfAll c i es) :
    PlaceWithin S s.frames s.cursor := by
  match es with
  | [] => cases hs
  | e :: rest =>
    rcases List.mem_append.1 hs with hs | hs
    · obtain ⟨t, ht, rfl⟩ := List.mem_map.1 hs
      exact .cons (f := .gate c i) hc (Expr.within_starts h.1 ht)
    · exact Expr.within_startsOfAll hc h.2 hs
end

/-- A match of an expression without empty lists of children starts somewhere. -/
theorem Expr.starts_ne_nil {e : Expr} (h : e.Within S) : e.starts ≠ [] := by
  match e with
  | .event c => simp [Expr.starts]
  | .eventThen c children => simp [Expr.starts]
  | .sequence [] => exact absurd rfl h.1
  | .sequence (d :: rest) =>
    have := Expr.starts_ne_nil h.2.1
    simpa [Expr.starts, Expr.startsOfFirst] using this
  | .filter c [] => exact absurd rfl h.2.1
  | .filter c (d :: rest) =>
    have := Expr.starts_ne_nil h.2.2.1
    simp [Expr.starts, Expr.startsOfAll, this]
  | .groupBy key template => simp [Expr.starts]
  | .record sink inner =>
    have := Expr.starts_ne_nil (e := inner) h
    simpa [Expr.starts] using this

theorem startsAt_ne_nil {children : List Expr} (h : Expr.AllWithin S children) {i : Nat}
    (hi : i < children.length) : startsAt children i ≠ [] := by
  have := Expr.starts_ne_nil (h.mem (List.getElem_mem hi))
  simpa [startsAt, List.getElem?_eq_getElem hi] using this

theorem within_startsAt {children : List Expr} (h : Expr.AllWithin S children) {i : Nat}
    {s : Start} (hs : s ∈ startsAt children i) : PlaceWithin S s.frames s.cursor := by
  unfold startsAt at hs
  split at hs
  · rename_i child hc
    obtain ⟨t, ht, rfl⟩ := List.mem_map.1 hs
    have hmem := List.mem_of_getElem? hc
    exact .cons (f := .sequence children i) ⟨List.ne_nil_of_mem hmem, h⟩
      (Expr.within_starts (h.mem hmem) ht)
  · cases hs

/-! ### Leaving nodes -/

/-- What is left when nodes are completed was there before: the frames further out, and a sequence
with a further child. -/
theorem unwind_next {frames outer : List Frame} {children : List Expr} {index : Nat}
    (h : (unwind frames).next = some (outer, children, index)) :
    ∃ i inner, frames = outer ++ .sequence children i :: inner ∧ index = i + 1 ∧
      index < children.length := by
  induction frames generalizing outer with
  | nil => cases h
  | cons f rest ih =>
    unfold unwind at h
    dsimp only at h
    split at h
    · rename_i o c i hrest
      cases h
      obtain ⟨j, inner, rfl, hj, hlt⟩ := ih hrest
      exact ⟨j, inner, rfl, hj, hlt⟩
    · split at h
      · cases h
      · split at h
        · rename_i hlt
          cases h
          exact ⟨_, rest, rfl, rfl, hlt⟩
        · cases h
      · cases h
      · cases h

theorem within_unwind {frames outer : List Frame} {children : List Expr} {index : Nat}
    (hf : ∀ f ∈ frames, f.Within S) (h : (unwind frames).next = some (outer, children, index)) :
    (∀ f ∈ outer, f.Within S) ∧ Expr.AllWithin S children ∧ index < children.length := by
  obtain ⟨i, inner, rfl, -, hlt⟩ := unwind_next h
  refine ⟨fun f hf' => hf f (by simp [hf']), ?_, hlt⟩
  exact (hf (.sequence children i) (by simp)).2

end TracePattern
