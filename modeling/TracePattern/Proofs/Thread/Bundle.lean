import Mathlib.Data.Set.Card
import TracePattern.Proofs.Thread.Basic

/-!
# Bundles of threads

A place inside an expression has threads before it: those of the node where it stands, each followed
by those of what comes after the node.  What comes after is kept in a context, which is built from
the frames around the place.

* `Bundle`, `Context`: threads, and what surrounds a place;
* `Expr.bundle`: the threads of an expression in a context;
* `Expr.bundle_iff`: they are threads of the expression, each followed by one from the context;
* `Bundle.count`: the number of threads that can be embedded in some events;
* `Expr.count_bundle`: the threads of an expression are those of its starts.
-/

namespace TracePattern

/-- Some threads. -/
abbrev Bundle := List Choice → List Obligation → Prop

/-- What surrounds a place: the events it is open to, and what comes after it. -/
structure Context where
  guard : Guard
  rest : Bundle

/-! ### Threads in a context -/

mutual
/-- The threads of an expression, followed by those of the context. -/
def Expr.bundle : Expr → Context → Link → Bundle
  | .event c, C, link => fun choices obligations =>
    ∃ others, obligations = ⟨link, C.guard.test c⟩ :: others ∧ C.rest choices others
  | .eventThen c children, C, link => fun choices obligations =>
    ∃ others, obligations = ⟨link, C.guard.test c⟩ :: others ∧
      Expr.bundleOf children C .sameOrLater choices others
  | .sequence children, C, link => Expr.bundleOf children C link
  | .filter c children, C, link => Expr.bundleOfOne c 0 children C link
  | .groupBy key template, C, link => fun choices obligations =>
    ∃ value others, choices = .key value :: others ∧
      template.bundle ⟨C.guard.keyed key value, C.rest⟩ link others obligations
  | .record _ inner, C, link => inner.bundle C link

/-- The threads of expressions one after another. -/
def Expr.bundleOf : List Expr → Context → Link → Bundle
  | [], C, _ => C.rest
  | e :: rest, C, link => e.bundle ⟨C.guard, Expr.bundleOf rest C .later⟩ link

/-- The threads of any one child of a filter. The first has the given index. -/
def Expr.bundleOfOne (c : Condition) (index : ℕ) : List Expr → Context → Link → Bundle
  | [], _, _ => fun _ _ => False
  | e :: rest, C, link => fun choices obligations =>
    (∃ others, choices = .child index :: others ∧
      e.bundle ⟨C.guard.test c, C.rest⟩ link others obligations) ∨
      Expr.bundleOfOne c (index + 1) rest C link choices obligations
end

/-- A thread of the expression, followed by one from the bundle. -/
inductive Follows (first second : Bundle) : Bundle
  | mk {choices choices' : List Choice} {obligations obligations' : List Obligation}
    (one : first choices obligations) (other : second choices' obligations') :
    Follows first second (choices ++ choices') (obligations ++ obligations')

mutual
/-- **The threads in a context are threads of the expression**, each followed by one of the
context. -/
theorem Expr.bundle_iff {e : Expr} {C : Context} {link : Link} {choices : List Choice}
    {obligations : List Obligation} :
    e.bundle C link choices obligations ↔
      Follows (Thread C.guard e link) C.rest choices obligations := by
  match e with
  | .event c =>
    constructor
    · rintro ⟨others, rfl, h⟩
      exact .mk Thread.event h
    · rintro ⟨⟨⟩, h⟩
      exact ⟨_, rfl, h⟩
  | .eventThen c children =>
    constructor
    · rintro ⟨others, rfl, h⟩
      obtain ⟨one, other⟩ := Expr.bundleOf_iff.1 h
      exact .mk (Thread.eventThen one) other
    · rintro ⟨one, other⟩
      cases one with
      | eventThen inner => exact ⟨_, rfl, Expr.bundleOf_iff.2 (.mk inner other)⟩
  | .sequence children =>
    constructor
    · intro h
      obtain ⟨one, other⟩ := Expr.bundleOf_iff.1 h
      exact .mk (Thread.sequence one) other
    · rintro ⟨one, other⟩
      cases one with
      | sequence inner => exact Expr.bundleOf_iff.2 (.mk inner other)
  | .filter c children =>
    constructor
    · intro h
      obtain ⟨i, child, hi, others, rfl, hinner⟩ := Expr.bundleOfOne_iff.1 h
      obtain ⟨one, other⟩ := hinner
      exact .mk (Thread.filter (by simpa using hi) one) other
    · rintro ⟨one, other⟩
      cases one with
      | filter chosen inner =>
        exact Expr.bundleOfOne_iff.2 ⟨_, _, chosen, _, by simp, .mk inner other⟩
  | .groupBy key template =>
    constructor
    · rintro ⟨value, others, rfl, h⟩
      obtain ⟨one, other⟩ := Expr.bundle_iff.1 h
      exact .mk (Thread.groupBy one) other
    · rintro ⟨one, other⟩
      cases one with
      | groupBy inner => exact ⟨_, _, rfl, Expr.bundle_iff.2 (.mk inner other)⟩
  | .record sink inner =>
    constructor
    · intro h
      obtain ⟨one, other⟩ := (Expr.bundle_iff (e := inner)).1 h
      exact .mk (Thread.record one) other
    · rintro ⟨one, other⟩
      cases one with
      | record one => exact (Expr.bundle_iff (e := inner)).2 (.mk one other)

theorem Expr.bundleOf_iff {es : List Expr} {C : Context} {link : Link} {choices : List Choice}
    {obligations : List Obligation} :
    Expr.bundleOf es C link choices obligations ↔
      Follows (Threads C.guard es link) C.rest choices obligations := by
  match es with
  | [] =>
    constructor
    · intro h
      exact .mk Threads.nil h
    · rintro ⟨one, other⟩
      cases one
      exact other
  | e :: rest =>
    constructor
    · intro h
      obtain ⟨one, others⟩ := Expr.bundle_iff.1 h
      obtain ⟨two, other⟩ := Expr.bundleOf_iff.1 others
      have := Follows.mk (Threads.cons one two) other
      simpa only [List.append_assoc] using this
    · rintro ⟨one, other⟩
      cases one with
      | cons first others =>
        rw [List.append_assoc, List.append_assoc]
        exact Expr.bundle_iff.2 (.mk first (Expr.bundleOf_iff.2 (.mk others other)))

theorem Expr.bundleOfOne_iff {c : Condition} {index : ℕ} {es : List Expr} {C : Context}
    {link : Link} {choices : List Choice} {obligations : List Obligation} :
    Expr.bundleOfOne c index es C link choices obligations ↔
      ∃ i child, es[i]? = some child ∧ ∃ others, choices = .child (index + i) :: others ∧
        Follows (Thread (C.guard.test c) child link) C.rest others obligations := by
  match es with
  | [] =>
    refine iff_of_false id ?_
    rintro ⟨i, child, hi, -⟩
    cases hi
  | e :: rest =>
    constructor
    · rintro (⟨others, rfl, h⟩ | h)
      · exact ⟨0, e, rfl, others, rfl, Expr.bundle_iff.1 h⟩
      · obtain ⟨i, child, hi, others, rfl, hinner⟩ := Expr.bundleOfOne_iff.1 h
        exact ⟨i + 1, child, hi, others, by rw [Nat.add_right_comm, Nat.add_assoc], hinner⟩
    · rintro ⟨i, child, hi, others, rfl, h⟩
      cases i with
      | zero =>
        cases hi
        exact .inl ⟨others, rfl, Expr.bundle_iff.2 h⟩
      | succ i =>
        refine .inr (Expr.bundleOfOne_iff.2 ⟨i, child, hi, others, ?_, h⟩)
        rw [Nat.add_right_comm, Nat.add_assoc]
end

/-! ### Places in a context -/

namespace Context

/-- Nothing surrounds the place. -/
def top : Context := ⟨.free, fun choices obligations => choices = [] ∧ obligations = []⟩

/-- The context inside a frame. -/
def enter (C : Context) : Frame → Context
  | .sequence children index => ⟨C.guard, Expr.bundleOf (children.drop (index + 1)) C .later⟩
  | .gate c _ => ⟨C.guard.test c, C.rest⟩
  | .route key value => ⟨C.guard.keyed key value, C.rest⟩
  | .record _ => C

/-- The context inside some frames. -/
def within (C : Context) (frames : List Frame) : Context := frames.foldl enter C

@[simp] theorem within_nil (C : Context) : C.within [] = C := rfl

@[simp] theorem within_cons (C : Context) (f : Frame) (frames : List Frame) :
    C.within (f :: frames) = (C.enter f).within frames := rfl

theorem within_append (C : Context) (outer inner : List Frame) :
    C.within (outer ++ inner) = (C.within outer).within inner := List.foldl_append

end Context

/-- The threads before a cursor. Those of groups that were formed already belong to other places. -/
def Cursor.bundle (cursor : Cursor) (C : Context) (link : Link) : Bundle :=
  match cursor with
  | .event c none => (Expr.event c).bundle C link
  | .event c (some children) => (Expr.eventThen c children).bundle C link
  | .router key template seen => fun choices obligations =>
    ∃ value others, choices = .key value :: others ∧ seen.has value = false ∧
      template.bundle ⟨C.guard.keyed key value, C.rest⟩ link others obligations

/-- The children of a sequence from one on are this child with the others after it. -/
theorem Expr.bundleOf_drop {children : List Expr} {index : ℕ} {child : Expr}
    (h : children[index]? = some child) (C : Context) (link : Link) :
    Expr.bundleOf (children.drop index) C link =
      child.bundle (C.enter (.sequence children index)) link := by
  obtain ⟨hlt, rfl⟩ := List.getElem?_eq_some_iff.1 h
  rw [List.drop_eq_getElem_cons hlt]
  rfl

/-! ### The first obligation -/

/-- The threads of the bundle start with an obligation that is only met by events that the guard is
open to, and whose link may be replaced. -/
def Headed (guard : Guard) (link : Link) (K : Link → Bundle) : Prop :=
  ∀ choices obligations, K link choices obligations →
    ∃ holds others, obligations = ⟨link, holds⟩ :: others ∧
      (∀ event, holds event = true → guard event = true) ∧
      ∀ link', K link' choices (⟨link', holds⟩ :: others)

/-- A thread of an event starts with the obligation of this event. -/
theorem headed_event {C : Context} {c : Condition} {link : Link} {K : Bundle} :
    Headed C.guard link fun link choices obligations =>
      ∃ others, obligations = ⟨link, C.guard.test c⟩ :: others ∧ K choices others := by
  rintro choices _ ⟨others, rfl, h⟩
  refine ⟨_, others, rfl, fun event hevent => ?_, fun _ => ⟨others, rfl, h⟩⟩
  exact (Bool.and_eq_true_iff.1 hevent).1

mutual
/-- Threads of an expression start with an obligation. -/
theorem Expr.headed {S : Scope} {e : Expr} (h : e.Within S) {C : Context} {link : Link} :
    Headed C.guard link fun link => e.bundle C link := by
  match e with
  | .event c => exact headed_event
  | .eventThen c children => exact headed_event
  | .sequence [] => exact absurd rfl h.1
  | .sequence (e :: rest) => exact Expr.headed (C := ⟨C.guard, _⟩) h.2.1
  | .filter c children =>
    intro choices obligations hK
    exact Expr.headed_one h.2.2 choices obligations hK
  | .groupBy key template =>
    rintro choices obligations ⟨value, others, rfl, hK⟩
    obtain ⟨holds, rest, rfl, guarded, relink⟩ := Expr.headed h.2 _ _ hK
    refine ⟨holds, rest, rfl, fun event he => ?_, fun link' => ⟨value, others, rfl, relink link'⟩⟩
    exact (Bool.and_eq_true_iff.1 (guarded event he)).1
  | .record sink inner => exact Expr.headed (e := inner) h

theorem Expr.headed_one {S : Scope} {c : Condition} {index : ℕ} {es : List Expr}
    (h : Expr.AllWithin S es) {C : Context} {link : Link} :
    Headed C.guard link fun link => Expr.bundleOfOne c index es C link := by
  match es with
  | [] =>
    intro choices obligations hK
    cases hK
  | e :: rest =>
    rintro choices obligations (⟨others, rfl, hK⟩ | hK)
    · obtain ⟨holds, rest, rfl, guarded, relink⟩ := Expr.headed h.1 _ _ hK
      refine ⟨holds, rest, rfl, fun event he => ?_, fun link' => .inl ⟨others, rfl, relink link'⟩⟩
      exact (Bool.and_eq_true_iff.1 (guarded event he)).1
    · obtain ⟨holds, rest, rfl, guarded, relink⟩ := Expr.headed_one h.2 _ _ hK
      exact ⟨holds, rest, rfl, guarded, fun link' => .inr (relink link')⟩
end

theorem Cursor.headed {S : Scope} {cursor : Cursor} (h : cursor.Within S) {C : Context}
    {link : Link} : Headed C.guard link fun link => cursor.bundle C link := by
  match cursor with
  | .event c none => exact headed_event
  | .event c (some children) => exact headed_event
  | .router key template seen =>
    rintro choices obligations ⟨value, others, rfl, unseen, hK⟩
    obtain ⟨holds, rest, rfl, guarded, relink⟩ := Expr.headed h.2 _ _ hK
    refine ⟨holds, rest, rfl, fun event he => ?_,
      fun link' => ⟨value, others, rfl, unseen, relink link'⟩⟩
    exact (Bool.and_eq_true_iff.1 (guarded event he)).1

/-! ### Counting -/

namespace Bundle

/-- The threads that can be embedded in some events. -/
def embedded (K : Bundle) (events : List Record) : Set (List Choice) :=
  {choices | ∃ obligations, K choices obligations ∧ Embeds obligations events}

/-- Their number. -/
noncomputable def count (K : Bundle) (events : List Record) : ℕ∞ := (embedded K events).encard

variable {K L : Bundle} {events : List Record}

theorem count_congr {more : List Record}
    (h : ∀ choices, (∃ obligations, K choices obligations ∧ Embeds obligations events) ↔
      ∃ obligations, L choices obligations ∧ Embeds obligations more) :
    count K events = count L more := by
  have : embedded K events = embedded L more := Set.ext h
  rw [count, count, this]

/-- One choice more in front changes nothing. -/
theorem count_cons (choice : Choice) :
    count (fun choices obligations => ∃ others, choices = choice :: others ∧ K others obligations)
      events = count K events := by
  have image : embedded (fun choices obligations =>
      ∃ others, choices = choice :: others ∧ K others obligations) events =
      (choice :: ·) '' embedded K events := by
    ext choices
    constructor
    · rintro ⟨obligations, ⟨others, rfl, h⟩, embeds⟩
      exact ⟨others, ⟨obligations, h, embeds⟩, rfl⟩
    · rintro ⟨others, ⟨obligations, h, embeds⟩, rfl⟩
      exact ⟨obligations, ⟨others, rfl, h⟩, embeds⟩
  rw [count, image, (List.cons_injective).encard_image, count]

/-- Threads of two bundles with different choices. -/
theorem count_or (disjoint : ∀ choices obligations obligations',
    K choices obligations → L choices obligations' → False) :
    count (fun choices obligations => K choices obligations ∨ L choices obligations) events =
      count K events + count L events := by
  have union : embedded (fun choices obligations => K choices obligations ∨ L choices obligations)
      events = embedded K events ∪ embedded L events := by
    ext choices
    constructor
    · rintro ⟨obligations, h | h, embeds⟩
      · exact .inl ⟨obligations, h, embeds⟩
      · exact .inr ⟨obligations, h, embeds⟩
    · rintro (⟨obligations, h, embeds⟩ | ⟨obligations, h, embeds⟩)
      · exact ⟨obligations, .inl h, embeds⟩
      · exact ⟨obligations, .inr h, embeds⟩
  rw [count, union, Set.encard_union_eq, count, count]
  rw [Set.disjoint_left]
  rintro choices ⟨obligations, h, -⟩ ⟨obligations', h', -⟩
  exact disjoint choices obligations obligations' h h'

theorem count_false : count (fun _ _ => False) events = 0 := by
  have : embedded (fun _ _ => False) events = ∅ := by
    ext choices
    simp [embedded]
  rw [count, this, Set.encard_empty]

end Bundle

/-- A thread of a child of a filter tells which child it is. -/
theorem Expr.head_of_bundleOfOne {c : Condition} {index : ℕ} {es : List Expr} {C : Context}
    {link : Link} {choices : List Choice} {obligations : List Obligation}
    (h : Expr.bundleOfOne c index es C link choices obligations) :
    ∃ i others, index ≤ i ∧ choices = .child i :: others := by
  obtain ⟨i, -, -, others, rfl, -⟩ := Expr.bundleOfOne_iff.1 h
  exact ⟨_, others, Nat.le_add_right _ _, rfl⟩

/-- The number of threads at some starts in a context. -/
noncomputable def countStarts (C : Context) (link : Link) (events : List Record)
    (starts : List Start) : ℕ∞ :=
  (starts.map fun s => Bundle.count (s.cursor.bundle (C.within s.frames) link) events).sum

theorem countStarts_append (C : Context) (link : Link) (events : List Record)
    (ss ts : List Start) :
    countStarts C link events (ss ++ ts) =
      countStarts C link events ss + countStarts C link events ts := by
  simp [countStarts]

theorem countStarts_under (C : Context) (link : Link) (events : List Record) (f : Frame)
    (starts : List Start) :
    countStarts C link events (starts.map (Start.under f)) =
      countStarts (C.enter f) link events starts := by
  simp [countStarts, Function.comp_def, Start.under]

mutual
/-- **The threads of an expression are those of its starts**, and each belongs to one start. -/
theorem Expr.count_bundle {S : Scope} {e : Expr} (h : e.Within S) (C : Context) (link : Link)
    (events : List Record) :
    Bundle.count (e.bundle C link) events = countStarts C link events e.starts := by
  match e with
  | .event c => simp [Expr.starts, countStarts, Cursor.bundle]
  | .eventThen c children => simp [Expr.starts, countStarts, Cursor.bundle]
  | .sequence [] => exact absurd rfl h.1
  | .sequence (e :: rest) =>
    rw [Expr.starts, Expr.startsOfFirst, countStarts_under]
    exact Expr.count_bundle h.2.1 _ link events
  | .filter c children => exact Expr.count_bundleOfOne c 0 h.2.2 C link events
  | .groupBy key template => simp [Expr.starts, countStarts, Cursor.bundle, Expr.bundle]
  | .record sink inner =>
    rw [Expr.starts, countStarts_under]
    exact Expr.count_bundle (e := inner) h C link events

theorem Expr.count_bundleOfOne {S : Scope} (c : Condition) (index : ℕ) {es : List Expr}
    (h : Expr.AllWithin S es) (C : Context) (link : Link) (events : List Record) :
    Bundle.count (Expr.bundleOfOne c index es C link) events =
      countStarts C link events (Expr.startsOfAll c index es) := by
  match es with
  | [] => exact Bundle.count_false
  | e :: rest =>
    rw [Expr.startsOfAll, countStarts_append, countStarts_under,
      ← Expr.count_bundleOfOne c (index + 1) h.2 C link events]
    show Bundle.count (fun choices obligations => _ ∨ _) events = _
    rw [Bundle.count_or, Bundle.count_cons (.child index),
      Expr.count_bundle h.1 ⟨C.guard.test c, C.rest⟩ link events]
    · rfl
    · rintro choices obligations obligations' ⟨others, rfl, -⟩ h
      obtain ⟨i, others', hi, heq⟩ := Expr.head_of_bundleOfOne h
      cases heq
      omega
end

end TracePattern
