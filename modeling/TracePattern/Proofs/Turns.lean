import Mathlib.Data.List.Forall2
import TracePattern.Proofs.Step

/-!
# Turns

In its turn a branch gets the event alone, and then the branches behind it have their turns.  There
are several ways to take such turns, and what holds of all of them is shown here once.

* `proceed`: what was done so far, and then a turn;
* `Turns`: turns that are made of what happens to one alone and of the turns of others;
* `Turns.induction`: what is kept by one alone, with those behind it still to come, is kept by all;
* `Turns.related`: what is kept between two ways to take turns;
* `Due`, `Due.alone`, `Due.behind`, `step_turns`: steps are such turns.
-/

namespace TracePattern

/-! ### One after another -/

/-- What was done so far, and then a turn. -/
def proceed (done : Effects × Tally) (turn : Turn) : Effects × Tally :=
  (done.1 ++ (turn done.2).1, (turn done.2).2)

section Proceed

variable (done : Effects × Tally) (turn : Turn) (turns later : List Turn)

theorem proceed_none (t : Tally) : proceed (.none, t) turn = turn t := rfl

theorem proceed_runAll_nil : proceed done (runAll []) = done :=
  Prod.ext (Effects.append_none done.1) rfl

theorem proceed_runAll_cons :
    proceed done (runAll (turn :: turns)) = proceed (proceed done turn) (runAll turns) :=
  Prod.ext (Effects.append_assoc ..).symm rfl

theorem proceed_runAll_append :
    proceed done (runAll (turns ++ later)) =
      proceed (proceed done (runAll turns)) (runAll later) := by
  induction turns generalizing done with
  | nil => rw [List.nil_append, proceed_runAll_nil]
  | cons turn turns ih => rw [List.cons_append, proceed_runAll_cons, proceed_runAll_cons, ih]

end Proceed

/-! ### Turns with turns behind them -/

/-- The turn of each is what happens to it alone, and then the turns of those behind it, which have
less before them. -/
structure Turns {α : Type} (alone : α → Turn) (behind : α → Tally → List α) (turn : α → Turn) :
    Prop where
  made : ∀ a t, turn a t = proceed (alone a t) (runAll ((behind a t).map turn))
  smaller : ∃ size : α → ℕ, ∀ a t, ∀ b ∈ behind a t, size b < size a

namespace Turns

variable {α β : Type} {alone : α → Turn} {behind : α → Tally → List α} {turn : α → Turn}
  {alone' : β → Turn} {behind' : β → Tally → List β} {turn' : β → Turn}

theorem proceed_turn (made : ∀ a t, turn a t = proceed (alone a t) (runAll ((behind a t).map turn)))
    (done : Effects × Tally) (a : α) :
    proceed done (turn a) =
      proceed (proceed done (alone a)) (runAll ((behind a done.2).map turn)) := by
  unfold proceed
  rw [made]
  exact Prod.ext (Effects.append_assoc ..).symm rfl

/-- **What is kept by one alone, with those behind it still to come, is kept by all turns.** The
condition speaks of those that are to come and of what was done before. -/
theorem induction (T : Turns alone behind turn) {P : List α → Effects × Tally → Prop}
    (next : ∀ a later x, P (a :: later) x → P (behind a x.2 ++ later) (proceed x (alone a)))
    {todo : List α} {x : Effects × Tally} (first : P todo x) :
    P [] (proceed x (runAll (todo.map turn))) := by
  obtain ⟨size, smaller⟩ := T.smaller
  have several : ∀ {todo : List α},
      (∀ a ∈ todo, ∀ later x, P (a :: later) x → P later (proceed x (turn a))) →
      ∀ later x, P (todo ++ later) x → P later (proceed x (runAll (todo.map turn))) := by
    intro todo each later x h
    induction todo generalizing x with
    | nil => rwa [List.map_nil, proceed_runAll_nil]
    | cons a rest ih =>
      rw [List.map_cons, proceed_runAll_cons]
      exact ih (fun b mem => each b (List.mem_cons_of_mem _ mem)) _
        (each a List.mem_cons_self (rest ++ later) x h)
  have one : ∀ a later x, P (a :: later) x → P later (proceed x (turn a)) := by
    intro a
    induction measure : size a using Nat.strongRecOn generalizing a with
    | ind n ih =>
      subst measure
      intro later x h
      rw [proceed_turn T.made]
      exact several (fun b mem => ih _ (smaller a x.2 b mem) b rfl) later _ (next a later x h)
  exact several (fun a _ => one a) [] x ((List.append_nil todo).symm ▸ first)

/-- **Two ways to take turns go on alike**, if it is kept between them that those that are to come
are alike and that alike things were done. -/
theorem related (T : Turns alone behind turn)
    (made : ∀ b t, turn' b t = proceed (alone' b t) (runAll ((behind' b t).map turn')))
    {A : α → β → Prop} {R : Effects × Tally → Effects × Tally → Prop}
    (next : ∀ {a b x y}, A a b → R x y → R (proceed x (alone a)) (proceed y (alone' b)) ∧
      List.Forall₂ A (behind a x.2) (behind' b y.2))
    {as : List α} {bs : List β} (alike : List.Forall₂ A as bs) {x y : Effects × Tally}
    (before : R x y) :
    R (proceed x (runAll (as.map turn))) (proceed y (runAll (bs.map turn'))) := by
  -- What the other side has still to do leads to the same end all the time.
  let P (todo : List α) (x : Effects × Tally) : Prop :=
    ∃ others y', List.Forall₂ A todo others ∧ R x y' ∧
      proceed y' (runAll (others.map turn')) = proceed y (runAll (bs.map turn'))
  have kept : ∀ a later x, P (a :: later) x →
      P (behind a x.2 ++ later) (proceed x (alone a)) := by
    rintro a later x ⟨_, y', alike, before, rest⟩
    cases alike with
    | @cons _ b _ others first alike =>
      obtain ⟨after, followers⟩ := next first before
      refine ⟨behind' b y'.2 ++ others, _, List.rel_append followers alike, after, ?_⟩
      rw [← rest, List.map_append, List.map_cons, proceed_runAll_append, proceed_runAll_cons,
        proceed_turn made]
  have first : P as x := ⟨bs, y, alike, before, rfl⟩
  obtain ⟨others, y', alike, after, same⟩ := T.induction kept first
  cases alike
  rwa [← same, List.map_nil, proceed_runAll_nil]

/-- What happens to each alone, and who is behind it, makes the turns. -/
theorem unique (T : Turns alone behind turn) {other : α → Turn}
    (made : ∀ a t, other a t = proceed (alone a t) (runAll ((behind a t).map other)))
    (as : List α) (t : Tally) : runAll (as.map turn) t = runAll (as.map other) t := by
  have same (as : List α) : List.Forall₂ Eq as as := List.forall₂_same.2 fun _ _ => rfl
  refine T.related made (R := Eq) ?_ (same as) (x := (.none, t)) (y := (.none, t)) rfl
  rintro a _ x _ rfl rfl
  exact ⟨rfl, same _⟩

end Turns

/-! ### Steps -/

/-- What goes on in the same event is a part of the node of this cursor. -/
def Move.From (cursor : Cursor) : Move → Prop
  | .descend children => ∃ c, cursor = .event c (some children)
  | .group key template _ _ => ∃ seen, cursor = .router key template seen
  | _ => True

/-- A branch only goes on to parts of the node where it stands. -/
theorem Branch.from_look (b : Branch) (event : Record) (passed : ℕ) (keys : Keys) :
    (b.look event passed keys).move.From b.cursor := by
  cases met : (b.look event passed keys).move with
  | descend children => exact look_descend_cursor met
  | group key template value known => exact look_group_cursor met
  | _ => trivial

namespace Look

/-- The branches that get the event next, of a branch inside `frames` that saw it so: those that
start on the children of its node, or those of a new group. -/
def followers (seen : Look) (frames : List Frame) (next : ℕ) : List Branch :=
  match seen.move with
  | .descend children => seen.branch.carryOn frames (startsAt children 0) next
  | .group key template value _ =>
    Branch.launch (seen.branch.captures.insert key.name value) (frames ++ [.route key value])
      template.starts next
  | _ => []

/-- What becomes of a branch that saw an event so. The tally counts the numbers of those that
follow. -/
def act (seen : Look) (path : ℕ) (followers : List Branch) : Turn := fun tally =>
  match seen.move with
  | .stay => (.run seen.branch, tally)
  | .fail e => (seen.branch.fail path e, tally)
  | .leave => seen.branch.complete path tally
  | .descend _ =>
    (.note (seen.branch.noteSpawned followers), tally.allocate (followers.length - 1))
  | .group key template _ known =>
    let router := { seen.branch with cursor := .router key template known }
    (.run router ++ .note (router.noteSpawned followers), tally.allocate followers.length)

variable {seen : Look} {frames : List Frame} {next : ℕ} {f : Branch}

/-- A branch that follows stands one frame further in, or more: in a sequence at its first child, or
in the new group. -/
theorem frames_of_mem_followers (mem : f ∈ seen.followers frames next) :
    ∃ g inner, f.frames = frames ++ g :: inner ∧
      ((∃ children, seen.move = .descend children ∧ g = .sequence children 0) ∨
        ∃ key template value known, seen.move = .group key template value known ∧
          g = .route key value) := by
  unfold followers at mem
  split at mem
  · rename_i children move
    obtain ⟨s, hs, frames, -⟩ := Branch.place_of_mem_carryOn mem
    obtain ⟨inner, starts⟩ := frames_of_mem_startsAt hs
    exact ⟨_, inner, starts ▸ frames, .inl ⟨children, move, rfl⟩⟩
  · rename_i key template value known move
    obtain ⟨s, -, frames, -⟩ := Branch.place_of_mem_launch mem
    rw [List.append_assoc, List.singleton_append] at frames
    exact ⟨_, s.frames, frames, .inr ⟨key, template, value, known, move, rfl⟩⟩
  · cases mem

end Look

/-- A branch that is to get an event. The first `passed` of its frames let it through before. -/
structure Due where
  branch : Branch
  passed : ℕ

namespace Due

/-- The event meets the branch. -/
def look (event : Record) (d : Due) (keys : Keys) : Look := d.branch.look event d.passed keys

variable (sees : Due → Keys → Look)

/-- What the event does to the branch alone, seen in some way. -/
def alone (path : ℕ) (d : Due) : Turn := fun tally =>
  let seen := sees d tally.keys
  let after := seen.act path (seen.followers d.branch.frames tally.nextId)
    { tally with keys := seen.keys }
  (.note (.stepped d.branch.id (address d.branch.frames) :: seen.notes) ++ after.1, after.2)

/-- The branches that get the event behind this one. -/
def behind (d : Due) (tally : Tally) : List Due :=
  ((sees d tally.keys).followers d.branch.frames tally.nextId).map (⟨·, d.branch.frames.length + 1⟩)

variable {sees}

/-- A branch that follows starts on the children of the node, or in a new group. -/
theorem smaller_of_mem_followers {d : Due} {keys : Keys}
    (parts : (sees d keys).move.From d.branch.cursor) {next : ℕ} {f : Branch}
    (mem : f ∈ (sees d keys).followers d.branch.frames next) :
    f.cursor.size < d.branch.cursor.size := by
  unfold Look.followers at mem
  split at mem
  · rename_i children move
    rw [move] at parts
    obtain ⟨c, cursor⟩ := parts
    exact Branch.smaller_carryOn cursor f mem
  · rename_i key template value known move
    rw [move] at parts
    obtain ⟨seen, cursor⟩ := parts
    exact Branch.smaller_launch cursor f mem
  · cases mem

/-- The branches that follow stand in the same expression. -/
theorem within_of_mem_followers {S : Scope} {d : Due} {keys : Keys}
    (parts : (sees d keys).move.From d.branch.cursor) (within : d.branch.Within S) {next : ℕ}
    {f : Branch} (mem : f ∈ (sees d keys).followers d.branch.frames next) : f.Within S := by
  have inside := within.2
  unfold Look.followers at mem
  split at mem
  · rename_i children move
    rw [move] at parts
    obtain ⟨c, cursor⟩ := parts
    rw [cursor] at inside
    exact Branch.within_carryOn within.1 inside.2.2 f mem
  · rename_i key template value known move
    rw [move] at parts
    obtain ⟨seen, cursor⟩ := parts
    rw [cursor] at inside
    have around : ∀ g ∈ d.branch.frames ++ [.route key value], g.Within S :=
      Frame.within_append within.1 (List.forall_mem_singleton.2 inside.1)
    exact Branch.within_launch around inside.2 f mem
  · cases mem

theorem smaller_behind (parts : ∀ d keys, (sees d keys).move.From d.branch.cursor) :
    ∃ size : Due → ℕ, ∀ d t, ∀ f ∈ d.behind sees t, size f < size d := by
  refine ⟨fun d => d.branch.cursor.size, fun d t f mem => ?_⟩
  obtain ⟨b, hb, rfl⟩ := List.mem_map.1 mem
  exact smaller_of_mem_followers (parts d t.keys) hb

end Due

/-- **A step is what the event does to the branch alone, and the steps of those behind it.** -/
theorem step_turns (path : ℕ) (event : Record) :
    Turns (Due.alone (Due.look event) path) (Due.behind (Due.look event))
      fun d => step path event d.passed d.branch where
  smaller := Due.smaller_behind fun d keys => d.branch.from_look event d.passed keys
  made d t := by
    rw [step_eq]
    simp only [proceed, Due.alone, Due.behind, Due.look, Look.act, Look.followers, List.map_map]
    cases (d.branch.look event d.passed t.keys).move <;>
      simp [runAll, Effects.append_assoc, Function.comp_def]

/-- The turns of several branches that no frame has let the event through to. -/
theorem map_due {passed : ℕ} (turn : Due → Turn) (bs : List Branch) :
    (bs.map (⟨·, passed⟩)).map turn = bs.map fun b => turn ⟨b, passed⟩ := by
  rw [List.map_map]
  rfl

end TracePattern
