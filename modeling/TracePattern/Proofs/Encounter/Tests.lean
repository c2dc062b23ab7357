import Mathlib.Algebra.Ring.Nat
import TracePattern.Proofs.Encounter.Basic

/-!
# How often conditions are evaluated

In one event no condition is evaluated twice for a branch, and the encounters behind a branch are no
more than the nodes at which a match below it may wait.

* `Note.tests`, `Note.steps`: evaluations and encounters in notes;
* `addressesFrom`: the nodes that a look gets to; `Encounter.tests_own`, `Encounter.once_own`;
* `Tested`: no evaluation is repeated; `tested_encounters`;
* `Expr.waitingNodes`: the nodes at which a match may wait; `length_encounters`;
* `Path.nodup_tests`: the same for an event of a path.
-/

namespace TracePattern

namespace Note

/-- For which branch a condition was evaluated, and at which node. -/
def test? : Note → Option (ℕ × List ℕ)
  | .tested branch node _ => some (branch, node)
  | _ => none

/-- The evaluations of conditions. -/
def tests (notes : List Note) : List (ℕ × List ℕ) := notes.filterMap test?

def isStep : Note → Bool
  | .stepped _ _ => true
  | _ => false

/-- How often a branch met the event. -/
def steps (notes : List Note) : ℕ := notes.countP isStep

theorem tests_append (as bs : List Note) : tests (as ++ bs) = tests as ++ tests bs :=
  List.filterMap_append

theorem steps_append (as bs : List Note) : steps (as ++ bs) = steps as + steps bs :=
  List.countP_append

theorem mem_tests {notes : List Note} {branch : ℕ} {node : List ℕ} {verdict : Except EvalError Bool}
    (mem : .tested branch node verdict ∈ notes) : (branch, node) ∈ tests notes :=
  List.mem_filterMap.2 ⟨_, mem, rfl⟩

@[simp] theorem tests_marks (marks : List String) : tests (marks.map .marked) = [] := by
  simp [tests, test?]

@[simp] theorem steps_marks (marks : List String) : steps (marks.map .marked) = 0 := by
  simp [steps, isStep, Function.comp_def]

@[simp] theorem tests_noteSpawned (b : Branch) (others : List Branch) :
    tests (b.noteSpawned others) = [] := by simp [tests, test?, Branch.noteSpawned]

@[simp] theorem steps_noteSpawned (b : Branch) (others : List Branch) :
    steps (b.noteSpawned others) = 0 := by
  simp [steps, isStep, Branch.noteSpawned, Function.comp_def]

end Note

/-! ### Looks -/

section Looks

theorem tests_find (keys : Keys) (k : KeyExtractor) (event : Record) :
    Note.tests (keys.find k event).2.2 = [] ∧ Note.steps (keys.find k event).2.2 = 0 := by
  unfold Keys.find
  split
  · exact ⟨rfl, rfl⟩
  · exact ⟨Note.tests_marks _, Note.steps_marks _⟩

/-- A frame evaluates the condition of its own node at most. -/
theorem tests_pass (event : Record) (branch : ℕ) (f : Frame) (node : List ℕ)
    (captures : Captures) (keys : Keys) :
    (Note.tests (f.pass event branch node captures keys).notes).Sublist [(branch, node)] ∧
      Note.steps (f.pass event branch node captures keys).notes = 0 := by
  cases f with
  | gate c i =>
    simp only [Frame.pass, Note.tests_append, Note.steps_append, Note.tests_marks, Note.steps_marks]
    exact ⟨.refl _, rfl⟩
  | route key value =>
    obtain ⟨tests, steps⟩ := tests_find keys key event
    simp only [Frame.pass, Note.tests_append, Note.steps_append, tests, steps]
    exact ⟨List.nil_sublist _, rfl⟩
  | sequence _ _ => exact ⟨List.nil_sublist _, rfl⟩
  | record _ => exact ⟨List.nil_sublist _, rfl⟩

/-- The addresses of the nodes of some frames, the first of which stands for a child of `node`. -/
def addressesFrom (node : List ℕ) : List Frame → List (List ℕ)
  | [] => []
  | f :: rest => node :: addressesFrom (node ++ [f.child]) rest

/-- From frame to frame the addresses get longer by one. -/
theorem lengths_addressesFrom (node : List ℕ) (frames : List Frame) :
    (addressesFrom node frames).map List.length = List.range' node.length frames.length := by
  induction frames generalizing node with
  | nil => rfl
  | cons f rest ih =>
    rw [addressesFrom, List.map_cons, ih, List.length_cons, List.range'_succ, List.length_append,
      List.length_singleton]

theorem tests_passAll (event : Record) (branch : ℕ) (frames : List Frame) (node : List ℕ)
    (captures : Captures) (keys : Keys) :
    (Note.tests (passAll event branch node captures keys frames).notes).Sublist
        ((addressesFrom node frames).map (branch, ·)) ∧
      Note.steps (passAll event branch node captures keys frames).notes = 0 := by
  induction frames generalizing node captures keys with
  | nil => exact ⟨.refl _, rfl⟩
  | cons f rest ih =>
    obtain ⟨tests, steps⟩ := tests_pass event branch f node captures keys
    unfold passAll
    dsimp only
    split
    · obtain ⟨further, more⟩ := ih (node ++ [f.child])
        (f.pass event branch node captures keys).captures
        (f.pass event branch node captures keys).keys
      rw [Note.tests_append, Note.steps_append, steps, more]
      exact ⟨tests.append further, rfl⟩
    · exact ⟨tests.trans (List.singleton_sublist.2 List.mem_cons_self), steps⟩

/-- At its cursor a branch evaluates the condition it waits for, and nothing else. -/
theorem tests_meet (event : Record) (b : Branch) (keys : Keys) :
    (Note.tests (b.meet event keys).notes).Sublist [(b.id, address b.frames)] ∧
      Note.steps (b.meet event keys).notes = 0 := by
  unfold Branch.meet
  split
  · simp only [Note.tests_append, Note.steps_append, Note.tests_marks, Note.steps_marks]
    exact ⟨.refl _, rfl⟩
  · rename_i key template seen cursor
    obtain ⟨tests, steps⟩ := tests_find keys key event
    dsimp only
    split
    · rw [tests, steps]
      exact ⟨List.nil_sublist _, rfl⟩
    · split <;> rw [tests, steps] <;> exact ⟨List.nil_sublist _, rfl⟩

end Looks

namespace Encounter

variable {event : Record} {path : ℕ}

/-- The nodes that a branch may get to with the event by itself: those of the frames that have not
let the event through before, and its own. -/
def nodes (x : Encounter) : List (List ℕ) :=
  addressesFrom (address (x.branch.frames.take x.passed)) (x.branch.frames.drop x.passed) ++
    [address x.branch.frames]

theorem lengths_nodes {x : Encounter} (inside : x.passed ≤ x.branch.frames.length) :
    x.nodes.map List.length =
      List.range' x.passed (x.branch.frames.length - x.passed + 1) := by
  rw [nodes, List.map_append, lengths_addressesFrom, List.range'_concat, List.length_drop]
  simp [address, inside]

theorem tests_look (x : Encounter) (event : Record) :
    (Note.tests (x.look event).notes).Sublist (x.nodes.map (x.branch.id, ·)) ∧
      Note.steps (x.look event).notes = 0 := by
  obtain ⟨gates, none⟩ := tests_passAll event x.branch.id (x.branch.frames.drop x.passed)
    (address (x.branch.frames.take x.passed)) x.branch.captures x.tally.keys
  rw [nodes, List.map_append]
  by_cases passed : (x.way event).verdict = .ok true
  · obtain ⟨cursor, no_step⟩ := tests_meet event
      { x.branch with captures := (x.way event).captures } (x.way event).keys
    rw [look_of_passed passed]
    simp only [Note.tests_append, Note.steps_append, no_step]
    exact ⟨gates.append cursor, none⟩
  · rw [(look_of_held_back passed).1]
    exact ⟨gates.trans (List.sublist_append_left _ _), none⟩

/-- The notes of one encounter: the branch met the event, what was noted meanwhile, and which
branches are new. -/
theorem notes_own (x : Encounter) (path : ℕ) (event : Record) :
    ∃ others, (x.own path event).1.notes = .stepped x.branch.id (address x.branch.frames) ::
      ((x.look event).notes ++ x.branch.noteSpawned others) := by
  have number : ∀ others,
      (x.look event).branch.noteSpawned others = x.branch.noteSpawned others := by
    intro others
    rw [Branch.noteSpawned, (x.look_branch event).1, Branch.noteSpawned]
  cases move : (x.look event).move with
  | stay => exact ⟨[], by simp [own, move, Effects.note, Effects.run, Branch.noteSpawned]⟩
  | fail e => exact ⟨[], by simp [own, move, Effects.note, Branch.fail, Branch.noteSpawned]⟩
  | leave =>
    simp only [own, move, Branch.complete]
    split
    · exact ⟨[], by simp [Effects.note, Branch.noteSpawned]⟩
    · exact ⟨_, by rw [← number]; rfl⟩
  | descend children => exact ⟨x.followers event, by simp only [own, move, number]; rfl⟩
  | group key template value known =>
    refine ⟨x.followers event, ?_⟩
    rw [← number]
    simp [own, move, Effects.note, Effects.run, Branch.noteSpawned]

/-- By itself a branch evaluates the conditions of the nodes that it gets to, once each, and it
meets the event once. -/
theorem tests_own (x : Encounter) (path : ℕ) (event : Record) :
    (Note.tests (x.own path event).1.notes).Sublist (x.nodes.map (x.branch.id, ·)) ∧
      Note.steps (x.own path event).1.notes = 1 := by
  obtain ⟨tests, steps⟩ := x.tests_look event
  obtain ⟨others, notes⟩ := x.notes_own path event
  rw [notes]
  constructor
  · show (Note.tests ((x.look event).notes ++ _)).Sublist _
    rwa [Note.tests_append, Note.tests_noteSpawned, List.append_nil]
  · rw [← List.singleton_append, Note.steps_append, Note.steps_append, Note.steps_noteSpawned,
      steps]
    rfl

/-- By itself a branch evaluates no condition twice, and gets no deeper than to its own node. -/
theorem once_own {x : Encounter} (path : ℕ) (event : Record)
    (inside : x.passed ≤ x.branch.frames.length) :
    (Note.tests (x.own path event).1.notes).Nodup ∧
      ∀ q ∈ Note.tests (x.own path event).1.notes,
        q.1 = x.branch.id ∧ x.passed ≤ q.2.length ∧ q.2.length ≤ x.branch.frames.length := by
  have lengths := lengths_nodes inside
  have once : x.nodes.Nodup := List.Nodup.of_map List.length (lengths ▸ List.nodup_range')
  obtain ⟨sub, -⟩ := x.tests_own path event
  refine ⟨sub.nodup (once.map fun v w same => (Prod.mk.inj same).2), fun q mem => ?_⟩
  obtain ⟨node, hn, rfl⟩ := List.mem_map.1 (sub.subset mem)
  have length := List.mem_map_of_mem (f := List.length) hn
  rw [lengths, List.mem_range'_1] at length
  refine ⟨rfl, length.1, ?_⟩
  dsimp only
  omega

/-- Followers have different numbers, that of the branch or new ones. -/
theorem ids_followers {x : Encounter} (path : ℕ) (event : Record)
    (given : x.branch.id < x.tally.nextId) :
    x.tally.nextId ≤ (x.own path event).2.nextId ∧ ((x.followers event).map Branch.id).Nodup ∧
      ∀ i ∈ (x.followers event).map Branch.id, i = x.branch.id ∨
        x.tally.nextId ≤ i ∧ i < (x.own path event).2.nextId := by
  cases move : (x.look event).move with
  | stay => simp [own, followers, move]
  | fail e => simp [own, followers, move]
  | leave =>
    simp only [own, followers, move, Branch.complete]
    split <;> simp [Tally.allocate]
  | descend children =>
    simp only [own, followers, move]
    refine ⟨Nat.le_add_right .., ?_⟩
    by_cases none : startsAt children 0 = []
    · rw [none]
      exact ⟨List.nodup_nil, List.forall_mem_nil _⟩
    rw [Branch.ids_carryOn _ _ _ none, (x.look_branch event).1, List.nodup_cons]
    simp only [Tally.allocate, Branch.length_carryOn, List.mem_cons, List.mem_range'_1]
    exact ⟨⟨fun mem => absurd mem.1 (by omega), List.nodup_range'⟩, fun i mem => mem⟩
  | group key template value known =>
    simp only [own, followers, move]
    refine ⟨Nat.le_add_right .., ?_⟩
    rw [Branch.ids_launch]
    simp only [Tally.allocate, Branch.length_launch, List.mem_range'_1]
    exact ⟨List.nodup_range', fun i mem => .inr mem⟩

end Encounter

/-! ### No evaluation is repeated -/

/-- Evaluations in a part of a step: they are for branches of the given numbers, no further out than
at some depth, or for new branches, and none is repeated. -/
structure Tested (ids : List ℕ) (depth : ℕ) (t : Tally) (tests : List (ℕ × List ℕ)) (u : Tally) :
    Prop where
  grows : t.nextId ≤ u.nextId
  once : tests.Nodup
  origin : ∀ q ∈ tests, q.1 ∈ ids ∧ depth ≤ q.2.length ∨ t.nextId ≤ q.1 ∧ q.1 < u.nextId

namespace Tested

variable {as bs : List ℕ} {depth : ℕ} {t u v : Tally} {xs ys : List (ℕ × List ℕ)}

/-- One branch after another. -/
theorem append (first : Tested as depth t xs u) (second : Tested bs depth u ys v)
    (given : ∀ i ∈ as ++ bs, i < t.nextId) (distinct : (as ++ bs).Nodup) :
    Tested (as ++ bs) depth t (xs ++ ys) v := by
  have grows := first.grows
  have grows' := second.grows
  refine ⟨grows.trans grows', List.nodup_append.2 ⟨first.once, second.once, ?apart⟩, ?origin⟩
  case apart =>
    rintro q hq _ hq' rfl
    rcases first.origin q hq with ⟨old, -⟩ | new <;>
      rcases second.origin q hq' with ⟨old', -⟩ | new'
    · exact (List.nodup_append.1 distinct).2.2 _ old _ old' rfl
    · have := given _ (List.mem_append_left _ old)
      omega
    · have := given _ (List.mem_append_right _ old')
      omega
    · omega
  case origin =>
    intro q mem
    rcases List.mem_append.1 mem with mem | mem
    · rcases first.origin q mem with ⟨old, deep⟩ | new
      · exact .inl ⟨List.mem_append_left _ old, deep⟩
      · exact .inr ⟨new.1, by omega⟩
    · rcases second.origin q mem with ⟨old, deep⟩ | new
      · exact .inl ⟨List.mem_append_right _ old, deep⟩
      · exact .inr ⟨by omega, new.2⟩

end Tested

section Encounters

variable {path passed : ℕ} {event : Record}

theorem tested_inTurn (path passed : ℕ) (event : Record) (bs : List Branch)
    (each : ∀ b ∈ bs, ∀ t : Tally, b.id < t.nextId → Tested [b.id] passed t
      (Note.tests (notesOf path event (encounters path event passed b t).1))
      (encounters path event passed b t).2) {t : Tally}
    (given : ∀ i ∈ bs.map Branch.id, i < t.nextId) (distinct : (bs.map Branch.id).Nodup) :
    Tested (bs.map Branch.id) passed t
      (Note.tests (notesOf path event (inTurn (bs.map (encounters path event passed)) t).1.flatten))
      (inTurn (bs.map (encounters path event passed)) t).2 := by
  induction bs generalizing t with
  | nil => exact ⟨Nat.le_refl _, List.nodup_nil, nofun⟩
  | cons b rest ih =>
    have first := each b List.mem_cons_self t (given _ List.mem_cons_self)
    have others := ih (fun c mem => each c (List.mem_cons_of_mem _ mem))
      (fun i mem => (given i (List.mem_cons_of_mem _ mem)).trans_le first.grows)
      (List.nodup_cons.1 distinct).2
    simp only [List.map_cons, inTurn, List.flatten_cons, notesOf_append, Note.tests_append]
    exact first.append others given distinct

/-- **With a branch and behind it no evaluation is repeated.** -/
theorem tested_encounters {b : Branch} {t : Tally} (inside : passed ≤ b.frames.length)
    (given : b.id < t.nextId) :
    Tested [b.id] passed t (Note.tests (notesOf path event (encounters path event passed b t).1))
      (encounters path event passed b t).2 := by
  induction size : b.cursor.size using Nat.strongRecOn generalizing passed b t with
  | ind n ih =>
    subst size
    let x : Encounter := ⟨b, passed, t⟩
    obtain ⟨grows, distinct, numbers⟩ := Encounter.ids_followers (x := x) path event given
    have behind := tested_inTurn path (b.frames.length + 1) event (x.followers event)
      (fun f mem u given => ih _ (Encounter.smaller_of_mem_followers mem)
        (Encounter.longer_of_mem_followers mem) given rfl)
      (t := (x.own path event).2)
      (fun i mem => by rcases numbers i mem with rfl | new <;> simp only [x] at * <;> omega)
      distinct
    obtain ⟨once, depth⟩ := Encounter.once_own (x := x) path event inside
    rw [encounters_eq]
    simp only [notesOf, List.flatMap_cons, Note.tests_append]
    refine ⟨grows.trans behind.grows, List.nodup_append.2 ⟨once, behind.once, ?apart⟩, ?origin⟩
    case apart =>
      rintro q own _ mem rfl
      obtain ⟨number, -, short⟩ := depth q own
      rcases behind.origin q mem with ⟨-, deep⟩ | new
      · simp only [x] at *
        omega
      · simp only [x] at *
        omega
    case origin =>
      intro q mem
      rcases List.mem_append.1 mem with mem | mem
      · obtain ⟨number, deep, -⟩ := depth q mem
        exact .inl ⟨List.mem_singleton.2 number, deep⟩
      · rcases behind.origin q mem with ⟨follower, deep⟩ | new
        · rcases numbers _ follower with same | new
          · exact .inl ⟨List.mem_singleton.2 same, by omega⟩
          · exact .inr ⟨new.1, new.2.trans_le behind.grows⟩
        · exact .inr ⟨grows.trans new.1, new.2⟩

end Encounters

/-! ### Nodes at which a match may wait -/

namespace Expr

mutual
/-- The number of nodes at which a branch may wait: those that wait for an event, and groups. -/
def waitingNodes : Expr → ℕ
  | .event _ => 1
  | .eventThen _ children => 1 + waitingNodesOf children
  | .sequence children => waitingNodesOf children
  | .filter _ children => waitingNodesOf children
  | .groupBy _ template => 1 + template.waitingNodes
  | .record _ inner => inner.waitingNodes

/-- The same for several expressions. -/
def waitingNodesOf : List Expr → ℕ
  | [] => 0
  | e :: rest => e.waitingNodes + waitingNodesOf rest
end

end Expr

/-- The number of nodes at which a match may wait, from the cursor on. -/
def Cursor.waitingNodes : Cursor → ℕ
  | .event _ none => 1
  | .event _ (some children) => 1 + Expr.waitingNodesOf children
  | .router _ template _ => 1 + template.waitingNodes

namespace Expr

theorem Waits.waitingNodes {n : Expr} {c : Cursor} (waits : n.Waits c) :
    c.waitingNodes = n.waitingNodes := by
  cases waits <;> simp [Cursor.waitingNodes, Expr.waitingNodes]

/-- The nodes at which matches wait that start at some places. -/
def waitingNodesAt (starts : List Start) : ℕ := (starts.map fun s => s.cursor.waitingNodes).sum

theorem waitingNodesAt_under (f : Frame) (starts : List Start) :
    waitingNodesAt (starts.map (Start.under f)) = waitingNodesAt starts := by
  rw [waitingNodesAt, List.map_map]
  rfl

mutual
/-- The matches that start in an expression share its nodes. -/
theorem waitingNodesAt_starts (e : Expr) : waitingNodesAt e.starts ≤ e.waitingNodes := by
  match e with
  | .event c => exact Nat.le_refl _
  | .eventThen c children => exact Nat.le_refl _
  | .sequence [] => exact Nat.zero_le _
  | .sequence (d :: rest) =>
    rw [starts, startsOfFirst, waitingNodesAt_under, waitingNodes, waitingNodesOf]
    exact (waitingNodesAt_starts d).trans (Nat.le_add_right ..)
  | .filter c children => exact waitingNodesAt_startsOfAll c 0 children
  | .groupBy key template => exact Nat.le_refl _
  | .record sink inner =>
    rw [starts, waitingNodesAt_under]
    exact waitingNodesAt_starts inner

theorem waitingNodesAt_startsOfAll (c : Condition) (index : ℕ) (es : List Expr) :
    waitingNodesAt (startsOfAll c index es) ≤ waitingNodesOf es := by
  match es with
  | [] => exact Nat.le_refl _
  | d :: rest =>
    have first := waitingNodesAt_starts d
    have others := waitingNodesAt_startsOfAll c (index + 1) rest
    rw [← waitingNodesAt_under (.gate c index)] at first
    simp only [waitingNodesAt, startsOfAll, List.map_append, List.sum_append, waitingNodesOf] at *
    omega
end

theorem waitingNodes_le {d : Expr} {es : List Expr} (mem : d ∈ es) :
    d.waitingNodes ≤ waitingNodesOf es := by
  induction es with
  | nil => cases mem
  | cons e rest ih =>
    rw [waitingNodesOf]
    rcases List.mem_cons.1 mem with rfl | mem
    · omega
    · have := ih mem
      omega

theorem waitingNodesAt_startsAt (children : List Expr) (index : ℕ) :
    waitingNodesAt (startsAt children index) ≤ waitingNodesOf children := by
  unfold startsAt
  split
  · rename_i child found
    rw [waitingNodesAt_under]
    exact (waitingNodesAt_starts child).trans (waitingNodes_le (List.mem_of_getElem? found))
  · exact Nat.zero_le _

theorem waitingNodesAt_strandsAt (captures : Captures) (outer : List Frame) (starts : List Start) :
    ((strandsAt captures outer starts).map fun s => s.cursor.waitingNodes).sum =
      waitingNodesAt starts := by
  rw [strandsAt, List.map_map]
  rfl

end Expr

/-- The branches behind a branch share the nodes below its own. -/
theorem Encounter.waitingNodes_followers (x : Encounter) (event : Record) :
    ((x.followers event).map fun f => f.cursor.waitingNodes).sum + 1 ≤
      x.branch.cursor.waitingNodes := by
  have strand : ∀ fs : List Branch, (fs.map fun f => f.cursor.waitingNodes) =
      (fs.map Branch.strand).map fun s => s.cursor.waitingNodes := fun fs => by
    rw [List.map_map]
    rfl
  have positive : 1 ≤ x.branch.cursor.waitingNodes := by
    unfold Cursor.waitingNodes
    split <;> omega
  unfold followers
  dsimp only
  split
  · rename_i children move
    obtain ⟨c, cursor⟩ := Branch.look_descend_cursor move
    have below := Expr.waitingNodesAt_startsAt children 0
    rw [strand, strands_carryOn, Expr.waitingNodesAt_strandsAt, cursor, Cursor.waitingNodes]
    omega
  · rename_i key template value known move
    obtain ⟨seen, cursor⟩ := Branch.look_group_cursor move
    have below := Expr.waitingNodesAt_starts template
    rw [strand, strands_launch, Expr.waitingNodesAt_strandsAt, cursor, Cursor.waitingNodes]
    omega
  · simpa using positive

section Encounters

variable {path passed : ℕ} {event : Record}

theorem length_inTurn (path passed : ℕ) (event : Record) (bs : List Branch)
    (each : ∀ b ∈ bs, ∀ t, (encounters path event passed b t).1.length ≤ b.cursor.waitingNodes)
    (t : Tally) : (inTurn (bs.map (encounters path event passed)) t).1.flatten.length ≤
      (bs.map fun b => b.cursor.waitingNodes).sum := by
  induction bs generalizing t with
  | nil => exact Nat.le_refl _
  | cons b rest ih =>
    have first := each b List.mem_cons_self t
    have others := ih (fun c mem => each c (List.mem_cons_of_mem _ mem))
      (encounters path event passed b t).2
    simp only [List.map_cons, inTurn, List.flatten_cons, List.length_append, List.sum_cons]
    omega

/-- **With a branch and behind it there are no more encounters than nodes at which a match may
wait.** -/
theorem length_encounters (b : Branch) (t : Tally) :
    (encounters path event passed b t).1.length ≤ b.cursor.waitingNodes := by
  induction size : b.cursor.size using Nat.strongRecOn generalizing passed b t with
  | ind n ih =>
    subst size
    let x : Encounter := ⟨b, passed, t⟩
    have behind := length_inTurn path (b.frames.length + 1) event (x.followers event)
      (fun f mem u => ih _ (Encounter.smaller_of_mem_followers mem) f u rfl) (x.own path event).2
    have shared := x.waitingNodes_followers event
    rw [encounters_eq, List.length_cons]
    exact (Nat.succ_le_succ behind).trans shared

theorem steps_notesOf (xs : List Encounter) : Note.steps (notesOf path event xs) = xs.length := by
  induction xs with
  | nil => rfl
  | cons x rest ih =>
    rw [notesOf, List.flatMap_cons, Note.steps_append, (x.tests_own path event).2, List.length_cons,
      Nat.add_comm]
    exact congrArg (· + 1) ih

end Encounters

/-! ### Events of a path -/

namespace Path

variable {p : Path}

/-- No condition is evaluated twice for a branch in one event. -/
theorem nodup_tests (ledger : p.Ledger) (e : Record) :
    (Note.tests (p.onEvent e).2.notes).Nodup := by
  rw [notes_encounters]
  unfold encounters meetings
  split
  · simp [notesOf, Note.tests]
  · refine (tested_inTurn p.id 0 e p.running
      (fun b _ t given => tested_encounters (Nat.zero_le _) given) (t := ⟨p.nextId, 0, []⟩)
      ?_ ?_).once
    · intro i mem
      obtain ⟨b, hb, rfl⟩ := List.mem_map.1 mem
      exact ledger.id_lt hb
    · exact List.pairwise_map.2 (ledger.ascending.imp Nat.ne_of_lt)

/-- Each running branch has its own meetings. -/
theorem forall₂_meetings (p : Path) (e : Record) : List.Forall₂ (fun b xs => xs = [] ∨
    ∃ t, xs = (TracePattern.encounters p.id e 0 b t).1) p.running (p.meetings e) := by
  unfold meetings
  split
  · exact List.forall₂_map_right_iff.2 (List.forall₂_same.2 fun _ _ => .inl rfl)
  · generalize Tally.mk p.nextId 0 [] = t
    induction p.running generalizing t with
    | nil => exact .nil
    | cons b rest ih => exact .cons (.inr ⟨t, rfl⟩) (ih _)

end Path

end TracePattern
