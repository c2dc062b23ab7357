import Mathlib.Logic.Relation
import TracePattern.Proofs.Chain

/-!
# Encounters

An event meets the running branches of a path one after another, and behind each of them the
branches that follow from it in the same event.

* `Encounter`: a branch as an event meets it; `Encounter.way`, `Encounter.look`, `Encounter.own`: what
  the event does to it alone;
* `Encounter.followers`, `Encounter.Causes`: the branches that the event meets behind it;
* `encounters`: a branch and all encounters behind it; `runAll_encounters`: steps are made of them;
* `Path.meetings`, `Path.encounters`: the encounters of an event;
* `Throughout`: what holds of every encounter, given the notes before it;
* `Encounter.Ready`, `throughout_encounters`: what each encounter hands on to those behind it.
-/

namespace TracePattern

/-- A branch as an event meets it. The first `passed` of its frames let the event through before. -/
structure Encounter where
  branch : Branch
  passed : ℕ
  /-- The free numbers and the extracted keys at that time. -/
  tally : Tally

namespace Encounter

/-- The branch after the event met it, and what the event means for it. -/
def look (x : Encounter) (event : Record) : Look := x.branch.look event x.passed x.tally.keys

/-- How the event gets through the frames that have not let it through before. -/
def way (x : Encounter) (event : Record) : Passage :=
  passAll event x.branch.id (address (x.branch.frames.take x.passed)) x.branch.captures x.tally.keys
    (x.branch.frames.drop x.passed)

/-- The branches that the event meets behind this one: those that start on the children of its node,
or those of a new group. -/
def followers (x : Encounter) (event : Record) : List Branch :=
  let seen := x.look event
  match seen.move with
  | .descend children => seen.branch.carryOn x.branch.frames (startsAt children 0) x.tally.nextId
  | .group key template value _ =>
    Branch.launch (seen.branch.captures.insert key.name value)
      (x.branch.frames ++ [.route key value]) template.starts x.tally.nextId
  | _ => []

/-- What the event does to this branch alone, and the tally with which those behind it begin. -/
def own (x : Encounter) (path : ℕ) (event : Record) : Effects × Tally :=
  let seen := x.look event
  let tally := { x.tally with keys := seen.keys }
  let notes := Effects.note (.stepped x.branch.id (address x.branch.frames) :: seen.notes)
  match seen.move with
  | .stay => (notes ++ .run seen.branch, tally)
  | .fail e => (notes ++ seen.branch.fail path e, tally)
  | .leave =>
    let after := seen.branch.complete path tally
    (notes ++ after.1, after.2)
  | .descend _ =>
    (notes ++ .note (seen.branch.noteSpawned (x.followers event)),
      tally.allocate ((x.followers event).length - 1))
  | .group key template _ known =>
    let router := { seen.branch with cursor := .router key template known }
    (notes ++ .run router ++ .note (router.noteSpawned (x.followers event)),
      tally.allocate (x.followers event).length)

/-- The event meets `y` behind `x`. Of the frames of `y`, those of `x` and one more let it through
before. -/
def Causes (event : Record) (x y : Encounter) : Prop :=
  y.branch ∈ x.followers event ∧ y.passed = x.branch.frames.length + 1

variable {x y : Encounter} {event : Record} {path : ℕ}

theorem look_branch (x : Encounter) (event : Record) :
    (x.look event).branch.id = x.branch.id ∧ (x.look event).branch.frames = x.branch.frames ∧
      (x.look event).branch.cursor = x.branch.cursor :=
  ⟨Branch.look_id .., Branch.look_frames .., Branch.look_cursor ..⟩

/-- An event that gets to the cursor meets it with what was captured on the way. -/
theorem look_of_passed (passed : (x.way event).verdict = .ok true) :
    x.look event =
      let met := Branch.meet { x.branch with captures := (x.way event).captures } event
        (x.way event).keys
      { met with notes := (x.way event).notes ++ met.notes } := by
  unfold look Branch.look
  unfold way at passed ⊢
  simp only [passed]

/-- A branch that does not let the event get to its cursor stays or fails. -/
theorem look_of_held_back (held : (x.way event).verdict ≠ .ok true) :
    (x.look event).notes = (x.way event).notes ∧
      ((x.look event).move = .stay ∨ ∃ e, (x.look event).move = .fail e) := by
  unfold look Branch.look
  unfold way at held ⊢
  dsimp only
  split
  · exact ⟨rfl, .inr ⟨_, rfl⟩⟩
  · exact ⟨rfl, .inl rfl⟩
  · exact absurd ‹_› held

/-- Only behind a branch that let the event get to its cursor there are others. -/
theorem passed_of_mem_followers {f : Branch} (mem : f ∈ x.followers event) :
    (x.way event).verdict = .ok true := by
  by_contra held
  rcases (look_of_held_back held).2 with move | ⟨e, move⟩ <;> simp [followers, move] at mem

/-- The branch, due for the event. -/
def due (x : Encounter) : Due := ⟨x.branch, x.passed⟩

theorem followers_eq (x : Encounter) (event : Record) :
    x.followers event = (x.due.look event x.tally.keys).followers x.branch.frames x.tally.nextId :=
  rfl

theorem own_eq (x : Encounter) (path : ℕ) (event : Record) :
    x.own path event = x.due.alone (Due.look event) path x.tally := by
  have looks : x.due.look event x.tally.keys = x.look event := rfl
  cases move : (x.look event).move with
  | group key template value known =>
    simp only [own, Due.alone, Look.act, looks, move]
    exact Prod.ext (Effects.append_assoc ..) rfl
  | _ =>
    simp only [own, Due.alone, Look.act, looks, move]
    rfl

/-- Followers have less before them than the branch itself. -/
theorem smaller_of_mem_followers {f : Branch} (mem : f ∈ x.followers event) :
    f.cursor.size < x.branch.cursor.size :=
  Due.smaller_of_mem_followers (x.branch.from_look event x.passed x.tally.keys)
    (x.followers_eq event ▸ mem)

/-- Followers stand further in. -/
theorem longer_of_mem_followers {f : Branch} (mem : f ∈ x.followers event) :
    x.branch.frames.length + 1 ≤ f.frames.length := by
  obtain ⟨g, inner, frames, -⟩ := Look.frames_of_mem_followers (x.followers_eq event ▸ mem)
  rw [frames, List.length_append, List.length_cons]
  omega

/-- A follower is the branch itself, further in, or is noted as new. -/
theorem spawned_of_mem_followers (path : ℕ) {f : Branch} (mem : f ∈ x.followers event) :
    f.id = x.branch.id ∨ .spawned x.branch.id f.id ∈ (x.own path event).1.notes := by
  by_cases same : f.id = x.branch.id
  · exact .inl same
  right
  have noted : ∀ b : Branch, b.id = x.branch.id →
      .spawned x.branch.id f.id ∈ b.noteSpawned (x.followers event) := by
    intro b number
    rw [← number] at same ⊢
    exact List.mem_map_of_mem (List.mem_filter.2 ⟨mem, by simpa using same⟩)
  cases move : (x.look event).move with
  | descend children =>
    simp only [own, move]
    exact List.mem_append_right _ (noted _ (x.look_branch event).1)
  | group key template value known =>
    simp only [own, move]
    refine List.mem_append_right _ (noted { (x.look event).branch with .. } ?_)
    exact (x.look_branch event).1
  | _ => simp [followers, move] at mem

end Encounter

/-! ### Turns -/

/-- What comes of several turns, one after another. -/
def inTurn {α : Type} : List (Tally → α × Tally) → Tally → List α × Tally
  | [], t => ([], t)
  | turn :: rest, t =>
    let first := turn t
    let others := inTurn rest first.2
    (first.1 :: others.1, others.2)

/-- The encounters of an event with a branch and with all branches behind it, in their order in
time. -/
def encounters (path : ℕ) (event : Record) (passed : ℕ) (b : Branch) :
    Tally → List Encounter × Tally := fun tally =>
  let x : Encounter := ⟨b, passed, tally⟩
  let behind := inTurn ((x.followers event).attach.map fun ⟨f, _⟩ =>
    encounters path event (b.frames.length + 1) f) (x.own path event).2
  (x :: behind.1.flatten, behind.2)
termination_by b.cursor.size
decreasing_by exact Encounter.smaller_of_mem_followers ‹_›

/-- The equation of `encounters`. -/
theorem encounters_eq (path : ℕ) (event : Record) (passed : ℕ) (b : Branch) (tally : Tally) :
    encounters path event passed b tally =
      let x : Encounter := ⟨b, passed, tally⟩
      let behind := inTurn
        ((x.followers event).map (encounters path event (b.frames.length + 1))) (x.own path event).2
      (x :: behind.1.flatten, behind.2) := by
  rw [encounters]
  simp only [List.attach_map_val]

section Turns

variable {path passed : ℕ} {event : Record} {bs : List Branch} {b f : Branch} {t : Tally}
  {x : Encounter} {xs : List Encounter}

/-- What comes of several branches in turn comes of one of them. -/
theorem mem_inTurn (mem : xs ∈ (inTurn (bs.map (encounters path event passed)) t).1) :
    ∃ b ∈ bs, ∃ u, xs = (encounters path event passed b u).1 := by
  induction bs generalizing t with
  | nil => cases mem
  | cons b rest ih =>
    rcases List.mem_cons.1 mem with rfl | mem
    · exact ⟨b, List.mem_cons_self, t, rfl⟩
    · obtain ⟨c, hc, u, same⟩ := ih mem
      exact ⟨c, List.mem_cons_of_mem _ hc, u, same⟩

/-- Each of several branches has its turn. -/
theorem exists_mem_inTurn (path passed : ℕ) (event : Record) (mem : b ∈ bs) (t : Tally) :
    ∃ u, (encounters path event passed b u).1 ∈
      (inTurn (bs.map (encounters path event passed)) t).1 := by
  induction bs generalizing t with
  | nil => cases mem
  | cons c rest ih =>
    rcases List.mem_cons.1 mem with rfl | mem
    · exact ⟨t, List.mem_cons_self⟩
    · obtain ⟨u, mem⟩ := ih mem (encounters path event passed c t).2
      exact ⟨u, List.mem_cons_of_mem _ mem⟩

/-- All encounters go back to the first one. -/
theorem causes_of_mem_encounters (mem : x ∈ (encounters path event passed b t).1) :
    Relation.ReflTransGen (Encounter.Causes event) ⟨b, passed, t⟩ x := by
  induction size : b.cursor.size using Nat.strongRecOn generalizing passed b t with
  | ind n ih =>
    subst size
    rw [encounters_eq] at mem
    rcases List.mem_cons.1 mem with rfl | mem
    · exact .refl
    · obtain ⟨xs, hxs, mem⟩ := List.mem_flatten.1 mem
      obtain ⟨g, follower, u, rfl⟩ := mem_inTurn hxs
      exact .head ⟨follower, rfl⟩ (ih _ (Encounter.smaller_of_mem_followers follower) mem rfl)

/-- The event does meet the branches behind a branch. -/
theorem exists_encounter_of_follower (mem : x ∈ (encounters path event passed b t).1)
    (follower : f ∈ x.followers event) :
    ∃ y ∈ (encounters path event passed b t).1, x.Causes event y ∧ y.branch = f := by
  induction size : b.cursor.size using Nat.strongRecOn generalizing passed b t with
  | ind n ih =>
    subst size
    rw [encounters_eq] at mem ⊢
    rcases List.mem_cons.1 mem with rfl | mem
    · obtain ⟨u, has_turn⟩ := exists_mem_inTurn path (b.frames.length + 1) event follower
        (Encounter.own ⟨b, passed, t⟩ path event).2
      refine ⟨⟨f, b.frames.length + 1, u⟩, ?_, ⟨follower, rfl⟩, rfl⟩
      refine List.mem_cons_of_mem _ (List.mem_flatten.2 ⟨_, has_turn, ?_⟩)
      rw [encounters_eq]
      exact List.mem_cons_self
    · obtain ⟨xs, hxs, mem⟩ := List.mem_flatten.1 mem
      obtain ⟨g, before, u, rfl⟩ := mem_inTurn hxs
      obtain ⟨y, hy, causes, same⟩ := ih _ (Encounter.smaller_of_mem_followers before) mem rfl
      exact ⟨y, List.mem_cons_of_mem _ (List.mem_flatten.2 ⟨_, hxs, hy⟩), causes, same⟩

end Turns

/-- Effects one after another. -/
def Effects.all (es : List Effects) : Effects := es.foldr (· ++ ·) .none

namespace Effects

theorem none_append (e : Effects) : none ++ e = e := rfl

theorem all_cons (e : Effects) (es : List Effects) : all (e :: es) = e ++ all es := rfl

theorem all_append (es fs : List Effects) : all (es ++ fs) = all es ++ all fs := by
  induction es with
  | nil => exact (none_append _).symm
  | cons e es ih => rw [List.cons_append, all_cons, ih, all_cons, append_assoc]

theorem running_all (es : List Effects) : (all es).running = es.flatMap running := by
  induction es with
  | nil => rfl
  | cons e es ih => rw [all_cons, running_append, ih, List.flatMap_cons]

theorem finished_all (es : List Effects) : (all es).finished = es.flatMap finished := by
  induction es with
  | nil => rfl
  | cons e es ih => rw [all_cons, finished_append, ih, List.flatMap_cons]

theorem reports_all (es : List Effects) : (all es).reports = es.flatMap reports := by
  induction es with
  | nil => rfl
  | cons e es ih => rw [all_cons, reports_append, ih, List.flatMap_cons]

theorem notes_all (es : List Effects) : (all es).notes = es.flatMap notes := by
  induction es with
  | nil => rfl
  | cons e es ih => rw [all_cons, notes_append, ih, List.flatMap_cons]

end Effects

/-- What the event does in some encounters. -/
def effectsOf (path : ℕ) (event : Record) (xs : List Encounter) : Effects :=
  .all (xs.map fun x => (x.own path event).1)

/-- What is noted in some encounters. -/
def notesOf (path : ℕ) (event : Record) (xs : List Encounter) : List Note :=
  xs.flatMap fun x => (x.own path event).1.notes

section Steps

variable {path passed : ℕ} {event : Record}

theorem notesOf_append (xs ys : List Encounter) :
    notesOf path event (xs ++ ys) = notesOf path event xs ++ notesOf path event ys :=
  List.flatMap_append

theorem notesOf_flatten (xss : List (List Encounter)) :
    notesOf path event xss.flatten = xss.flatMap (notesOf path event) := by
  induction xss with
  | nil => rfl
  | cons xs rest ih => rw [List.flatten_cons, notesOf_append, ih, List.flatMap_cons]

/-- What the event does in the encounters of a branch. -/
def meet (path : ℕ) (event : Record) (d : Due) : Turn := fun t =>
  let met := encounters path event d.passed d.branch t
  (effectsOf path event met.1, met.2)

theorem runAll_meet (path : ℕ) (event : Record) (ds : List Due) (t : Tally) :
    runAll (ds.map (meet path event)) t =
      let met := inTurn (ds.map fun d => encounters path event d.passed d.branch) t
      (effectsOf path event met.1.flatten, met.2) := by
  induction ds generalizing t with
  | nil => rfl
  | cons d rest ih =>
    simp only [List.map_cons, runAll, inTurn, ih, meet, List.flatten_cons, effectsOf,
      List.map_append, Effects.all_append]

/-- **Steps are made of encounters.** -/
theorem runAll_encounters (path passed : ℕ) (event : Record) (bs : List Branch) (t : Tally) :
    runAll (bs.map (step path event passed)) t =
      let met := inTurn (bs.map (encounters path event passed)) t
      (effectsOf path event met.1.flatten, met.2) := by
  have made : ∀ d t, meet path event d t = proceed (d.alone (Due.look event) path t)
      (runAll ((d.behind (Due.look event) t).map (meet path event))) := by
    intro d t
    have own := Encounter.own_eq ⟨d.branch, d.passed, t⟩ path event
    rw [show d.alone (Due.look event) path t = _ from own.symm, proceed, runAll_meet, meet,
      encounters_eq, Due.behind, List.map_map]
    rfl
  have turns := (step_turns path event).unique made (bs.map (⟨·, passed⟩)) t
  rw [map_due, runAll_meet, List.map_map] at turns
  exact turns

end Steps

/-! ### Events of a path -/

namespace Path

variable {p : Path} {e : Record}

/-- The encounters of an event, for each running branch those with it and behind it. A closed path
takes no events. -/
def meetings (p : Path) (e : Record) : List (List Encounter) :=
  if p.closed then p.running.map fun _ => []
  else (inTurn (p.running.map (encounters p.id e 0)) ⟨p.nextId, 0, []⟩).1

/-- The encounters of an event, in their order in time. -/
def encounters (p : Path) (e : Record) : List Encounter := (p.meetings e).flatten

theorem encounters_of_closed (closed : p.closed = true) (e : Record) : p.encounters e = [] := by
  simp [encounters, meetings, closed]

/-- **An event does what it does in its encounters.** -/
theorem turn_encounters (opened : p.closed = false) (e : Record) :
    (p.turn e).1 = effectsOf p.id e (p.encounters e) := by
  rw [turn, runAll_encounters p.id 0 e p.running]
  simp [encounters, meetings, opened]

theorem exists_encounter_of_follower {x : Encounter} {f : Branch} (mem : x ∈ p.encounters e)
    (follower : f ∈ x.followers e) : ∃ y ∈ p.encounters e, x.Causes e y ∧ y.branch = f := by
  unfold encounters meetings at mem ⊢
  split at mem
  · simp at mem
  · rename_i opened
    rw [if_neg opened]
    obtain ⟨xs, hxs, mem⟩ := List.mem_flatten.1 mem
    obtain ⟨b, -, u, rfl⟩ := mem_inTurn hxs
    obtain ⟨y, hy, causes, same⟩ := TracePattern.exists_encounter_of_follower mem follower
    exact ⟨y, List.mem_flatten.2 ⟨_, hxs, hy⟩, causes, same⟩

/-- What comes of an encounter comes out of the event. -/
theorem onEvent_of_mem_encounters {x : Encounter} (mem : x ∈ p.encounters e) :
    (x.own p.id e).1.running ⊆ (p.onEvent e).1.running ∧
      (x.own p.id e).1.finished ⊆ (p.onEvent e).1.finished := by
  cases opened : p.closed with
  | true => simp [encounters_of_closed opened] at mem
  | false =>
    have effects : (x.own p.id e).1 ∈ (p.encounters e).map fun x => (x.own p.id e).1 :=
      List.mem_map_of_mem mem
    constructor
    · intro b hb
      rw [(perm_running_onEvent opened e).mem_iff, turn_encounters opened, effectsOf,
        Effects.running_all]
      exact List.mem_flatMap.2 ⟨_, effects, hb⟩
    · intro f hf
      rw [finished_onEvent opened, turn_encounters opened, effectsOf, Effects.finished_all]
      exact List.mem_append_right _ (List.mem_flatMap.2 ⟨_, effects, hf⟩)

theorem notes_encounters (p : Path) (e : Record) :
    (p.onEvent e).2.notes = notesOf p.id e (p.encounters e) := by
  cases closed : p.closed with
  | true =>
    rw [onEvent_of_closed closed, encounters_of_closed closed]
    rfl
  | false =>
    have notes := congrArg Effects.notes (turn_encounters closed e)
    rw [effectsOf, Effects.notes_all, List.flatMap_map] at notes
    simpa [onEvent, closed, notesOf] using notes

end Path

/-! ### What holds throughout -/

/-- A condition on an encounter and the notes before it holds of all these encounters, before which
there is some history. -/
def Throughout (path : ℕ) (event : Record) (P : List Note → Encounter → Prop)
    (history : List Note) : List Encounter → Prop
  | [] => True
  | x :: rest => P history x ∧ Throughout path event P (history ++ (x.own path event).1.notes) rest

section Throughout

variable {path passed : ℕ} {event : Record} {P : List Note → Encounter → Prop} {history : List Note}
  {xs ys : List Encounter}

theorem throughout_append : Throughout path event P history (xs ++ ys) ↔
    Throughout path event P history xs ∧
      Throughout path event P (history ++ notesOf path event xs) ys := by
  induction xs generalizing history with
  | nil => simp [Throughout, notesOf]
  | cons x rest ih => simp [Throughout, notesOf, ih, and_assoc]

theorem Throughout.at {pre post : List Encounter} {x : Encounter}
    (h : Throughout path event P history xs) (split : xs = pre ++ x :: post) :
    P (history ++ notesOf path event pre) x := by
  subst split
  exact (throughout_append.1 h).2.1

theorem Throughout.of_mem (h : Throughout path event P history xs) {x : Encounter} (mem : x ∈ xs) :
    ∃ earlier, P earlier x := by
  obtain ⟨pre, post, split⟩ := List.append_of_mem mem
  exact ⟨_, h.at split⟩

end Throughout

/-! ### Ready encounters -/

/-- An event meets a branch that is at a place of the expression. The keys that were extracted are
those of the event. -/
structure Encounter.Ready (S : Scope) (tree : Expr) (event : Record) (x : Encounter) : Prop where
  within : x.branch.Within S
  stands : x.branch.strand.Stands tree
  keyed : ∀ f ∈ x.branch.frames, f.Keyed
  inside : x.passed ≤ x.branch.frames.length
  fits : x.tally.keys.Fits S event

namespace Encounter.Ready

variable {S : Scope} {tree : Expr} {event : Record} {x y : Encounter} {path : ℕ}

/-- The look of a branch, without its number. -/
theorem look (coherent : S.Coherent) (h : x.Ready S tree event) :
    (x.look event).branch = (x.branch.strand.look event x.passed).1.branch x.branch.id ∧
      (x.look event).move = (x.branch.strand.look event x.passed).2 ∧
      (x.look event).keys.Fits S event :=
  look_of_fits coherent h.within h.fits x.passed

theorem fits_own (coherent : S.Coherent) (h : x.Ready S tree event) :
    (x.own path event).2.keys.Fits S event := by
  obtain ⟨-, -, fits⟩ := h.look coherent
  cases move : (x.look event).move with
  | leave =>
    simp only [own, move, complete_keys]
    exact fits
  | _ =>
    simp only [own, move]
    exact fits

/-- **The branches behind a branch are at places of the expression too.** -/
theorem follow (coherent : S.Coherent) (h : x.Ready S tree event) (causes : x.Causes event y)
    (fits : y.tally.keys.Fits S event) : y.Ready S tree event := by
  obtain ⟨mem, passed⟩ := causes
  have inside : y.passed ≤ y.branch.frames.length := passed ▸ longer_of_mem_followers mem
  obtain ⟨-, move, -⟩ := h.look coherent
  obtain ⟨n, leads, waits⟩ := h.stands
  have cursor_within := h.within.2
  have frames : (x.look event).branch.frames = x.branch.frames := (x.look_branch event).2.1
  unfold followers at mem
  dsimp only at mem
  split at mem
  · rename_i children descends
    obtain ⟨c, cursor⟩ := Strand.look_descend (move ▸ descends)
    replace cursor : x.branch.cursor = .event c (some children) := cursor
    rw [show x.branch.strand.cursor = .event c (some children) from cursor] at waits
    rw [cursor] at cursor_within
    obtain ⟨s, hs, at_y, cursor_y⟩ := Branch.place_of_mem_carryOn mem
    cases waits
    refine ⟨Branch.within_carryOn h.within.1 cursor_within.2.2 _ mem, ?stands, ?keyed, inside, fits⟩
    case stands =>
      show tree.Stands y.branch.frames y.branch.cursor
      rw [at_y, cursor_y]
      exact (Expr.stands_of_mem_startsAt .eventThen hs).under leads
    case keyed =>
      rw [at_y]
      exact List.forall_mem_append.2 ⟨h.keyed, Expr.keyed_of_mem_startsAt hs⟩
  · rename_i key template value known groups
    obtain ⟨seen, cursor, found, -⟩ := Strand.look_group (move ▸ groups)
    replace cursor : x.branch.cursor = .router key template seen := cursor
    rw [show x.branch.strand.cursor = .router key template seen from cursor] at waits
    rw [cursor] at cursor_within
    obtain ⟨s, hs, at_y, cursor_y⟩ := Branch.place_of_mem_launch mem
    cases waits
    have outer : ∀ f ∈ x.branch.frames ++ [.route key value], f.Within S :=
      Frame.within_append h.within.1 (List.forall_mem_singleton.2 cursor_within.1)
    refine ⟨Branch.within_launch outer cursor_within.2 _ mem, ?stands, ?keyed, inside, fits⟩
    case stands =>
      show tree.Stands y.branch.frames y.branch.cursor
      rw [at_y, cursor_y]
      exact (Expr.stands_of_mem_starts hs).under (leads.append (.cons .groupBy .nil))
    case keyed =>
      rw [at_y]
      refine List.forall_mem_append.2 ⟨List.forall_mem_append.2 ⟨h.keyed, ?_⟩,
        Expr.keyed_of_mem_starts hs⟩
      exact List.forall_mem_singleton.2 (KeyExtractor.not_null_of_key? found)
  · cases mem

end Encounter.Ready

section Induction

variable {S : Scope} {tree : Expr} {path passed : ℕ} {event : Record}
  {P : List Note → Encounter → Prop}

/-- Several branches in turn, each of which keeps a condition throughout, keep it throughout. -/
theorem throughout_inTurn (coherent : S.Coherent) (history : List Note) (bs : List Branch)
    (each : ∀ b ∈ bs, b.Within S ∧ ∀ (t : Tally) later, t.keys.Fits S event → history ⊆ later →
      Throughout path event P later (encounters path event passed b t).1) {t : Tally}
    (fits : t.keys.Fits S event) {later : List Note} (sub : history ⊆ later) :
    Throughout path event P later
      (inTurn (bs.map (encounters path event passed)) t).1.flatten := by
  induction bs generalizing t later with
  | nil => trivial
  | cons b rest ih =>
    obtain ⟨within, first⟩ := each b List.mem_cons_self
    have after : (encounters path event passed b t).2.keys.Fits S event := by
      have after_step := step_fits coherent within path passed fits
      have same := congrArg Prod.snd (runAll_encounters path passed event [b] t)
      exact (show (step path event passed b t).2 = (encounters path event passed b t).2 from same) ▸
        after_step
    refine throughout_append.2 ⟨first t later fits sub, ?_⟩
    exact ih (fun c mem => each c (List.mem_cons_of_mem _ mem)) after
      (List.subset_append_of_subset_left _ sub)

/-- **What each encounter hands on to those behind it holds throughout.** The history of an
encounter has all that was noted in the one before it. -/
theorem throughout_encounters (coherent : S.Coherent)
    (follow : ∀ history x y later, x.Ready S tree event → y.Ready S tree event → x.Causes event y →
      history ++ (x.own path event).1.notes ⊆ later → P history x → P later y)
    {b : Branch} {t : Tally} {history : List Note}
    (ready : Encounter.Ready S tree event ⟨b, passed, t⟩) (first : P history ⟨b, passed, t⟩) :
    Throughout path event (fun h x => x.Ready S tree event ∧ P h x) history
      (encounters path event passed b t).1 := by
  induction size : b.cursor.size using Nat.strongRecOn generalizing passed b t history with
  | ind n ih =>
    subst size
    rw [encounters_eq]
    refine ⟨⟨ready, first⟩, ?_⟩
    refine throughout_inTurn coherent _ _ (fun f mem => ?_) (ready.fits_own coherent)
      fun _ mem => mem
    have causes : ∀ u : Tally, Encounter.Causes event ⟨b, passed, t⟩ ⟨f, b.frames.length + 1, u⟩ :=
      fun u => ⟨mem, rfl⟩
    refine ⟨(ready.follow coherent (causes ⟨0, 0, []⟩) (Keys.fits_nil S event)).within, ?_⟩
    intro u later fits sub
    have ready_f := ready.follow coherent (causes u) fits
    exact ih _ (Encounter.smaller_of_mem_followers mem) ready_f
      (follow _ _ _ _ ready ready_f (causes u) sub first) rfl

end Induction

namespace Path

variable {S : Scope} {tree : Expr} {p : Path} {P : List Note → Encounter → Prop}

theorem Founded.ready (h : p.Founded S tree) {b : Branch} (mem : b ∈ p.running) {e : Record}
    {t : Tally} (fits : t.keys.Fits S e) : Encounter.Ready S tree e ⟨b, 0, t⟩ :=
  ⟨h.within b mem, h.stands b mem, h.keyed b mem, Nat.zero_le _, fits⟩

/-- What holds of all branches that run, and is handed on in every encounter, holds throughout an
event. -/
theorem Founded.throughout (coherent : S.Coherent) (h : p.Founded S tree) (e : Record)
    (first : ∀ history, ∀ b ∈ p.running, ∀ t, P history ⟨b, 0, t⟩)
    (follow : ∀ history x y later, x.Ready S tree e → y.Ready S tree e → x.Causes e y →
      history ++ (x.own p.id e).1.notes ⊆ later → P history x → P later y) :
    Throughout p.id e (fun h x => x.Ready S tree e ∧ P h x) [] (p.encounters e) := by
  unfold encounters meetings
  split
  · simp [Throughout]
  · refine throughout_inTurn coherent [] _ (fun b mem => ⟨h.within b mem, ?_⟩) (Keys.fits_nil S e)
      fun _ mem => mem
    intro t later fits _
    exact throughout_encounters coherent follow (h.ready mem fits) (first later b mem t)

end Path

end TracePattern
