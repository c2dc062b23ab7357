import TracePattern.Proofs.Ledger
import TracePattern.Proofs.Memory.Basic

/-!
# Memories that agree

Two memories may keep different things as long as they answer alike. Then a path does the same with
either of them.

* `Note.extractions`: the extractors that were run;
* `Memory.Recall`, `Memory.Agree`: memories whose answers are the same whenever what they keep is
  related, and stays related;
* `Cursor.Alike`, `Branch.Alike`, `Path.Alike`: branches and paths that are the same up to the keys
  that their routers have seen;
* `Memory.Agree.passAllBy`, `Memory.Agree.lookBy`, `Memory.Agree.runAllBy`: the parts of an event
  with memories that agree;
* `Path.Alike.onEventBy`, `Path.Alike.afterBy`: an event, and the life of a path.
-/

namespace TracePattern

/-- The extractors that were run, in their order. -/
def Note.extractions (notes : List Note) : List ℕ :=
  notes.filterMap fun
    | .extracted key => some key
    | _ => none

@[simp] theorem Note.extractions_append (notes others : List Note) :
    extractions (notes ++ others) = extractions notes ++ extractions others :=
  List.filterMap_append

@[simp] theorem Note.extractions_cons_extracted (key : ℕ) (notes : List Note) :
    extractions (.extracted key :: notes) = key :: extractions notes := rfl

@[simp] theorem Note.extractions_marks (marks : List String) :
    extractions (marks.map .marked) = [] := by
  simp [extractions]

theorem Branch.extractions_noteSpawned (b : Branch) (others : List Branch) :
    Note.extractions (b.noteSpawned others) = [] := by
  simp [Note.extractions, noteSpawned]

namespace Memory

/-- What is kept of an event: its keys, and the extractors that it ran. -/
structure Recall where
  keys : Keys
  ran : List ℕ

/-- What is kept after the memory was asked for a key. -/
def Recall.ask (r : Recall) (m : Memory) (k : KeyExtractor) (event : Record) : Recall :=
  let answer := m.find r.keys k event
  ⟨answer.2.1, r.ran ++ Note.extractions answer.2.2⟩

/-- **The memories answer alike**, for extractors in the scope, and keep related things. -/
structure Agree (S : Scope) (event : Record) (m n : Memory) (K : Recall → Recall → Prop)
    (R : ℕ → KeySet → KeySet → Prop) : Prop where
  found : ∀ {k}, S.key k → ∀ {r s : Recall}, K r s →
    (n.find s.keys k event).1 = (m.find r.keys k event).1
  keeps : ∀ {k}, S.key k → ∀ {r s : Recall}, K r s →
    K (r.ask m k event) (s.ask n k event)
  empty : ∀ router, R router .empty .empty
  insert : ∀ {router seen seen'}, R router seen seen' → ∀ key,
    Option.Rel (R router) (m.insert? router seen key) (n.insert? router seen' key)

end Memory

/-! ### What is alike -/

/-- Two cursors that are the same up to the keys seen. -/
inductive Cursor.Alike (R : KeySet → KeySet → Prop) : Cursor → Cursor → Prop
  | event (condition : Condition) (children : Option (List Expr)) :
    Alike R (.event condition children) (.event condition children)
  | router (key : KeyExtractor) (template : Expr) {seen seen' : KeySet} (related : R seen seen') :
    Alike R (.router key template seen) (.router key template seen')

/-- Two branches that are the same up to the keys seen. -/
structure Branch.Alike (R : ℕ → KeySet → KeySet → Prop) (b c : Branch) : Prop where
  id : c.id = b.id
  captures : c.captures = b.captures
  frames : c.frames = b.frames
  cursor : Cursor.Alike (R b.id) b.cursor c.cursor

/-- Two moves that are the same up to the keys seen. -/
inductive Move.Alike (R : KeySet → KeySet → Prop) : Move → Move → Prop
  | stay : Alike R .stay .stay
  | fail (e : EvalError) : Alike R (.fail e) (.fail e)
  | leave : Alike R .leave .leave
  | descend (children : List Expr) : Alike R (.descend children) (.descend children)
  | group (key : KeyExtractor) (template : Expr) (value : Value) {seen seen' : KeySet}
    (related : R seen seen') :
    Alike R (.group key template value seen) (.group key template value seen')

/-- Two paths that are the same up to the keys seen. -/
structure Path.Alike (R : ℕ → KeySet → KeySet → Prop) (p q : Path) : Prop where
  id : q.id = p.id
  name : q.name = p.name
  tree : q.tree = p.tree
  running : List.Forall₂ (Branch.Alike R) p.running q.running
  finished : q.finished = p.finished
  nextId : q.nextId = p.nextId
  stats : q.stats = p.stats
  closed : q.closed = p.closed

theorem Cursor.Alike.describe {R : KeySet → KeySet → Prop} {x y : Cursor} (h : x.Alike R y) :
    y.describe = x.describe := by
  cases h <;> rfl

namespace Branch

variable {R : ℕ → KeySet → KeySet → Prop} {b c : Branch}

/-- The keys seen do not show in what is said of a branch. -/
theorem Alike.position (h : b.Alike R c) : c.position = b.position := by
  have words : c.cursor.describe = b.cursor.describe := h.cursor.describe
  rw [Branch.position, Branch.position, h.frames, words]

theorem Alike.finish (h : b.Alike R c) (outcome : Outcome) (error : Option EvalError) :
    c.finish outcome error = b.finish outcome error := by
  unfold Branch.finish
  rw [h.id, h.captures, h.position]

theorem Alike.recorded (h : b.Alike R c) (path : ℕ) (outcome : Outcome)
    (error : Option EvalError) : c.recorded path outcome error = b.recorded path outcome error := by
  unfold Branch.recorded
  rw [h.id, h.captures]

theorem Alike.carryOn (h : b.Alike R c) (outer : List Frame) (starts : List Start) (next : ℕ) :
    c.carryOn outer starts next = b.carryOn outer starts next := by
  cases starts with
  | nil => rfl
  | cons s rest => simp [Branch.carryOn, h.id, h.captures]

end Branch

/-! ### Starts -/

/-- The cursor has seen no keys. -/
def Cursor.Fresh : Cursor → Prop
  | .event _ _ => True
  | .router _ _ seen => seen = .empty

mutual
/-- Where a match starts no keys have been seen. -/
theorem Expr.fresh_of_mem_starts {e : Expr} {s : Start} (h : s ∈ e.starts) : s.cursor.Fresh := by
  match e with
  | .event c => exact List.mem_singleton.1 h ▸ trivial
  | .eventThen c children => exact List.mem_singleton.1 h ▸ trivial
  | .sequence children => exact Expr.fresh_of_mem_startsOfFirst h
  | .filter c children => exact Expr.fresh_of_mem_startsOfAll h
  | .groupBy key template => exact List.mem_singleton.1 h ▸ rfl
  | .record sink inner =>
    obtain ⟨t, ht, rfl⟩ := List.mem_map.1 h
    exact Expr.fresh_of_mem_starts (s := t) ht

theorem Expr.fresh_of_mem_startsOfFirst {all es : List Expr} {s : Start}
    (h : s ∈ Expr.startsOfFirst all es) : s.cursor.Fresh := by
  match es with
  | [] => cases h
  | e :: rest =>
    obtain ⟨t, ht, rfl⟩ := List.mem_map.1 h
    exact Expr.fresh_of_mem_starts (s := t) ht

theorem Expr.fresh_of_mem_startsOfAll {c : Condition} {i : ℕ} {es : List Expr} {s : Start}
    (h : s ∈ Expr.startsOfAll c i es) : s.cursor.Fresh := by
  match es with
  | [] => cases h
  | e :: rest =>
    rcases List.mem_append.1 h with h | h
    · obtain ⟨t, ht, rfl⟩ := List.mem_map.1 h
      exact Expr.fresh_of_mem_starts (s := t) ht
    · exact Expr.fresh_of_mem_startsOfAll h
end

theorem fresh_of_mem_startsAt {children : List Expr} {i : ℕ} {s : Start}
    (h : s ∈ startsAt children i) : s.cursor.Fresh := by
  unfold startsAt at h
  split at h
  · obtain ⟨t, ht, rfl⟩ := List.mem_map.1 h
    exact Expr.fresh_of_mem_starts (s := t) ht
  · cases h

/-- A branch that starts is like itself. -/
theorem Branch.Alike.of_fresh {R : ℕ → KeySet → KeySet → Prop}
    (empty : ∀ router, R router .empty .empty) {b : Branch} (fresh : b.cursor.Fresh) :
    b.Alike R b := by
  refine ⟨rfl, rfl, rfl, ?_⟩
  cases cursor : b.cursor with
  | event condition children => exact .event condition children
  | router key template seen =>
    rw [cursor] at fresh
    cases fresh
    exact .router key template (empty b.id)

/-! ### Parts of an event -/

namespace Memory

variable {S : Scope} {event : Record} {m n : Memory} {K : Recall → Recall → Prop}
  {R : ℕ → KeySet → KeySet → Prop} {ran ran' : List ℕ}

/-- What two memories make of the same frames. -/
structure TiedPassage (K : Recall → Recall → Prop) (ran ran' : List ℕ) (x y : Passage) :
    Prop where
  captures : y.captures = x.captures
  verdict : y.verdict = x.verdict
  keeps : K ⟨x.keys, ran ++ Note.extractions x.notes⟩ ⟨y.keys, ran' ++ Note.extractions y.notes⟩

/-- What two memories make of the same branch. -/
structure TiedLook (K : Recall → Recall → Prop) (R : ℕ → KeySet → KeySet → Prop)
    (ran ran' : List ℕ) (x y : Look) : Prop where
  branch : x.branch.Alike R y.branch
  move : Move.Alike (R x.branch.id) x.move y.move
  keeps : K ⟨x.keys, ran ++ Note.extractions x.notes⟩ ⟨y.keys, ran' ++ Note.extractions y.notes⟩

/-- Two parts of an event that do the same, up to what is kept of keys. -/
structure ActsAlike (R : ℕ → KeySet → KeySet → Prop) (x y : Effects × Tally) : Prop where
  running : List.Forall₂ (Branch.Alike R) x.1.running y.1.running
  finished : y.1.finished = x.1.finished
  reports : y.1.reports = x.1.reports
  nextId : y.2.nextId = x.2.nextId
  spawned : y.2.spawned = x.2.spawned

/-- What two memories make of the same part of an event. -/
structure Tied (K : Recall → Recall → Prop) (R : ℕ → KeySet → KeySet → Prop)
    (x y : Effects × Tally) : Prop extends ActsAlike R x y where
  keeps : K ⟨x.2.keys, Note.extractions x.1.notes⟩ ⟨y.2.keys, Note.extractions y.1.notes⟩

namespace Agree

variable (agree : Agree S event m n K R)
include agree

theorem passBy {f : Frame} (within : f.Within S) (branch : ℕ) (node : List ℕ)
    (captures : Captures) {keys keys' : Keys} (kept : K ⟨keys, ran⟩ ⟨keys', ran'⟩) :
    TiedPassage K ran ran' (f.passBy m event branch node captures keys)
      (f.passBy n event branch node captures keys') := by
  cases f with
  | route key value =>
    refine ⟨rfl, ?_, ?_⟩
    · simp only [Frame.passBy]
      rw [agree.found within kept]
    · have asked := agree.keeps within kept
      simpa [Frame.passBy, Recall.ask, Note.extractions] using asked
  | _ =>
    refine ⟨rfl, rfl, ?_⟩
    simpa [Frame.passBy, Frame.pass, Note.extractions] using kept

theorem passAllBy {frames : List Frame} (within : ∀ f ∈ frames, f.Within S) (branch : ℕ)
    (node : List ℕ) (captures : Captures) {keys keys' : Keys}
    (kept : K ⟨keys, ran⟩ ⟨keys', ran'⟩) :
    TiedPassage K ran ran' (passAllBy m event branch node captures keys frames)
      (passAllBy n event branch node captures keys' frames) := by
  induction frames generalizing node captures keys keys' ran ran' with
  | nil => exact ⟨rfl, rfl, by simpa [TracePattern.passAllBy, Note.extractions] using kept⟩
  | cons f rest ih =>
    obtain ⟨first, others⟩ := List.forall_mem_cons.1 within
    have here := agree.passBy first branch node captures kept
    unfold TracePattern.passAllBy
    dsimp only
    generalize f.passBy m event branch node captures keys = x at here ⊢
    generalize f.passBy n event branch node captures keys' = y at here ⊢
    obtain ⟨captures', verdict, keeps⟩ := here
    rw [verdict]
    split
    · have further := ih others (node ++ [f.child]) x.captures keeps
      rw [captures']
      exact ⟨further.captures, further.verdict, by simpa using further.keeps⟩
    · exact ⟨captures', verdict, keeps⟩

theorem meetBy {b c : Branch} (alike : b.Alike R c) (within : b.cursor.Within S)
    {keys keys' : Keys} (kept : K ⟨keys, ran⟩ ⟨keys', ran'⟩) :
    TiedLook K R ran ran' (b.meetBy m event keys) (c.meetBy n event keys') := by
  obtain ⟨id, captures, frames, cursor⟩ := b
  obtain ⟨id', captures', frames', cursor'⟩ := c
  obtain ⟨rfl, rfl, rfl, cursors⟩ := alike
  dsimp only at cursors within
  cases cursors with
  | event condition children =>
    refine ⟨⟨rfl, rfl, rfl, .event condition children⟩, ?_, ?_⟩
    · simp only [Branch.meetBy, Branch.meet]
      cases (condition.evaluate event captures').2.guarded with
      | error e => exact .fail e
      | ok held =>
        cases held with
        | false => exact .stay
        | true =>
          cases children with
          | none => exact .leave
          | some children => exact .descend children
    · simpa [Branch.meetBy, Branch.meet, Note.extractions] using kept
  | @router key template seen seen' related =>
    have alike : Branch.Alike R ⟨id', captures', frames', .router key template seen⟩
        ⟨id', captures', frames', .router key template seen'⟩ := ⟨rfl, rfl, rfl, .router _ _ related⟩
    have found := agree.found within.1 kept
    have asked := agree.keeps within.1 kept
    simp only [Branch.meetBy]
    rw [found]
    cases (m.find keys key event).1 with
    | none => exact ⟨alike, .stay, asked⟩
    | some value =>
      dsimp only
      have answers := agree.insert related value
      generalize m.insert? id' seen value = known, n.insert? id' seen' value = known' at answers ⊢
      cases answers with
      | none => exact ⟨alike, .stay, asked⟩
      | some related => exact ⟨alike, .group key template value related, asked⟩

/-- **An event means the same for branches that are alike.** -/
theorem lookBy {b c : Branch} (alike : b.Alike R c) (within : b.Within S) (passed : ℕ)
    {keys keys' : Keys} (kept : K ⟨keys, ran⟩ ⟨keys', ran'⟩) :
    TiedLook K R ran ran' (b.lookBy m event passed keys) (c.lookBy n event passed keys') := by
  obtain ⟨id, captures, frames, cursor⟩ := b
  obtain ⟨id', captures', frames', cursor'⟩ := c
  obtain ⟨rfl, rfl, rfl, cursors⟩ := alike
  have ahead : ∀ f ∈ frames'.drop passed, f.Within S :=
    fun f mem => within.1 f (List.mem_of_mem_drop mem)
  have way := agree.passAllBy ahead id' (address (frames'.take passed)) captures' kept
  unfold Branch.lookBy
  dsimp only
  generalize TracePattern.passAllBy m event id' _ captures' keys _ = x at way ⊢
  generalize TracePattern.passAllBy n event id' _ captures' keys' _ = y at way ⊢
  obtain ⟨captures, verdict, keeps⟩ := way
  have through : Branch.Alike R ⟨id', x.captures, frames', cursor⟩
      ⟨id', y.captures, frames', cursor'⟩ := ⟨rfl, captures, rfl, cursors⟩
  rw [verdict]
  split
  · exact ⟨through, .fail _, keeps⟩
  · exact ⟨through, .stay, keeps⟩
  · have met := agree.meetBy through within.2 keeps
    exact ⟨met.branch, met.move, by simpa using met.keeps⟩

end Agree

/-! ### Turns -/

section Fresh

variable (empty : ∀ router, R router .empty .empty)
include empty

/-- Branches that start at the same places inside the same frames are alike. -/
theorem alike_carryOn {b c : Branch} (alike : b.Alike R c) (outer : List Frame)
    (children : List Expr) (index next : ℕ) :
    List.Forall₂ (Branch.Alike R) (b.carryOn outer (startsAt children index) next)
      (c.carryOn outer (startsAt children index) next) := by
  rw [alike.carryOn]
  refine List.forall₂_same.2 fun f mem => .of_fresh empty ?_
  obtain ⟨s, hs, -, cursor⟩ := Branch.place_of_mem_carryOn mem
  exact cursor ▸ fresh_of_mem_startsAt hs

theorem alike_launch (captures : Captures) (outer : List Frame) (template : Expr) (next : ℕ) :
    List.Forall₂ (Branch.Alike R) (Branch.launch captures outer template.starts next)
      (Branch.launch captures outer template.starts next) := by
  refine List.forall₂_same.2 fun f mem => .of_fresh empty ?_
  obtain ⟨s, hs, -, cursor⟩ := Branch.place_of_mem_launch mem
  exact cursor ▸ Expr.fresh_of_mem_starts hs

theorem alike_complete {b c : Branch} (alike : b.Alike R c) {t u : Tally}
    (nextId : u.nextId = t.nextId) (spawned : u.spawned = t.spawned) (path : ℕ) :
    ActsAlike R (b.complete path t) (c.complete path u) := by
  unfold Branch.complete
  dsimp only
  rw [alike.frames]
  have reports : ((unwind b.frames).sinks.map fun sink =>
      (⟨sink, c.recorded path .successful none⟩ : Report)) =
        (unwind b.frames).sinks.map fun sink => ⟨sink, b.recorded path .successful none⟩ := by
    rw [alike.recorded]
  cases (unwind b.frames).next with
  | none => exact ⟨.nil, congrArg ([·]) (alike.finish .successful none), reports, nextId, spawned⟩
  | some next =>
    obtain ⟨outer, children, index⟩ := next
    dsimp only
    rw [nextId]
    have followers := alike_carryOn empty alike outer children index t.nextId
    refine ⟨followers, rfl, reports, ?_, ?_⟩
    · simp only [Tally.allocate, nextId, followers.length_eq]
    · simp only [Tally.allocate, spawned, followers.length_eq]

end Fresh

namespace TiedLook

variable {x y : Look} (looks : TiedLook K R ran ran' x y) (empty : ∀ router, R router .empty .empty)
include looks empty

/-- The branches that follow are alike. -/
theorem followers (frames : List Frame) (next : ℕ) :
    List.Forall₂ (Branch.Alike R) (x.followers frames next) (y.followers frames next) := by
  obtain ⟨branch, keys, notes, move⟩ := x
  obtain ⟨branch', keys', notes', move'⟩ := y
  obtain ⟨met, moves, -⟩ := looks
  unfold Look.followers
  cases moves with
  | descend children => exact alike_carryOn empty met frames children 0 next
  | group key template value related =>
    dsimp only at met ⊢
    rw [met.captures]
    exact alike_launch empty _ _ template next
  | _ => exact .nil

theorem act {fs gs : List Branch} (behind : gs.length = fs.length) {t u : Tally}
    (nextId : u.nextId = t.nextId) (spawned : u.spawned = t.spawned) (path : ℕ) :
    ActsAlike R (x.act path fs t) (y.act path gs u) := by
  obtain ⟨branch, keys, notes, move⟩ := x
  obtain ⟨branch', keys', notes', move'⟩ := y
  obtain ⟨met, moves, -⟩ := looks
  dsimp only at met moves
  unfold Look.act
  cases moves with
  | stay => exact ⟨.cons met .nil, rfl, rfl, nextId, spawned⟩
  | fail e =>
    refine ⟨.nil, congrArg ([·]) (met.finish .failed (some e)), ?_, nextId, spawned⟩
    simp only [Branch.fail, met.frames, met.recorded]
  | leave => exact alike_complete empty met nextId spawned path
  | descend children =>
    refine ⟨.nil, rfl, rfl, ?_, ?_⟩
    · simp only [Tally.allocate, nextId, behind]
    · simp only [Tally.allocate, spawned, behind]
  | group key template value related =>
    refine ⟨.cons ⟨met.id, met.captures, met.frames, .router key template related⟩ .nil, rfl, rfl,
      ?_, ?_⟩
    · simp only [Tally.allocate, nextId, behind]
    · simp only [Tally.allocate, spawned, behind]

end TiedLook

/-- Nothing but looks runs extractors or keeps keys. -/
theorem quiet_act (seen : Look) (path : ℕ) (fs : List Branch) (t : Tally) :
    Note.extractions (seen.act path fs t).1.notes = [] ∧ (seen.act path fs t).2.keys = t.keys := by
  unfold Look.act
  cases seen.move with
  | leave =>
    dsimp only
    unfold Branch.complete
    dsimp only
    split
    · exact ⟨rfl, rfl⟩
    · exact ⟨Branch.extractions_noteSpawned _ _, rfl⟩
  | descend children => exact ⟨Branch.extractions_noteSpawned _ _, rfl⟩
  | group key template value known => exact ⟨Branch.extractions_noteSpawned _ _, rfl⟩
  | _ => exact ⟨rfl, rfl⟩

/-- Two branches that are alike are to get the event from the same frame on. -/
structure DueAlike (S : Scope) (R : ℕ → KeySet → KeySet → Prop) (d d' : Due) : Prop where
  within : d.branch.Within S
  branch : d.branch.Alike R d'.branch
  passed : d'.passed = d.passed

namespace Agree

variable (agree : Agree S event m n K R)
include agree

/-- **Turns do the same with memories that agree.** -/
theorem runAllBy {bs cs : List Branch} (within : ∀ b ∈ bs, b.Within S)
    (alike : List.Forall₂ (Branch.Alike R) bs cs) (start : K ⟨[], []⟩ ⟨[], []⟩) (path next : ℕ) :
    Tied K R (runAll (bs.map (stepBy m path event 0)) ⟨next, 0, []⟩)
      (runAll (cs.map (stepBy n path event 0)) ⟨next, 0, []⟩) := by
  have due : List.Forall₂ (DueAlike S R) (bs.map (⟨·, 0⟩)) (cs.map (⟨·, 0⟩)) :=
    List.forall₂_map_left_iff.2 (List.forall₂_map_right_iff.2
      (((List.forall₂_and_left _ _).2 ⟨within, alike⟩).imp fun _ _ h => ⟨h.1, h.2, rfl⟩))
  have before : Tied K R (.none, ⟨next, 0, []⟩) (.none, ⟨next, 0, []⟩) :=
    ⟨⟨.nil, rfl, rfl, rfl, rfl⟩, start⟩
  have turns := (stepBy_turns m path event).related (stepBy_turns n path event).made ?next due before
  · rwa [map_due, map_due] at turns
  case next =>
    rintro d d' x y ⟨within, alike, passed⟩ h
    have looks : TiedLook K R (Note.extractions x.1.notes) (Note.extractions y.1.notes)
        (d.lookBy m event x.2.keys) (d'.lookBy n event y.2.keys) := by
      unfold Due.lookBy
      rw [passed]
      exact agree.lookBy alike within d.passed h.keeps
    have follow := looks.followers agree.empty d.branch.frames x.2.nextId
    constructor
    · have acts := looks.act agree.empty follow.length_eq.symm
        (t := ⟨x.2.nextId, x.2.spawned, (d.lookBy m event x.2.keys).keys⟩)
        (u := ⟨x.2.nextId, y.2.spawned, (d'.lookBy n event y.2.keys).keys⟩) rfl h.spawned path
      unfold proceed Due.alone
      dsimp only
      rw [alike.frames, h.nextId]
      refine ⟨⟨List.rel_append h.running acts.running, congrArg₂ (· ++ ·) h.finished acts.finished,
        congrArg₂ (· ++ ·) h.reports acts.reports, acts.nextId, acts.spawned⟩, ?_⟩
      simp only [Effects.notes_append, Note.extractions_append, (quiet_act ..).1, (quiet_act ..).2,
        List.append_nil]
      exact looks.keeps
    · refine List.forall₂_map_left_iff.2 (List.forall₂_map_right_iff.2 ?_)
      rw [alike.frames, h.nextId]
      have coming : ∀ f ∈ (d.lookBy m event x.2.keys).followers d.branch.frames x.2.nextId,
          f.Within S := fun f mem =>
        Due.within_of_mem_followers (d.branch.from_lookBy d.passed x.2.keys) within mem
      exact ((List.forall₂_and_left _ _).2 ⟨coming, follow⟩).imp fun _ _ h => ⟨h.1, h.2, rfl⟩

end Agree

end Memory

/-! ### Paths -/

namespace Path

variable {S : Scope} {m n : Memory} {K : Memory.Recall → Memory.Recall → Prop}
  {R : ℕ → KeySet → KeySet → Prop} {p q : Path} {e : Record}

theorem Alike.turnBy (alike : p.Alike R q) (agree : Memory.Agree S e m n K R)
    (within : ∀ b ∈ p.running, b.Within S) (start : K ⟨[], []⟩ ⟨[], []⟩) :
    Memory.Tied K R (p.turnBy m e) (q.turnBy n e) := by
  unfold Path.turnBy
  rw [alike.id, alike.nextId]
  exact agree.runAllBy within alike.running start p.id p.nextId

/-- **An event does the same with memories that agree**, and they keep related things of it. -/
theorem Alike.onEventBy (alike : p.Alike R q) (agree : Memory.Agree S e m n K R)
    (within : ∀ b ∈ p.running, b.Within S) (start : K ⟨[], []⟩ ⟨[], []⟩) :
    (p.onEventBy m e).1.Alike R (q.onEventBy n e).1 ∧
      (q.onEventBy n e).2.reports = (p.onEventBy m e).2.reports ∧
      ∃ keys keys', K ⟨keys, Note.extractions (p.onEventBy m e).2.notes⟩
        ⟨keys', Note.extractions (q.onEventBy n e).2.notes⟩ := by
  have turns := alike.turnBy agree within start
  have both := alike.closed
  unfold Path.onEventBy
  cases closed : p.closed with
  | true =>
    rw [if_pos (both.trans closed), if_pos rfl]
    exact ⟨alike, rfl, [], [], start⟩
  | false =>
    rw [if_neg (by simp [both, closed] : ¬q.closed = true), if_neg Bool.false_ne_true]
    refine ⟨⟨alike.id, alike.name, alike.tree, ?_, ?_, turns.nextId, ?_, both.trans closed⟩,
      turns.reports, _, _, turns.keeps⟩
    · refine forall₂_mergeSort turns.running fun a b c d first second => ?_
      rw [first.id, second.id]
    · exact congrArg₂ (· ++ ·) alike.finished turns.finished
    · simp only [alike.stats, turns.spawned, turns.finished]

theorem alike_start (empty : ∀ router, R router .empty .empty) (id : ℕ) (name : Option String)
    (tree : Expr) (initial : Captures) :
    (start id name tree initial).Alike R (start id name tree initial) := by
  refine ⟨rfl, rfl, rfl, List.forall₂_same.2 fun b mem => ?_, rfl, rfl, rfl, rfl⟩
  obtain ⟨s, hs, -, cursor⟩ := Branch.place_of_mem_launch mem
  exact .of_fresh empty (cursor ▸ Expr.fresh_of_mem_starts hs)

theorem Alike.close (alike : p.Alike R q) :
    p.close.Alike R q.close :=
  ⟨alike.id, alike.name, alike.tree, alike.running, alike.finished, alike.nextId, alike.stats, rfl⟩

/-- **A life is the same with a memory that agrees with that of all paths.** -/
theorem Alike.afterBy {K : Record → Memory.Recall → Memory.Recall → Prop} (alike : p.Alike R q)
    (agree : ∀ e, Memory.Agree S e .kept n (K e) R) (within : ∀ b ∈ p.running, b.Within S)
    (start : ∀ e, K e ⟨[], []⟩ ⟨[], []⟩) (acts : List Act) :
    (p.after acts).Alike R (q.afterBy n acts) := by
  induction acts generalizing p q with
  | nil => exact alike
  | cons act rest ih =>
    cases act with
    | close => exact ih (p := p.close) (q := q.close) alike.close within
    | event e =>
      have next := (alike.onEventBy (agree e) within (start e)).1
      rw [onEventBy_kept] at next
      exact ih next (within_apply within (.event e))

end Path

end TracePattern
