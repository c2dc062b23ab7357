import TracePattern.Proofs.Keys
import TracePattern.Proofs.Run
import TracePattern.Proofs.Turns

/-!
# Reactions

What an event does to a branch does not depend on the number of the branch, nor on the keys that
were extracted before.  A reaction is that part of a step; the numbers come in afterwards.

* `Strand`: a branch without its number; `Strand.look`: an event meets it;
* `Reaction`: what an event does to a strand; `Strand.react`;
* `Reaction.strands`, `Reaction.endings`: what runs on after it, and what has ended;
* `Reaction.deliver`: the effects of a reaction, with numbers from a tally;
* `Reaction.deliver_made`, `runAll_matches`: steps are deliveries of the reactions of their branches;
* `Path.turn_matches`: the same for all running branches of a path.
-/

namespace TracePattern

/-- A branch without its number. -/
structure Strand where
  captures : Captures
  frames : List Frame
  cursor : Cursor

/-- The branch without its number. -/
def Branch.strand (b : Branch) : Strand := ⟨b.captures, b.frames, b.cursor⟩

/-- The strand under a number. -/
def Strand.branch (s : Strand) (id : ℕ) : Branch := ⟨id, s.captures, s.frames, s.cursor⟩

/-- The matches that start at the given places inside `outer`. -/
def strandsAt (captures : Captures) (outer : List Frame) (starts : List Start) : List Strand :=
  starts.map fun s => ⟨captures, outer ++ s.frames, s.cursor⟩

@[simp] theorem Strand.branch_strand (s : Strand) (id : ℕ) : (s.branch id).strand = s := rfl

/-- A strand that stands in an expression within the scope. -/
def Strand.Within (S : Scope) (s : Strand) : Prop := PlaceWithin S s.frames s.cursor

/-! ### Looks without numbers -/

/-- The captured values after a frame, and whether it lets the event through. -/
def Frame.lets (event : Record) (captures : Captures) : Frame → Captures × Except EvalError Bool
  | .gate condition _ =>
    let done := condition.evaluate event captures
    (done.1, done.2.guarded)
  | .route key value => (captures, .ok ((key.key? event).any fun v => v.equal value))
  | .sequence _ _ => (captures, .ok true)
  | .record _ => (captures, .ok true)

/-- Frames from the outermost on, up to the first that does not let the event through. -/
def letsAll (event : Record) (captures : Captures) : List Frame → Captures × Except EvalError Bool
  | [] => (captures, .ok true)
  | f :: rest =>
    let here := f.lets event captures
    match here.2 with
    | .ok true => letsAll event here.1 rest
    | _ => here

namespace Strand

/-- An event that was let through meets the cursor. -/
def meet (s : Strand) (event : Record) : Strand × Move :=
  match s.cursor with
  | .event condition children =>
    let done := condition.evaluate event s.captures
    let move : Move := match done.2.guarded with
      | .error e => .fail e
      | .ok false => .stay
      | .ok true => match children with
        | none => .leave
        | some children => .descend children
    ({ s with captures := done.1 }, move)
  | .router key template seen =>
    match key.key? event with
    | none => (s, .stay)
    | some value =>
      match seen.insert? value with
      | none => (s, .stay)
      | some seen => (s, .group key template value seen)

/-- An event meets the strand. The first `passed` frames have let it through before. -/
def look (s : Strand) (event : Record) (passed : ℕ) : Strand × Move :=
  let way := letsAll event s.captures (s.frames.drop passed)
  let s := { s with captures := way.1 }
  match way.2 with
  | .error e => (s, .fail e)
  | .ok false => (s, .stay)
  | .ok true => s.meet event

theorem meet_strand (s : Strand) (event : Record) :
    (s.meet event).1 = { s with captures := (s.meet event).1.captures } := by
  unfold meet
  split
  · rfl
  · split
    · rfl
    · split <;> rfl

/-- A look changes nothing of a strand but its captured values. -/
theorem look_strand (s : Strand) (event : Record) (passed : ℕ) :
    (s.look event passed).1 = { s with captures := (s.look event passed).1.captures } := by
  unfold look
  dsimp only
  split
  · rfl
  · rfl
  · exact meet_strand _ event

@[simp] theorem look_frames (s : Strand) (event : Record) (passed : ℕ) :
    (s.look event passed).1.frames = s.frames := by rw [look_strand]

@[simp] theorem look_cursor (s : Strand) (event : Record) (passed : ℕ) :
    (s.look event passed).1.cursor = s.cursor := by rw [look_strand]

/-- A strand descends from a node that waited for an event. -/
theorem look_descend {s : Strand} {event : Record} {passed : ℕ} {children : List Expr}
    (h : (s.look event passed).2 = .descend children) :
    ∃ c, s.cursor = .event c (some children) := by
  unfold look at h
  dsimp only at h
  split at h
  · cases h
  · cases h
  · unfold meet at h
    dsimp only at h
    split at h
    · rename_i c cs hc
      dsimp only at h
      split at h
      · cases h
      · cases h
      · split at h
        · cases h
        · cases h
          exact ⟨c, hc⟩
    · split at h
      · cases h
      · split at h <;> cases h

/-- A strand that forms a group is a router, which did not know the key of the event. -/
theorem look_group {s : Strand} {event : Record} {passed : ℕ} {key : KeyExtractor}
    {template : Expr} {value : Value} {known : KeySet}
    (h : (s.look event passed).2 = .group key template value known) :
    ∃ seen, s.cursor = .router key template seen ∧ key.key? event = some value ∧
      seen.insert? value = some known := by
  unfold look at h
  dsimp only at h
  split at h
  · cases h
  · cases h
  · unfold meet at h
    dsimp only at h
    split at h
    · dsimp only at h
      split at h
      · cases h
      · cases h
      · split at h <;> cases h
    · rename_i k t seen hc
      split at h
      · cases h
      · rename_i v hv
        split at h
        · cases h
        · rename_i knows hk
          cases h
          exact ⟨seen, hc, hv, hk⟩

end Strand

theorem smaller_strandsAt_children {s : Strand} {c : Condition} {children : List Expr} {i : ℕ}
    (hc : s.cursor = .event c (some children)) {captures : Captures} {outer : List Frame} :
    ∀ t ∈ strandsAt captures outer (startsAt children i), t.cursor.size < s.cursor.size := by
  intro t ht
  obtain ⟨start, hs, rfl⟩ := List.mem_map.1 ht
  have := size_of_mem_startsAt hs
  rw [hc]
  show start.cursor.size < 1 + Expr.sizes children
  omega

theorem smaller_strandsAt_template {s : Strand} {key : KeyExtractor} {template : Expr}
    {seen : KeySet} (hc : s.cursor = .router key template seen) {captures : Captures}
    {outer : List Frame} :
    ∀ t ∈ strandsAt captures outer template.starts, t.cursor.size < s.cursor.size := by
  intro t ht
  obtain ⟨start, hs, rfl⟩ := List.mem_map.1 ht
  have := size_of_mem_starts hs
  rw [hc]
  show start.cursor.size < 1 + template.size
  omega

/-! ### Reactions -/

/-- What an event does to a strand. -/
inductive Reaction
  | stay (s : Strand)
  | fail (s : Strand) (e : EvalError)
  /-- The awaited event came, and the strand leaves its node. -/
  | leave (s : Strand)
  /-- The awaited event came and goes on to the strands that follow. -/
  | descend (followers : List Reaction)
  /-- The router forms a group, whose strands get the event. -/
  | group (router : Strand) (members : List Reaction)

/-- What the event does to the strand. -/
def Strand.react (event : Record) (passed : ℕ) (s : Strand) : Reaction :=
  let seen := s.look event passed
  match h : seen.2 with
  | .stay => .stay seen.1
  | .fail e => .fail seen.1 e
  | .leave => .leave seen.1
  | .descend children =>
    .descend ((strandsAt seen.1.captures s.frames (startsAt children 0)).attach.map fun ⟨t, _⟩ =>
      Strand.react event (s.frames.length + 1) t)
  | .group key template value known =>
    .group { seen.1 with cursor := .router key template known }
      ((strandsAt (seen.1.captures.insert key.name value) (s.frames ++ [.route key value])
          template.starts).attach.map fun ⟨t, _⟩ => Strand.react event (s.frames.length + 1) t)
termination_by s.cursor.size
decreasing_by
  · rename_i ht
    obtain ⟨c, hc⟩ := Strand.look_descend h
    exact smaller_strandsAt_children hc t ht
  · rename_i ht
    obtain ⟨seen, hc, -⟩ := Strand.look_group h
    exact smaller_strandsAt_template hc t ht

/-- The equation of `Strand.react`. -/
theorem Strand.react_eq (event : Record) (passed : ℕ) (s : Strand) :
    s.react event passed =
      let seen := s.look event passed
      match seen.2 with
      | .stay => .stay seen.1
      | .fail e => .fail seen.1 e
      | .leave => .leave seen.1
      | .descend children =>
        .descend ((strandsAt seen.1.captures s.frames (startsAt children 0)).map
          (react event (s.frames.length + 1)))
      | .group key template value known =>
        .group { seen.1 with cursor := .router key template known }
          ((strandsAt (seen.1.captures.insert key.name value) (s.frames ++ [.route key value])
            template.starts).map (react event (s.frames.length + 1))) := by
  rw [react]
  dsimp only
  split <;> rename_i h <;> simp only [h, List.attach_map_val]

theorem strands_launch (captures : Captures) (outer : List Frame) (starts : List Start)
    (next : ℕ) :
    (Branch.launch captures outer starts next).map Branch.strand =
      strandsAt captures outer starts := by
  have h : starts = (starts.zipIdx next).map Prod.fst := (List.zipIdx_map_fst next starts).symm
  conv_rhs => rw [strandsAt, h, List.map_map]
  simp [Branch.launch, Function.comp_def, Branch.strand]

theorem strands_carryOn (b : Branch) (outer : List Frame) (starts : List Start) (next : ℕ) :
    (b.carryOn outer starts next).map Branch.strand = strandsAt b.captures outer starts := by
  cases starts with
  | nil => rfl
  | cons s rest => simp [Branch.carryOn, strands_launch, strandsAt, Branch.strand]

/-! ### Outcomes -/

/-- An ended branch without its number. -/
structure Ending where
  outcome : Outcome
  captures : Captures
  position : String
  error : Option EvalError

/-- The ended branch without its number. -/
def Finish.ending (f : Finish) : Ending := ⟨f.outcome, f.captures, f.position, f.error⟩

/-- The strand at its end. -/
def Strand.ending (s : Strand) (outcome : Outcome) (error : Option EvalError) : Ending :=
  ((s.branch 0).finish outcome error).ending

mutual
/-- The strands that run on. -/
def Reaction.strands : Reaction → List Strand
  | .stay s => [s]
  | .fail _ _ => []
  | .leave s =>
    match (unwind s.frames).next with
    | none => []
    | some (outer, children, index) => strandsAt s.captures outer (startsAt children index)
  | .descend followers => Reaction.strandsOf followers
  | .group router members => router :: Reaction.strandsOf members

/-- The strands that run on after several reactions. -/
def Reaction.strandsOf : List Reaction → List Strand
  | [] => []
  | r :: rest => r.strands ++ Reaction.strandsOf rest
end

mutual
/-- The strands that have ended. -/
def Reaction.endings : Reaction → List Ending
  | .stay _ => []
  | .fail s e => [s.ending .failed (some e)]
  | .leave s =>
    match (unwind s.frames).next with
    | none => [s.ending .successful none]
    | some _ => []
  | .descend followers => Reaction.endingsOf followers
  | .group _ members => Reaction.endingsOf members

/-- The strands that have ended in several reactions. -/
def Reaction.endingsOf : List Reaction → List Ending
  | [] => []
  | r :: rest => r.endings ++ Reaction.endingsOf rest
end

/-! ### Delivery -/

/-- New branches that follow from one, as notes. -/
def noteNumbers (id : ℕ) (ids : List ℕ) : Effects :=
  .note ((ids.filter fun i => i ≠ id).map (.spawned id))

mutual
/-- The effects of the reaction of branch `id`. The first branch that follows keeps its number. -/
def Reaction.deliver (path id : ℕ) : Reaction → Turn
  | .stay s, t => (.run (s.branch id), t)
  | .fail s e, t => ((s.branch id).fail path e, t)
  | .leave s, t => (s.branch id).complete path t
  | .descend followers, t =>
    let ids := id :: List.range' t.nextId (followers.length - 1)
    let after := Reaction.deliverAll path ids followers (t.allocate (followers.length - 1))
    (noteNumbers id ids ++ after.1, after.2)
  | .group router members, t =>
    let ids := List.range' t.nextId members.length
    let after := Reaction.deliverAll path ids members (t.allocate members.length)
    (.run (router.branch id) ++ noteNumbers id ids ++ after.1, after.2)

/-- The effects of several reactions, of branches with the given numbers. -/
def Reaction.deliverAll (path : ℕ) : List ℕ → List Reaction → Turn
  | id :: ids, r :: rest, t =>
    let first := r.deliver path id t
    let others := Reaction.deliverAll path ids rest first.2
    (first.1 ++ others.1, others.2)
  | [], _, t => (.none, t)
  | _ :: _, [], t => (.none, t)
end

namespace Reaction

/-- What comes of the reaction of branch `id` alone. -/
def alone (path id : ℕ) (r : Reaction) : Turn := fun t =>
  match r with
  | .stay s => (.run (s.branch id), t)
  | .fail s e => ((s.branch id).fail path e, t)
  | .leave s => (s.branch id).complete path t
  | .descend followers =>
    (noteNumbers id (id :: List.range' t.nextId (followers.length - 1)),
      t.allocate (followers.length - 1))
  | .group router members =>
    (.run (router.branch id) ++ noteNumbers id (List.range' t.nextId members.length),
      t.allocate members.length)

/-- The reactions behind that of branch `id`, with the numbers that their branches get. -/
def behind (id : ℕ) (r : Reaction) (t : Tally) : List (ℕ × Reaction) :=
  match r with
  | .descend followers => (id :: List.range' t.nextId (followers.length - 1)).zip followers
  | .group _ members => (List.range' t.nextId members.length).zip members
  | _ => []

theorem deliverAll_eq (path : ℕ) (ids : List ℕ) (rs : List Reaction) (t : Tally) :
    deliverAll path ids rs t = runAll ((ids.zip rs).map fun r => r.2.deliver path r.1) t := by
  induction ids generalizing rs t with
  | nil => simp [deliverAll, runAll]
  | cons id ids ih =>
    cases rs with
    | nil => simp [deliverAll, runAll]
    | cons r rest => simp only [deliverAll, ih, List.zip_cons_cons, List.map_cons, runAll]

/-- A delivery is that of the reaction alone, and then those behind it. -/
theorem deliver_made (path id : ℕ) (r : Reaction) (t : Tally) :
    r.deliver path id t =
      proceed (r.alone path id t) (runAll ((r.behind id t).map fun r => r.2.deliver path r.1)) := by
  cases r with
  | descend followers => simp only [deliver, proceed, alone, behind, deliverAll_eq]
  | group router members => simp only [deliver, proceed, alone, behind, deliverAll_eq]
  | _ => exact (proceed_runAll_nil _).symm

end Reaction

/-- The pairs of branches in notes, the second of which follows from the first. -/
def Note.lineage (notes : List Note) : List (ℕ × ℕ) :=
  notes.filterMap fun
    | .spawned parent child => some (parent, child)
    | _ => none

/-- The tally without keys. -/
def Tally.blank (t : Tally) : Tally := { t with keys := [] }

/-- A part of a step does what a delivery does. Notes other than of new branches do not count, and
the keys that the step keeps are those of the event. -/
structure Matches (S : Scope) (event : Record) (x y : Effects × Tally) : Prop where
  running : x.1.running = y.1.running
  finished : x.1.finished = y.1.finished
  reports : x.1.reports = y.1.reports
  lineage : Note.lineage x.1.notes = Note.lineage y.1.notes
  tally : y.2 = x.2.blank
  fits : x.2.keys.Fits S event

mutual
/-- What comes out of a reaction does not depend on the numbers. -/
theorem Reaction.deliver_outcome (path id : ℕ) (r : Reaction) (t : Tally) :
    (r.deliver path id t).1.running.map Branch.strand = r.strands ∧
      (r.deliver path id t).1.finished.map Finish.ending = r.endings := by
  match r with
  | .stay s => exact ⟨rfl, rfl⟩
  | .fail s e => exact ⟨rfl, rfl⟩
  | .leave s =>
    simp only [deliver, strands, endings, Branch.complete, Strand.branch]
    cases (unwind s.frames).next with
    | none => exact ⟨rfl, rfl⟩
    | some next => exact ⟨strands_carryOn _ _ _ _, rfl⟩
  | .descend followers =>
    have := deliverAll_outcome path (id :: List.range' t.nextId (followers.length - 1)) followers
      (t.allocate (followers.length - 1)) (by simp; omega)
    exact this
  | .group router members =>
    have := deliverAll_outcome path (List.range' t.nextId members.length) members
      (t.allocate members.length) (by simp)
    exact ⟨congrArg (router :: ·) this.1, this.2⟩

theorem Reaction.deliverAll_outcome (path : ℕ) (ids : List ℕ) (rs : List Reaction) (t : Tally)
    (h : rs.length ≤ ids.length) :
    (deliverAll path ids rs t).1.running.map Branch.strand = strandsOf rs ∧
      (deliverAll path ids rs t).1.finished.map Finish.ending = endingsOf rs := by
  match ids, rs, h with
  | [], [], _ => exact ⟨rfl, rfl⟩
  | _ :: _, [], _ => exact ⟨rfl, rfl⟩
  | id :: ids, r :: rest, h =>
    obtain ⟨running, finished⟩ := deliver_outcome path id r t
    obtain ⟨running', finished'⟩ := deliverAll_outcome path ids rest (r.deliver path id t).2
      (Nat.le_of_succ_le_succ h)
    simp only [deliverAll, Effects.running_append, Effects.finished_append, List.map_append,
      running, running', finished, finished', strandsOf, endingsOf, and_self]
end

/-! ### Steps as deliveries -/

section Steps

variable {S : Scope} {event : Record} {path : ℕ}

theorem Note.lineage_append (as bs : List Note) :
    lineage (as ++ bs) = lineage as ++ lineage bs := List.filterMap_append

theorem lineage_find (keys : Keys) (k : KeyExtractor) (event : Record) :
    Note.lineage (keys.find k event).2.2 = [] := by
  unfold Keys.find
  split
  · rfl
  · simp [Note.lineage]

theorem lineage_pass (f : Frame) (branch : ℕ) (node : List ℕ) (captures : Captures) (keys : Keys) :
    Note.lineage (f.pass event branch node captures keys).notes = [] := by
  cases f with
  | gate c i => simp [Frame.pass, Note.lineage]
  | route k v =>
    have := lineage_find keys k event
    simp only [Frame.pass, Note.lineage_append, this]
    rfl
  | sequence _ _ => rfl
  | record _ => rfl

theorem lineage_passAll (branch : ℕ) (node : List ℕ) (captures : Captures) (keys : Keys)
    (frames : List Frame) :
    Note.lineage (passAll event branch node captures keys frames).notes = [] := by
  induction frames generalizing node captures keys with
  | nil => rfl
  | cons f rest ih =>
    unfold passAll
    dsimp only
    split
    · rw [Note.lineage_append, lineage_pass, ih]
      rfl
    · exact lineage_pass ..

theorem lineage_look (b : Branch) (passed : ℕ) (keys : Keys) :
    Note.lineage (b.look event passed keys).notes = [] := by
  unfold Branch.look
  dsimp only
  split
  · exact lineage_passAll ..
  · exact lineage_passAll ..
  · rw [Note.lineage_append, lineage_passAll, List.nil_append]
    unfold Branch.meet
    dsimp only
    split
    · simp [Note.lineage]
    · split
      · exact lineage_find ..
      · split <;> exact lineage_find ..

/-- One part after another. -/
theorem Matches.proceed {x y : Effects × Tally} {turn turn' : Turn} (h : Matches S event x y)
    (part : Matches S event (turn x.2) (turn' y.2)) :
    Matches S event (proceed x turn) (proceed y turn') := by
  refine ⟨congrArg₂ (· ++ ·) h.running part.running, congrArg₂ (· ++ ·) h.finished part.finished,
    congrArg₂ (· ++ ·) h.reports part.reports, ?_, part.tally, part.fits⟩
  simp only [TracePattern.proceed, Effects.notes_append, Note.lineage_append, h.lineage,
    part.lineage]

/-- Notes that tell of no new branch do not count. -/
theorem Matches.noted {x y : Effects × Tally} (h : Matches S event x y) {notes : List Note}
    (quiet : Note.lineage notes = []) : Matches S event (.note notes ++ x.1, x.2) y := by
  refine ⟨h.running, h.finished, h.reports, ?_, h.tally, h.fits⟩
  rw [← h.lineage]
  show Note.lineage (notes ++ x.1.notes) = _
  rw [Note.lineage_append, quiet, List.nil_append]

theorem complete_keys (b : Branch) (t : Tally) : (b.complete path t).2.keys = t.keys := by
  unfold Branch.complete
  dsimp only
  split <;> rfl

theorem complete_blank (b : Branch) (t : Tally) :
    b.complete path t.blank = ((b.complete path t).1, (b.complete path t).2.blank) := by
  unfold Branch.complete
  dsimp only
  split <;> rfl

theorem noteNumbers_eq (b : Branch) (others : List Branch) :
    Effects.note (b.noteSpawned others) = noteNumbers b.id (others.map Branch.id) := by
  simp [noteNumbers, Branch.noteSpawned, List.filter_map, Function.comp_def]

variable (coherent : S.Coherent)
include coherent

theorem pass_of_fits {f : Frame} (hf : f.Within S) {keys : Keys} (fits : keys.Fits S event)
    (branch : ℕ) (node : List ℕ) (captures : Captures) :
    ((f.pass event branch node captures keys).captures,
        (f.pass event branch node captures keys).verdict) = f.lets event captures ∧
      (f.pass event branch node captures keys).keys.Fits S event := by
  cases f with
  | gate c i => exact ⟨rfl, fits⟩
  | route k v =>
    obtain ⟨hfound, hfits⟩ := Keys.find_of_fits coherent hf fits
    refine ⟨?_, hfits⟩
    simp only [Frame.pass, Frame.lets, hfound]
  | sequence _ _ => exact ⟨rfl, fits⟩
  | record _ => exact ⟨rfl, fits⟩

theorem passAll_of_fits {frames : List Frame} {keys : Keys} (hf : ∀ f ∈ frames, f.Within S)
    (fits : keys.Fits S event) (branch : ℕ) (node : List ℕ) (captures : Captures) :
    ((passAll event branch node captures keys frames).captures,
        (passAll event branch node captures keys frames).verdict) =
      letsAll event captures frames ∧
      (passAll event branch node captures keys frames).keys.Fits S event := by
  induction frames generalizing node captures keys with
  | nil => exact ⟨rfl, fits⟩
  | cons f rest ih =>
    obtain ⟨hhere, hfits⟩ :=
      pass_of_fits coherent (hf f List.mem_cons_self) fits branch node captures
    have further := fun node captures =>
      ih (fun g hg => hf g (List.mem_cons_of_mem _ hg)) hfits node captures
    unfold passAll letsAll
    rw [← hhere]
    generalize f.pass event branch node captures keys = here at *
    obtain ⟨captures, keys, notes, verdict⟩ := here
    cases verdict with
    | error e => exact ⟨rfl, hfits⟩
    | ok passed =>
      cases passed with
      | false => exact ⟨rfl, hfits⟩
      | true => exact further _ captures

theorem meet_of_fits {b : Branch} (hb : b.cursor.Within S) {keys : Keys}
    (fits : keys.Fits S event) :
    (b.meet event keys).branch = (b.strand.meet event).1.branch b.id ∧
      (b.meet event keys).move = (b.strand.meet event).2 ∧
      (b.meet event keys).keys.Fits S event := by
  obtain ⟨id, captures, frames, cursor⟩ := b
  cases cursor with
  | event c children => exact ⟨rfl, rfl, fits⟩
  | router k template seen =>
    obtain ⟨hfound, hfits⟩ := Keys.find_of_fits coherent hb.1 fits
    unfold Branch.meet Strand.meet
    dsimp only [Branch.strand]
    rw [hfound]
    generalize keys.find k event = found at *
    cases k.key? event with
    | none => exact ⟨rfl, rfl, hfits⟩
    | some value =>
      dsimp only
      cases seen.insert? value with
      | none => exact ⟨rfl, rfl, hfits⟩
      | some known => exact ⟨rfl, rfl, hfits⟩

/-- A look finds the same with keys that were kept and with keys extracted afresh. -/
theorem look_of_fits {b : Branch} (hb : b.Within S) {keys : Keys} (fits : keys.Fits S event)
    (passed : ℕ) :
    (b.look event passed keys).branch = (b.strand.look event passed).1.branch b.id ∧
      (b.look event passed keys).move = (b.strand.look event passed).2 ∧
      (b.look event passed keys).keys.Fits S event := by
  have ahead : ∀ f ∈ b.frames.drop passed, f.Within S :=
    fun f hf => hb.1 f (List.mem_of_mem_drop hf)
  obtain ⟨hway, hfits⟩ := passAll_of_fits coherent ahead fits b.id
    (address (b.frames.take passed)) b.captures
  have hframes : b.strand.frames = b.frames := rfl
  have hcaptures : b.strand.captures = b.captures := rfl
  unfold Branch.look Strand.look
  rw [hframes, hcaptures, ← hway]
  generalize passAll event b.id _ b.captures keys _ = way at *
  obtain ⟨captures, keys, notes, verdict⟩ := way
  cases verdict with
  | error e => exact ⟨rfl, rfl, hfits⟩
  | ok passed =>
    cases passed with
    | false => exact ⟨rfl, rfl, hfits⟩
    | true => exact meet_of_fits coherent (b := { b with captures }) hb.2 hfits

/-- The reactions behind that of a branch are those of the branches behind it. -/
theorem behind_react {d : Due} (within : d.branch.Within S) {t : Tally}
    (fits : t.keys.Fits S event) :
    (d.branch.strand.react event d.passed).behind d.branch.id t.blank =
      (d.behind (Due.look event) t).map fun f =>
        (f.branch.id, f.branch.strand.react event f.passed) := by
  -- Numbers and reactions next to each other, of the same branches.
  have paired (fs : List Branch) : (fs.map Branch.id).zip ((fs.map Branch.strand).map
      (Strand.react event (d.branch.frames.length + 1))) =
        (fs.map (Due.mk · (d.branch.frames.length + 1))).map fun f =>
          (f.branch.id, f.branch.strand.react event f.passed) := by
    rw [List.map_map, List.map_map, List.zip_map']
    rfl
  obtain ⟨seen, moves, -⟩ := look_of_fits coherent within fits d.passed
  have descends := @Strand.look_descend d.branch.strand event d.passed
  have inside := within.2
  rw [Due.behind, ← paired, Strand.react_eq]
  unfold Look.followers Due.look
  rw [seen, moves]
  generalize d.branch.strand.look event d.passed = s at *
  obtain ⟨s, move⟩ := s
  cases move with
  | descend children =>
    obtain ⟨c, cursor⟩ := descends rfl
    rw [show d.branch.cursor = .event c (some children) from cursor] at inside
    have started := startsAt_ne_nil inside.2.2 (List.length_pos_iff.2 inside.2.1)
    dsimp only
    rw [strands_carryOn, Branch.ids_carryOn _ _ _ started]
    simp [Reaction.behind, strandsAt, Tally.blank, Branch.strand, Strand.branch]
  | group key template value known =>
    dsimp only
    rw [strands_launch, Branch.ids_launch]
    simp [Reaction.behind, strandsAt, Tally.blank, Branch.strand, Strand.branch]
  | _ => rfl

theorem alone_react {d : Due} (within : d.branch.Within S) {t : Tally} (path : ℕ)
    (fits : t.keys.Fits S event) :
    Matches S event (d.alone (Due.look event) path t)
      ((d.branch.strand.react event d.passed).alone path d.branch.id t.blank) := by
  obtain ⟨seen, moves, fits⟩ := look_of_fits coherent within fits d.passed
  have quiet : Note.lineage (d.branch.look event d.passed t.keys).notes = [] := lineage_look ..
  have descends := @Strand.look_descend d.branch.strand event d.passed
  have inside := within.2
  unfold Due.alone
  refine Matches.noted ?_ quiet
  rw [Strand.react_eq]
  unfold Look.act Look.followers Due.look
  rw [seen, moves]
  generalize d.branch.strand.look event d.passed = s at *
  obtain ⟨s, move⟩ := s
  cases move with
  | stay => exact ⟨rfl, rfl, rfl, rfl, rfl, fits⟩
  | fail e => exact ⟨rfl, rfl, rfl, rfl, rfl, fits⟩
  | leave =>
    have blank : (s.branch d.branch.id).complete path t.blank = _ :=
      complete_blank _ { t with keys := (d.branch.look event d.passed t.keys).keys }
    show Matches S event _ ((s.branch d.branch.id).complete path t.blank)
    refine blank ▸ ⟨rfl, rfl, rfl, rfl, rfl, ?_⟩
    rw [complete_keys]
    exact fits
  | descend children =>
    obtain ⟨c, cursor⟩ := descends rfl
    rw [show d.branch.cursor = .event c (some children) from cursor] at inside
    have started := startsAt_ne_nil inside.2.2 (List.length_pos_iff.2 inside.2.1)
    dsimp only
    rw [noteNumbers_eq, Branch.ids_carryOn _ _ _ started, Branch.length_carryOn]
    simp only [Reaction.alone, List.length_map, strandsAt]
    exact ⟨rfl, rfl, rfl, rfl, rfl, fits⟩
  | group key template value known =>
    dsimp only
    rw [noteNumbers_eq, Branch.ids_launch, Branch.length_launch]
    simp only [Reaction.alone, List.length_map, strandsAt]
    exact ⟨rfl, rfl, rfl, rfl, rfl, fits⟩

/-- **Steps are the deliveries of the reactions of their branches.** -/
theorem runAll_matches (ds : List Due) (within : ∀ d ∈ ds, d.branch.Within S) (path : ℕ)
    {t : Tally} (fits : t.keys.Fits S event) :
    Matches S event (runAll (ds.map fun d => step path event d.passed d.branch) t)
      (Reaction.deliverAll path (ds.map fun d => d.branch.id)
        (ds.map fun d => d.branch.strand.react event d.passed) t.blank) := by
  let reaction (d : Due) : ℕ × Reaction := (d.branch.id, d.branch.strand.react event d.passed)
  have alike (ds : List Due) (within : ∀ d ∈ ds, d.branch.Within S) :
      List.Forall₂ (fun d r => d.branch.Within S ∧ r = reaction d) ds (ds.map reaction) :=
    List.forall₂_map_right_iff.2 (List.forall₂_same.2 fun d mem => ⟨within d mem, rfl⟩)
  have before : Matches S event (.none, t) (.none, t.blank) := ⟨rfl, rfl, rfl, rfl, rfl, fits⟩
  have turns := (step_turns path event).related (fun r => r.2.deliver_made path r.1) ?next
    (alike ds within) before
  · rw [Reaction.deliverAll_eq, List.zip_map']
    exact turns
  case next =>
    rintro d _ x y ⟨within, rfl⟩ h
    rw [h.tally, behind_react coherent within h.fits]
    refine ⟨h.proceed ?_, alike _ ?_⟩
    · rw [h.tally]
      exact alone_react coherent within path h.fits
    · intro c mem
      obtain ⟨f, hf, rfl⟩ := List.mem_map.1 mem
      exact Due.within_of_mem_followers (d.branch.from_look event d.passed x.2.keys) within hf

/-- The keys that a step keeps are those of the event. -/
theorem step_fits {b : Branch} (within : b.Within S) (path passed : ℕ) {t : Tally}
    (fits : t.keys.Fits S event) : (step path event passed b t).2.keys.Fits S event :=
  (runAll_matches coherent [⟨b, passed⟩] (List.forall_mem_singleton.2 within) path fits).fits

/-- The turn of a path is the delivery of the reactions of its branches. -/
theorem Path.turn_matches {p : Path} (hp : ∀ b ∈ p.running, b.Within S) :
    Matches S event (p.turn event)
      (Reaction.deliverAll p.id (p.running.map Branch.id)
        ((p.running.map Branch.strand).map (Strand.react event 0)) ⟨p.nextId, 0, []⟩) := by
  have turns := runAll_matches coherent (p.running.map (⟨·, 0⟩)) (by simpa using hp) p.id
    (t := ⟨p.nextId, 0, []⟩) (Keys.fits_nil S event)
  simp only [List.map_map] at turns ⊢
  exact turns

/-- The branches of an open path after an event, without their numbers. -/
theorem Path.strands_onEvent {p : Path} (hp : ∀ b ∈ p.running, b.Within S)
    (open_ : p.closed = false) (event : Record) :
    ((p.onEvent event).1.running.map Branch.strand).Perm
      (Reaction.strandsOf ((p.running.map Branch.strand).map (Strand.react event 0))) := by
  have matched : Matches S event (p.turn event) _ := Path.turn_matches coherent hp
  refine ((perm_running_onEvent open_ event).map _).trans ?_
  rw [matched.running, (Reaction.deliverAll_outcome _ _ _ _ (by simp)).1]

/-- The results of an open path after an event, without their numbers. -/
theorem Path.endings_onEvent {p : Path} (hp : ∀ b ∈ p.running, b.Within S)
    (open_ : p.closed = false) (event : Record) :
    (p.onEvent event).1.finished.map Finish.ending = p.finished.map Finish.ending ++
      Reaction.endingsOf ((p.running.map Branch.strand).map (Strand.react event 0)) := by
  have matched : Matches S event (p.turn event) _ := Path.turn_matches coherent hp
  rw [finished_onEvent open_, List.map_append, matched.finished,
    (Reaction.deliverAll_outcome _ _ _ _ (by simp)).2]

end Steps

end TracePattern
