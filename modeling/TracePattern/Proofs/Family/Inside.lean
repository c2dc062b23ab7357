import TracePattern.Proofs.Isolation

/-!
# Strands further in

The frames of groups do nothing but hold events back.  A strand inside further such frames reacts
to an event that gets through them as it reacts without them, and all that follows from it stands
inside them too.

* `OfGroups`: frames of groups only;
* `Strand.inside`, `Reaction.inside`, `Ending.inside`: the same further in;
* `unwind_inside`: such frames are left like nothing;
* `Strand.react_inside`, `Strand.react_of_lets`: reactions further in.
-/

namespace TracePattern

/-- There are only frames of groups. -/
def OfGroups (outer : List Frame) : Prop := ∀ f ∈ outer, ∃ key value, f = .route key value

/-- The same strand inside further frames. -/
def Strand.inside (outer : List Frame) (s : Strand) : Strand :=
  { s with frames := outer ++ s.frames }

/-- A position inside further frames, in words. -/
def heading (outer : List Frame) (position : String) : String :=
  outer.foldr (fun f p => f.describe ++ " > " ++ p) position

/-- The same result inside further frames. -/
def Ending.inside (outer : List Frame) (e : Ending) : Ending :=
  { e with position := heading outer e.position }

mutual
/-- The same reaction inside further frames. -/
def Reaction.inside (outer : List Frame) : Reaction → Reaction
  | .stay s => .stay (s.inside outer)
  | .fail s e => .fail (s.inside outer) e
  | .leave s => .leave (s.inside outer)
  | .descend followers => .descend (Reaction.insideAll outer followers)
  | .group router members => .group (router.inside outer) (Reaction.insideAll outer members)

/-- The same reactions inside further frames. -/
def Reaction.insideAll (outer : List Frame) : List Reaction → List Reaction
  | [] => []
  | r :: rest => r.inside outer :: Reaction.insideAll outer rest
end

variable {outer : List Frame}

theorem Reaction.insideAll_eq (outer : List Frame) (rs : List Reaction) :
    insideAll outer rs = rs.map (Reaction.inside outer) := by
  induction rs with
  | nil => rfl
  | cons r rest ih => rw [insideAll, ih, List.map_cons]

@[simp] theorem Reaction.length_insideAll (outer : List Frame) (rs : List Reaction) :
    (insideAll outer rs).length = rs.length := by
  rw [insideAll_eq, List.length_map]

theorem strandsAt_inside (captures : Captures) (outer frames : List Frame) (starts : List Start) :
    strandsAt captures (outer ++ frames) starts =
      (strandsAt captures frames starts).map (Strand.inside outer) := by
  simp [strandsAt, Strand.inside]

/-- The frames of groups are left like nothing. -/
theorem unwind_inside (groups : OfGroups outer) (frames : List Frame) :
    unwind (outer ++ frames) =
      ⟨(unwind frames).sinks, (unwind frames).next.map fun n => (outer ++ n.1, n.2)⟩ := by
  induction outer with
  | nil =>
    rw [List.nil_append]
    cases unwind frames with
    | mk sinks next => cases next <;> rfl
  | cons f rest ih =>
    obtain ⟨key, value, rfl⟩ := groups f List.mem_cons_self
    have inner := ih fun g hg => groups g (List.mem_cons_of_mem _ hg)
    rw [List.cons_append, unwind, inner]
    cases hn : (unwind frames).next with
    | none => rfl
    | some next => rfl

theorem Cursor.describe_ne_nil (cursor : Cursor) : cursor.describe ≠ [] := by
  match cursor with
  | .event c none => simp [describe]
  | .event c (some children) => simp [describe]
  | .router key template seen => simp [describe]

theorem Strand.ending_inside (s : Strand) (outcome : Outcome) (error : Option EvalError) :
    (s.inside outer).ending outcome error = (s.ending outcome error).inside outer := by
  have position : ((s.inside outer).branch 0).position = heading outer (s.branch 0).position := by
    induction outer with
    | nil => rfl
    | cons f rest ih =>
      have some_left : rest.map Frame.describe ++
          (s.frames.map Frame.describe ++ s.cursor.describe) ≠ [] := by
        simp [Cursor.describe_ne_nil]
      rw [heading, List.foldr_cons, ← heading, ← ih]
      simp only [Branch.position, branch, inside, List.cons_append, List.map_cons, List.map_append,
        List.append_assoc]
      exact String.intercalate_cons_of_ne_nil some_left
  unfold Strand.ending Finish.ending Branch.finish Ending.inside
  rw [position]
  rfl

/-! ### Reactions further in -/

theorem Strand.meet_inside (s : Strand) (event : Record) :
    (s.inside outer).meet event = ((s.meet event).1.inside outer, (s.meet event).2) := by
  obtain ⟨captures, frames, cursor⟩ := s
  cases cursor with
  | event c children => rfl
  | router key template seen =>
    unfold meet inside
    dsimp only
    cases key.key? event with
    | none => rfl
    | some value =>
      dsimp only
      cases seen.insert? value <;> rfl

theorem Strand.look_inside (s : Strand) (event : Record) (passed : ℕ) :
    (s.inside outer).look event (outer.length + passed) =
      ((s.look event passed).1.inside outer, (s.look event passed).2) := by
  have ahead : (s.inside outer).frames.drop (outer.length + passed) = s.frames.drop passed := by
    rw [inside, List.drop_append, List.drop_eq_nil_of_le (by omega), List.nil_append]
    congr 1
    omega
  have captured : (s.inside outer).captures = s.captures := rfl
  unfold look
  rw [ahead, captured]
  generalize letsAll event s.captures (s.frames.drop passed) = way
  obtain ⟨captures, verdict⟩ := way
  match verdict with
  | .error e => rfl
  | .ok false => rfl
  | .ok true => exact meet_inside { s with captures } event

/-- **A strand reacts further in as it reacts without the further frames.** -/
theorem Strand.react_inside (s : Strand) (event : Record) (passed : ℕ) :
    (s.inside outer).react event (outer.length + passed) = (s.react event passed).inside outer := by
  induction hn : s.cursor.size using Nat.strongRecOn generalizing passed s with
  | ind n ih =>
    subst hn
    -- The strands that follow are further in by the same frames.
    have followers : ∀ (ts : List Strand) (passed : ℕ), (∀ t ∈ ts, t.cursor.size < s.cursor.size) →
        (ts.map (inside outer)).map (react event (outer.length + passed)) =
          Reaction.insideAll outer (ts.map (react event passed)) := by
      intro ts passed smaller
      rw [Reaction.insideAll_eq, List.map_map, List.map_map]
      exact List.map_congr_left fun t ht => ih _ (smaller t ht) t passed rfl
    have descends := @look_descend s event passed
    have groups := @look_group s event passed
    have further : (s.inside outer).frames.length + 1 = outer.length + (s.frames.length + 1) := by
      simp [inside]
      omega
    rw [react_eq, react_eq, look_inside, further]
    generalize s.look event passed = seen at *
    obtain ⟨t, move⟩ := seen
    cases move with
    | stay => rfl
    | fail e => rfl
    | leave => rfl
    | descend children =>
      obtain ⟨c, hc⟩ := descends rfl
      dsimp only
      rw [Reaction.inside, ← followers _ _ (smaller_strandsAt_children hc), ← strandsAt_inside]
      rfl
    | group key template value known =>
      obtain ⟨seen, hc, -, -⟩ := groups rfl
      dsimp only
      rw [Reaction.inside, ← followers _ _ (smaller_strandsAt_template hc), ← strandsAt_inside,
        ← List.append_assoc]
      rfl

/-- An event that gets through the further frames meets the strand like one that was let through
them before. -/
theorem Strand.react_of_lets (s : Strand) {event : Record}
    (lets : letsAll event s.captures outer = (s.captures, .ok true)) :
    (s.inside outer).react event 0 = (s.react event 0).inside outer := by
  have same : (s.inside outer).look event 0 = (s.inside outer).look event outer.length := by
    have way : letsAll event s.captures (outer ++ s.frames) =
        letsAll event s.captures s.frames := by
      rw [letsAll_append, lets]
    unfold look
    simp only [inside, List.drop_zero, List.drop_left, way]
  rw [← react_inside, Nat.add_zero, react_eq, react_eq, same]

end TracePattern
