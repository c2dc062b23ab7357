import TracePattern.Proofs.Report.Visits

/-!
# Where a branch goes on

After an event the number of a branch still belongs to a branch that runs or has ended.  If it runs,
it stays where it was, or has moved on through the expression: it stands below its node, or has left
its node behind.

* `Onward`: a place below another one, or behind it;
* `Move.Remains`: the branch stays; `Effects.Lives`: what has become of a number;
* `Strand.lives_react`: it stays, ends or goes on; `Strand.moves_react`: it does not come back.
-/

namespace TracePattern

/-! ### Places further on -/

/-- The place at `w` lies at `r`, below it, or after it in the order of the expression. -/
def Onward (r w : List ℕ) : Prop := r <+: w ∨ Past r w

/-- A place does not lie inside a node that it has left behind, nor above it. -/
theorem Past.not_prefix_of {r w : List ℕ} (past : Past r w) : ¬ w <+: r := by
  obtain ⟨common, i, j, lt, left, right⟩ := past
  intro above
  have same : common ++ [i] = common ++ [j] :=
    (List.prefix_of_prefix_length_le left (right.trans above) (by simp)).eq_of_length (by simp)
  have : i = j := by simpa using same
  omega

namespace Onward

variable {r w : List ℕ}

/-- What lies further on than a place below a node lies further on than the node. -/
theorem of_below {v : List ℕ} (below : r <+: v) (onward : Onward v w) : Onward r w := by
  rcases onward with inside | ⟨common, i, j, lt, left, right⟩
  · exact .inl (below.trans inside)
  · rcases List.prefix_or_prefix_of_prefix below left with out | into
    · rcases List.prefix_concat_iff.1 out with same | out
      · exact .inr ⟨common, i, j, lt, same ▸ List.prefix_rfl, right⟩
      · exact .inl (out.trans ((List.prefix_append common [j]).trans right))
    · exact .inr ⟨common, i, j, lt, into, right⟩

/-- A place that lies further on than one strictly below a node is not at the node. -/
theorem ne_of_below {v : List ℕ} (below : r <+: v) (strict : r ≠ v) (onward : Onward v w) :
    w ≠ r := by
  rintro rfl
  rcases onward with inside | past
  · exact strict (below.eq_of_length_le inside.length_le)
  · exact past.not_prefix_of below

end Onward

/-! ### Moves -/

/-- The branch stays at its node: it waits on, or it is a router, which only takes note of a key. -/
def Move.Remains : Move → Prop
  | .stay => True
  | .group _ _ _ _ => True
  | _ => False

/-! ### Numbers -/

/-- The number belongs to a branch that runs at a suitable place, or has ended. -/
def Effects.Lives (id : ℕ) (at_ : List ℕ → Prop) (e : Effects) : Prop :=
  (∃ b ∈ e.running, b.id = id ∧ at_ (address b.frames)) ∨ ∃ f ∈ e.finished, f.id = id

namespace Effects.Lives

variable {id : ℕ} {at_ there : List ℕ → Prop} {e : Effects}

theorem imp (lives : e.Lives id at_) (further : ∀ w, at_ w → there w) : e.Lives id there :=
  lives.imp_left fun ⟨b, mem, number, place⟩ => ⟨b, mem, number, further _ place⟩

theorem append_left (lives : e.Lives id at_) (before : Effects) : (before ++ e).Lives id at_ :=
  Or.imp (fun ⟨b, mem, place⟩ => ⟨b, List.mem_append_right _ mem, place⟩)
    (fun ⟨f, mem, number⟩ => ⟨f, List.mem_append_right _ mem, number⟩) lives

theorem append_right (lives : e.Lives id at_) (after : Effects) : (e ++ after).Lives id at_ :=
  Or.imp (fun ⟨b, mem, place⟩ => ⟨b, List.mem_append_left _ mem, place⟩)
    (fun ⟨f, mem, number⟩ => ⟨f, List.mem_append_left _ mem, number⟩) lives

end Effects.Lives

namespace Strand

variable {S : Scope} {event : Record} {s : Strand}

/-- A strand that leaves its node ends, or goes on behind it. -/
theorem lives_leave (within : s.Within S) (path id : ℕ) (t : Tally) :
    ((Reaction.leave s).deliver path id t).1.Lives id (Past (address s.frames)) := by
  simp only [Reaction.deliver, Branch.complete]
  split
  · exact .inr ⟨_, List.mem_singleton_self _, rfl⟩
  · rename_i outer children index next
    obtain ⟨i, inner, frames, rfl, -⟩ := unwind_next next
    obtain ⟨-, children_within, less⟩ := within_unwind within.1 next
    replace frames : s.frames = outer ++ .sequence children i :: inner := frames
    obtain ⟨start, others, starts⟩ := List.exists_cons_of_ne_nil
      (startsAt_ne_nil children_within less)
    obtain ⟨more, at_start⟩ := frames_of_mem_startsAt
      (show start ∈ startsAt children (i + 1) from starts ▸ List.mem_cons_self)
    rw [starts]
    refine .inl ⟨_, List.mem_cons_self, rfl, address outer, i, i + 1, Nat.lt_succ_self i, ?_, ?_⟩
    · rw [frames]
      exact ⟨address inner, by simp [address, Frame.child]⟩
    · rw [at_start]
      exact ⟨address more, by simp [address, Frame.child]⟩

/-- A strand that descends goes on further in, if those behind it go on from where they are. -/
theorem lives_descend {passed : ℕ} {children : List Expr} (within : s.Within S)
    (descends : (s.look event passed).2 = .descend children) (path id : ℕ) (t : Tally)
    (behind : ∀ r : Strand, r.Within S → r.cursor.size < s.cursor.size → ∀ u : Tally,
      ((r.react event (s.frames.length + 1)).deliver path id u).1.Lives id
        (Onward (address r.frames))) :
    ∃ v, address s.frames <+: v ∧ address s.frames ≠ v ∧
      ((s.react event passed).deliver path id t).1.Lives id (Onward v) := by
  obtain ⟨c, cursor⟩ := look_descend descends
  have cursor_within : s.cursor.Within S := within.2
  rw [cursor] at cursor_within
  obtain ⟨-, nonempty, children_within⟩ := cursor_within
  obtain ⟨start, others, starts⟩ := List.exists_cons_of_ne_nil
    (startsAt_ne_nil children_within (List.length_pos_iff.2 nonempty))
  have mem : start ∈ startsAt children 0 := starts ▸ List.mem_cons_self
  obtain ⟨more, at_start⟩ := frames_of_mem_startsAt mem
  let first : Strand := ⟨(s.look event passed).1.captures, s.frames ++ start.frames, start.cursor⟩
  have first_within : first.Within S := (within_startsAt children_within mem).under within.1
  have smaller : first.cursor.size < s.cursor.size :=
    smaller_strandsAt_children cursor first (List.mem_map_of_mem mem)
  have below : address first.frames = address s.frames ++ 0 :: address more := by
    simp [first, at_start, address, Frame.child]
  refine ⟨address first.frames, below ▸ List.prefix_append _ _, by simp [below], ?_⟩
  rw [react_eq]
  simp only [descends, starts, strandsAt, List.map_cons, Reaction.deliver, Reaction.deliverAll]
  exact ((behind first first_within smaller _).append_right _).append_left _

/-- **A branch ends, or goes on from where it was.** -/
theorem lives_react (within : s.Within S) (passed path id : ℕ) (t : Tally) :
    ((s.react event passed).deliver path id t).1.Lives id (Onward (address s.frames)) := by
  induction size : s.cursor.size using Nat.strongRecOn generalizing passed s t with
  | ind n ih =>
    subst size
    have same := s.look_frames event passed
    have seen_within : (s.look event passed).1.Within S := by
      unfold Within
      rw [look_frames, look_cursor]
      exact within
    cases move : (s.look event passed).2 with
    | descend children =>
      obtain ⟨v, below, -, lives⟩ := lives_descend within move path id t
        fun r r_within smaller u => ih _ smaller r_within _ _ rfl
      exact lives.imp fun w => Onward.of_below below
    | stay =>
      rw [react_eq]
      simp only [move]
      exact .inl ⟨_, List.mem_singleton_self _, rfl, .inl (same ▸ List.prefix_rfl)⟩
    | fail e =>
      rw [react_eq]
      simp only [move]
      exact .inr ⟨_, List.mem_singleton_self _, rfl⟩
    | leave =>
      rw [react_eq]
      simp only [move]
      exact (lives_leave seen_within path id t).imp fun w past => .inr (same ▸ past)
    | group key template value known =>
      rw [react_eq]
      simp only [move, Reaction.deliver]
      refine Effects.Lives.append_right (Effects.Lives.append_right ?_ _) _
      exact .inl ⟨_, List.mem_singleton_self _, rfl, .inl (same ▸ List.prefix_rfl)⟩

/-- **A branch that fails, leaves its node or descends from it does not run there afterwards.** -/
theorem moves_react (within : s.Within S) {passed : ℕ}
    (moves : ¬ (s.look event passed).2.Remains) (path id : ℕ) (t : Tally) :
    ((s.react event passed).deliver path id t).1.Lives id (· ≠ address s.frames) := by
  have same := s.look_frames event passed
  have seen_within : (s.look event passed).1.Within S := by
    unfold Within
    rw [look_frames, look_cursor]
    exact within
  cases move : (s.look event passed).2 with
  | descend children =>
    obtain ⟨v, below, strict, lives⟩ := lives_descend within move path id t
      fun r r_within _ u => lives_react r_within _ path id u
    exact lives.imp fun w => Onward.ne_of_below below strict
  | stay => exact absurd (move ▸ trivial) moves
  | fail e =>
    rw [react_eq]
    simp only [move]
    exact .inr ⟨_, List.mem_singleton_self _, rfl⟩
  | leave =>
    rw [react_eq]
    simp only [move]
    refine (lives_leave seen_within path id t).imp fun w past => ?_
    rw [same] at past
    rintro rfl
    exact past.not_prefix List.prefix_rfl
  | group key template value known => exact absurd (move ▸ trivial) moves

end Strand

end TracePattern
