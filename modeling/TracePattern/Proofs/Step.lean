import Mathlib.Tactic.Common
import TracePattern.Proofs.Scope

/-!
# What a step can do

A step changes the captured values of its branch, and moves the branch or not.  The facts about
steps that hold of every event are stated here once.

* `Frame.isGate`, `passAll_of_gates`: what matters to an event among some frames;
* `Branch.look_branch`: what a look leaves as it is;
* `Branch.look_descend_cursor`, `Branch.look_group_cursor`: where the two moves come from that go on
  in the same event;
* `Branch.ids_launch`, `Branch.ids_carryOn`: the numbers of the branches that follow.
-/

namespace TracePattern

variable {S : Scope} {path : Nat} {event : Record}

/-- The starts of a child stand inside the sequence of its siblings. -/
theorem frames_of_mem_startsAt {children : List Expr} {index : ℕ} {s : Start}
    (hs : s ∈ startsAt children index) : ∃ inner, s.frames = .sequence children index :: inner := by
  unfold startsAt at hs
  split at hs
  · obtain ⟨t, -, rfl⟩ := List.mem_map.1 hs
    exact ⟨t.frames, rfl⟩
  · cases hs

/-! ### Gates -/

/-- The frame can hold events back. -/
def Frame.isGate : Frame → Bool
  | .gate _ _ => true
  | .route _ _ => true
  | _ => false

/-- Only the gates among some frames matter to an event, and not where they are. -/
theorem passAll_gates (event : Record) (branch branch' : ℕ) (node node' : List ℕ)
    (captures : Captures) (keys : Keys) (frames : List Frame) :
    let all := passAll event branch node captures keys frames
    let gates := passAll event branch' node' captures keys (frames.filter Frame.isGate)
    gates.captures = all.captures ∧ gates.keys = all.keys ∧ gates.verdict = all.verdict := by
  induction frames generalizing node node' captures keys with
  | nil => exact ⟨rfl, rfl, rfl⟩
  | cons f rest ih =>
    cases f with
    | record sink => exact ih (node ++ [0]) node' captures keys
    | sequence children index => exact ih (node ++ [index]) node' captures keys
    | gate condition child =>
      rw [List.filter_cons_of_pos rfl, passAll, passAll]
      dsimp only [Frame.pass]
      cases (condition.evaluate event captures).2.guarded with
      | error e => exact ⟨rfl, rfl, rfl⟩
      | ok held =>
        cases held with
        | false => exact ⟨rfl, rfl, rfl⟩
        | true => exact ih (node ++ [child]) (node' ++ [child]) _ keys
    | route key value =>
      rw [List.filter_cons_of_pos rfl, passAll, passAll]
      dsimp only [Frame.pass]
      cases (keys.find key event).1.any fun v => v.equal value with
      | false => exact ⟨rfl, rfl, rfl⟩
      | true => exact ih (node ++ [0]) (node' ++ [0]) captures _

/-- An event passes frames with the same gates alike. -/
theorem passAll_of_gates {frames frames' : List Frame}
    (same : frames'.filter Frame.isGate = frames.filter Frame.isGate) (event : Record)
    (branch branch' : ℕ) (node node' : List ℕ) (captures : Captures) (keys : Keys) :
    let x := passAll event branch node captures keys frames
    let y := passAll event branch' node' captures keys frames'
    y.captures = x.captures ∧ y.keys = x.keys ∧ y.verdict = x.verdict := by
  have left := passAll_gates event branch branch node node captures keys frames
  have right := passAll_gates event branch' branch node' node captures keys frames'
  rw [same] at right
  exact ⟨right.1.symm.trans left.1, right.2.1.symm.trans left.2.1,
    right.2.2.symm.trans left.2.2⟩

namespace Branch

/-! ### Looks -/

theorem meet_branch (b : Branch) (event : Record) (keys : Keys) :
    (b.meet event keys).branch = { b with captures := (b.meet event keys).branch.captures } := by
  unfold meet
  split
  · rfl
  · dsimp only
    split
    · rfl
    · split <;> rfl

/-- A look changes nothing of a branch but its captured values. -/
theorem look_branch (b : Branch) (event : Record) (passed : Nat) (keys : Keys) :
    (b.look event passed keys).branch =
      { b with captures := (b.look event passed keys).branch.captures } := by
  unfold look
  dsimp only
  split
  · rfl
  · rfl
  · exact meet_branch _ event _

@[simp] theorem look_id (b : Branch) (event : Record) (passed : Nat) (keys : Keys) :
    (b.look event passed keys).branch.id = b.id := by rw [look_branch]

@[simp] theorem look_frames (b : Branch) (event : Record) (passed : Nat) (keys : Keys) :
    (b.look event passed keys).branch.frames = b.frames := by rw [look_branch]

@[simp] theorem look_cursor (b : Branch) (event : Record) (passed : Nat) (keys : Keys) :
    (b.look event passed keys).branch.cursor = b.cursor := by rw [look_branch]

theorem meet_descend_cursor {b : Branch} {keys : Keys} {children : List Expr}
    (h : (b.meet event keys).move = .descend children) :
    ∃ c, b.cursor = .event c (some children) := by
  unfold meet at h
  split at h
  · rename_i c cs hc
    dsimp only at h
    split at h
    · cases h
    · cases h
    · split at h
      · cases h
      · cases h
        exact ⟨c, hc⟩
  · dsimp only at h
    split at h
    · cases h
    · split at h <;> cases h

theorem meet_group_cursor {b : Branch} {keys : Keys} {key : KeyExtractor} {template : Expr}
    {value : Value} {known : KeySet}
    (h : (b.meet event keys).move = .group key template value known) :
    ∃ seen, b.cursor = .router key template seen := by
  unfold meet at h
  split at h
  · dsimp only at h
    split at h
    · cases h
    · cases h
    · split at h <;> cases h
  · rename_i k t seen hc
    dsimp only at h
    split at h
    · cases h
    · split at h
      · cases h
      · cases h
        exact ⟨seen, hc⟩

/-- A branch descends from a node that waited for an event. -/
theorem look_descend_cursor {b : Branch} {passed : Nat} {keys : Keys} {children : List Expr}
    (h : (b.look event passed keys).move = .descend children) :
    ∃ c, b.cursor = .event c (some children) := by
  unfold look at h
  dsimp only at h
  split at h
  · cases h
  · cases h
  · dsimp only at h
    have := meet_descend_cursor h
    exact this

/-- A branch that forms a group is a router. -/
theorem look_group_cursor {b : Branch} {passed : Nat} {keys : Keys} {key : KeyExtractor}
    {template : Expr} {value : Value} {known : KeySet}
    (h : (b.look event passed keys).move = .group key template value known) :
    ∃ seen, b.cursor = .router key template seen := by
  unfold look at h
  dsimp only at h
  split at h
  · cases h
  · cases h
  · dsimp only at h
    have := meet_group_cursor h
    exact this

/-! ### Branches that follow -/

@[simp] theorem length_launch (captures : Captures) (outer : List Frame) (starts : List Start)
    (next : Nat) : (launch captures outer starts next).length = starts.length := by
  simp [launch]

theorem ids_launch (captures : Captures) (outer : List Frame) (starts : List Start) (next : Nat) :
    (launch captures outer starts next).map id = List.range' next starts.length := by
  simp only [launch, List.map_map]
  exact List.zipIdx_map_snd next starts

theorem length_carryOn (b : Branch) (outer : List Frame) (starts : List Start) (next : Nat) :
    (b.carryOn outer starts next).length = starts.length := by
  cases starts <;> simp [carryOn]

theorem ids_carryOn (b : Branch) (outer : List Frame) {starts : List Start} (next : Nat)
    (h : starts ≠ []) :
    (b.carryOn outer starts next).map id = b.id :: List.range' next (starts.length - 1) := by
  cases starts with
  | nil => exact absurd rfl h
  | cons s rest => simp [carryOn, ids_launch]

theorem place_of_mem_launch {captures : Captures} {outer : List Frame} {starts : List Start}
    {next : Nat} {b : Branch} (h : b ∈ launch captures outer starts next) :
    ∃ s ∈ starts, b.frames = outer ++ s.frames ∧ b.cursor = s.cursor := by
  obtain ⟨⟨s, i⟩, hs, rfl⟩ := List.mem_map.1 h
  exact ⟨s, List.fst_mem_of_mem_zipIdx hs, rfl, rfl⟩

theorem place_of_mem_carryOn {b : Branch} {outer : List Frame} {starts : List Start} {next : Nat}
    {c : Branch} (h : c ∈ b.carryOn outer starts next) :
    ∃ s ∈ starts, c.frames = outer ++ s.frames ∧ c.cursor = s.cursor := by
  cases starts with
  | nil => cases h
  | cons s rest =>
    rcases List.mem_cons.1 h with rfl | h
    · exact ⟨s, List.mem_cons_self, rfl, rfl⟩
    · obtain ⟨t, ht, hf, hc⟩ := place_of_mem_launch h
      exact ⟨t, List.mem_cons_of_mem _ ht, hf, hc⟩

theorem within_carryOn {b : Branch} {outer : List Frame} {children : List Expr} {i next : Nat}
    (ho : ∀ f ∈ outer, f.Within S) (h : Expr.AllWithin S children) :
    ∀ c ∈ b.carryOn outer (startsAt children i) next, c.Within S := by
  intro c hc
  obtain ⟨s, hs, hf, hcur⟩ := place_of_mem_carryOn hc
  unfold Within
  rw [hf, hcur]
  exact (within_startsAt h hs).under ho

theorem within_launch {captures : Captures} {outer : List Frame} {e : Expr} {next : Nat}
    (ho : ∀ f ∈ outer, f.Within S) (h : e.Within S) :
    ∀ c ∈ launch captures outer e.starts next, c.Within S := by
  intro c hc
  obtain ⟨s, hs, hf, hcur⟩ := place_of_mem_launch hc
  unfold Within
  rw [hf, hcur]
  exact (Expr.within_starts h hs).under ho

/-- The branches that start on the children of a node have less before them than the node. -/
theorem smaller_carryOn {b a : Branch} {c : Condition} {outer : List Frame} {children : List Expr}
    {i next : Nat} (hc : a.cursor = .event c (some children)) :
    ∀ f ∈ b.carryOn outer (startsAt children i) next, f.cursor.size < a.cursor.size := by
  intro f hf
  obtain ⟨s, hs, -, hcur⟩ := place_of_mem_carryOn hf
  rw [hcur, hc]
  have := size_of_mem_startsAt hs
  show s.cursor.size < 1 + Expr.sizes children
  omega

/-- The branches of a group have less before them than the router. -/
theorem smaller_launch {a : Branch} {key : KeyExtractor} {template : Expr} {seen : KeySet}
    {captures : Captures} {outer : List Frame} {next : Nat}
    (hc : a.cursor = .router key template seen) :
    ∀ f ∈ launch captures outer template.starts next, f.cursor.size < a.cursor.size := by
  intro f hf
  obtain ⟨s, hs, -, hcur⟩ := place_of_mem_launch hf
  rw [hcur, hc]
  have := size_of_mem_starts hs
  show s.cursor.size < 1 + template.size
  omega

end Branch

/-! ### Effects -/

@[simp] theorem Effects.append_none (e : Effects) : e ++ Effects.none = e := by
  cases e
  show Effects.append _ _ = _
  simp [Effects.append, Effects.none]

theorem Effects.append_assoc (a b c : Effects) : a ++ b ++ c = a ++ (b ++ c) := by
  show Effects.append (Effects.append _ _) _ = Effects.append _ (Effects.append _ _)
  simp [Effects.append]

end TracePattern
