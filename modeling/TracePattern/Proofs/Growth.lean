import TracePattern.Proofs.Encounter.Captures
import TracePattern.Proofs.Family.Lineage

/-!
# Captured keys stay

A branch only ever captures further keys: it takes those that it has along through all events, hands
them on to the branches that follow from it, and leaves them in its result.

* `Condition.Grows`, `Scope.Growing`: conditions whose own captures take no key away;
* `Condition.keys_evaluate`, `Branch.keys_look`: what an event does to the keys of one branch;
* `Branch.Rich`: a branch with some keys, and with the names of all groups around it;
* `Encounter.rich_followers`, `Encounter.rich_own`: what it hands on;
* `Path.Captured`: what the branch of a number has captured, whether it runs or has ended;
* `Path.captured_of_encounter`, `Path.captured_after`: it keeps its keys in an event and in a life;
* `Path.keys_stay`: captured keys in every life of a path.
-/

namespace TracePattern

/-! ### Keys -/

namespace Captures

variable {s : Captures} {key other : String} {value : Value}

theorem mem_keys : key ∈ s.keys ↔ s.contains key = true := by
  simp [keys, contains, get?, find?]

/-- A further capture adds its key. -/
theorem mem_keys_insert : other ∈ (s.insert key value).keys ↔ other = key ∨ other ∈ s.keys := by
  rw [mem_keys, mem_keys, contains, contains, get?_insert]
  split
  · rename_i same
    simp [same]
  · rename_i different
    simp [Ne.symm different]

theorem keys_subset_insert (s : Captures) (key : String) (value : Value) :
    s.keys ⊆ (s.insert key value).keys :=
  fun _ mem => mem_keys_insert.2 (.inr mem)

end Captures

/-- The condition's own capture takes no key away, also where it stops half-way. Captures that only
insert are like that. -/
def Condition.Grows (c : Condition) : Prop :=
  ∀ capture, c.capture = some capture → ∀ event captures,
    captures.keys ⊆ (capture event captures).1.keys

/-- All conditions in the scope take no key away. -/
def Scope.Growing (S : Scope) : Prop := ∀ c, S.condition c → c.Grows

section Looks

variable {event : Record} {captures : Captures}

/-- **Whatever becomes of a condition, no key is lost.** -/
theorem Condition.keys_evaluate {c : Condition} (grows : c.Grows) :
    captures.keys ⊆ (c.evaluate event captures).1.keys := by
  have kept : ∀ value, captures.keys ⊆ (c.keep value captures).keys := by
    intro value
    unfold keep
    split
    · exact captures.keys_subset_insert _ _
    · exact List.Subset.refl _
  unfold evaluate
  dsimp only
  split
  · exact List.Subset.refl _
  · exact List.Subset.refl _
  · rename_i value probed
    split
    · exact kept value
    · rename_i capture own
      exact List.Subset.trans (kept value) (grows capture own event _)

variable {S : Scope} (growing : S.Growing)
include growing

theorem keys_pass {f : Frame} (within : f.Within S) (branch : ℕ) (node : List ℕ) (keys : Keys) :
    captures.keys ⊆ (f.pass event branch node captures keys).captures.keys := by
  cases f with
  | gate c child => exact Condition.keys_evaluate (growing c within)
  | _ => exact List.Subset.refl _

theorem keys_passAll {frames : List Frame} (within : ∀ f ∈ frames, f.Within S) (branch : ℕ)
    (node : List ℕ) (keys : Keys) :
    captures.keys ⊆ (passAll event branch node captures keys frames).captures.keys := by
  induction frames generalizing node captures keys with
  | nil => exact List.Subset.refl _
  | cons f rest ih =>
    obtain ⟨first, others⟩ := List.forall_mem_cons.1 within
    have here : captures.keys ⊆ (f.pass event branch node captures keys).captures.keys :=
      keys_pass growing first branch node keys
    unfold passAll
    dsimp only
    split
    · exact List.Subset.trans here (ih others _ _)
    · exact here

namespace Branch

theorem keys_meet {b : Branch} (within : b.cursor.Within S) (keys : Keys) :
    b.captures.keys ⊆ (b.meet event keys).branch.captures.keys := by
  obtain ⟨id, captures, frames, cursor⟩ := b
  cases cursor with
  | event c children =>
    have waits : S.condition c := by
      cases children with
      | none => exact within
      | some children => exact within.1
    exact Condition.keys_evaluate (growing c waits)
  | router key template seen =>
    unfold meet
    dsimp only
    split
    · exact List.Subset.refl _
    · split <;> exact List.Subset.refl _

/-- **An event takes no key from the branch that it meets.** -/
theorem keys_look {b : Branch} (within : b.Within S) (passed : ℕ) (keys : Keys) :
    b.captures.keys ⊆ (b.look event passed keys).branch.captures.keys := by
  have ahead : ∀ f ∈ b.frames.drop passed, f.Within S :=
    fun f mem => within.1 f (List.mem_of_mem_drop mem)
  have way : b.captures.keys ⊆ (passAll event b.id (address (b.frames.take passed)) b.captures keys
      (b.frames.drop passed)).captures.keys := keys_passAll growing ahead b.id _ keys
  unfold look
  generalize passAll event b.id _ b.captures keys _ = passage at way ⊢
  dsimp only
  split
  · exact way
  · exact way
  · let met : Branch := { b with captures := passage.captures }
    exact List.Subset.trans way (keys_meet (b := met) growing within.2 _)

end Branch

end Looks

/-! ### Branches -/

/-- The branch has captured some keys, and the names of all groups around it. -/
structure Branch.Rich (S : Scope) (base : List String) (b : Branch) : Prop where
  within : b.Within S
  base : base ⊆ b.captures.keys
  named : ∀ key value, .route key value ∈ b.frames → key.name ∈ b.captures.keys

/-- A branch that follows from another one with all its keys. It may be in a further group, of which
it has captured the name. -/
theorem Branch.Rich.follow {S : Scope} {base : List String} {b c : Branch} (rich : b.Rich S base)
    (within : c.Within S) (keys : b.captures.keys ⊆ c.captures.keys)
    (groups : ∀ key value, .route key value ∈ c.frames →
      .route key value ∈ b.frames ∨ key.name ∈ c.captures.keys) : c.Rich S base where
  within := within
  base := List.Subset.trans rich.base keys
  named key value mem := by
    rcases groups key value mem with outer | named
    · exact keys (rich.named key value outer)
    · exact named

/-- A branch that leaves its node goes on with all its keys, outside of the nodes that are completed,
and the sinks hear of all its keys. -/
theorem Branch.Rich.complete {S : Scope} {base : List String} {b : Branch} (rich : b.Rich S base)
    (path : ℕ) (t : Tally) :
    (∀ c ∈ (b.complete path t).1.running, c.Rich S base) ∧
      ∀ r ∈ (b.complete path t).1.reports, r.result.captures = b.captures := by
  have captures := (b.captures_complete path t).1
  unfold Branch.complete at captures ⊢
  dsimp only at captures ⊢
  have reported : ∀ r ∈ (unwind b.frames).sinks.map fun sink =>
      (⟨sink, b.recorded path .successful none⟩ : Report), r.result.captures = b.captures := by
    intro r mem
    obtain ⟨sink, -, rfl⟩ := List.mem_map.1 mem
    rfl
  split
  · exact ⟨List.forall_mem_nil _, reported⟩
  · rename_i outer children index next
    refine ⟨fun c mem => ?_, reported⟩
    obtain ⟨i, inner, frames, -, -⟩ := unwind_next next
    obtain ⟨outside, inside, -⟩ := within_unwind rich.within.1 next
    obtain ⟨s, hs, at_c, -⟩ := Branch.place_of_mem_carryOn mem
    simp only [next] at captures
    refine rich.follow (Branch.within_carryOn outside inside c mem)
      (captures c mem ▸ List.Subset.refl _) fun key value route => ?_
    rw [at_c] at route
    rcases List.mem_append.1 route with route | route
    · exact .inl (frames ▸ List.mem_append_left _ route)
    · exact absurd route (Expr.not_route_of_mem_startsAt hs)

theorem Note.mem_lineage {notes : List Note} {i j : ℕ} :
    (i, j) ∈ lineage notes ↔ .spawned i j ∈ notes := by
  unfold lineage
  rw [List.mem_filterMap]
  constructor
  · rintro ⟨n, mem, same⟩
    cases n <;> cases same
    exact mem
  · exact fun mem => ⟨_, mem, rfl⟩

namespace Encounter

variable {S : Scope} {base : List String} {x : Encounter} {event : Record} {path : ℕ}

theorem within_followers (within : x.branch.Within S) {f : Branch} (mem : f ∈ x.followers event) :
    f.Within S := by
  obtain ⟨outer, inside⟩ := within
  unfold followers at mem
  dsimp only at mem
  split at mem
  · rename_i children descends
    obtain ⟨c, cursor⟩ := Branch.look_descend_cursor descends
    rw [cursor] at inside
    exact Branch.within_carryOn outer inside.2.2 f mem
  · rename_i key template value known groups
    obtain ⟨before, cursor⟩ := Branch.look_group_cursor groups
    rw [cursor] at inside
    have around : ∀ g ∈ x.branch.frames ++ [.route key value], g.Within S :=
      Frame.within_append outer (List.forall_mem_singleton.2 inside.1)
    exact Branch.within_launch around inside.2 f mem
  · cases mem

/-- The number of a branch lives on: of the branch alone, or of the first one behind it. -/
theorem heir (within : x.branch.Within S) (path : ℕ) (event : Record) :
    (∃ c ∈ (x.own path event).1.running,
        c.id = x.branch.id ∧ c.captures = (x.look event).branch.captures) ∨
      (∃ f ∈ (x.own path event).1.finished,
        f.id = x.branch.id ∧ f.captures = (x.look event).branch.captures) ∨
      ∃ f ∈ x.followers event,
        f.id = x.branch.id ∧ f.captures = (x.look event).branch.captures := by
  obtain ⟨number, frames, -⟩ := x.look_branch event
  cases move : (x.look event).move with
  | stay =>
    simp only [own, move]
    exact .inl ⟨_, List.mem_singleton_self _, number, rfl⟩
  | fail e =>
    simp only [own, move]
    exact .inr (.inl ⟨_, List.mem_singleton_self _, number, rfl⟩)
  | group key template value known =>
    simp only [own, move]
    exact .inl ⟨_, List.mem_singleton_self _, number, rfl⟩
  | leave =>
    simp only [own, move, Branch.complete]
    split
    · exact .inr (.inl ⟨_, List.mem_singleton_self _, number, rfl⟩)
    · rename_i outer children index next
      obtain ⟨-, children_within, less⟩ := within_unwind (frames ▸ within.1) next
      obtain ⟨start, others, starts⟩ := List.exists_cons_of_ne_nil
        (startsAt_ne_nil children_within less)
      rw [starts]
      exact .inl ⟨_, List.mem_cons_self, number, rfl⟩
  | descend children =>
    obtain ⟨c, cursor⟩ := Branch.look_descend_cursor move
    have inside := within.2
    rw [cursor] at inside
    obtain ⟨start, others, starts⟩ := List.exists_cons_of_ne_nil
      (startsAt_ne_nil inside.2.2 (List.length_pos_iff.2 inside.2.1))
    simp only [followers, move, starts]
    exact .inr (.inr ⟨_, List.mem_cons_self, number, rfl⟩)

/-- A branch that is noted as new in an encounter starts behind the branch, or where the branch goes
on when it has left its node. -/
theorem exists_of_spawned {i j : ℕ} (mem : .spawned i j ∈ (x.own path event).1.notes) :
    i = x.branch.id ∧ ∃ c, c.id = j ∧ (c ∈ x.followers event ∨
      (x.look event).move = .leave ∧ c ∈ (x.own path event).1.running) := by
  have number := (x.look_branch event).1
  have meanwhile : .spawned i j ∉ (x.look event).notes := by
    intro noted
    have empty : Note.lineage (x.look event).notes = [] := lineage_look ..
    exact List.not_mem_nil (empty ▸ Note.mem_lineage.2 noted)
  have spawned {b : Branch} {others : List Branch} (same : b.id = x.branch.id)
      (noted : .spawned i j ∈ b.noteSpawned others) : i = x.branch.id ∧ ∃ c ∈ others, c.id = j := by
    obtain ⟨c, hc, equal⟩ := List.mem_map.1 noted
    cases equal
    exact ⟨same, c, (List.mem_filter.1 hc).1, rfl⟩
  cases move : (x.look event).move with
  | stay => simp [own, move, Effects.note, Effects.run, meanwhile] at mem
  | fail e => simp [own, move, Effects.note, Branch.fail, meanwhile] at mem
  | leave =>
    simp only [own, move, Branch.complete] at mem ⊢
    split at mem
    · simp [Effects.note, meanwhile] at mem
    · simp only [Effects.note, Effects.notes_append, List.cons_append, List.mem_cons, reduceCtorEq,
        List.mem_append, meanwhile, false_or] at mem
      obtain ⟨same, c, hc, new⟩ := spawned number mem
      exact ⟨same, c, new, .inr ⟨trivial, hc⟩⟩
  | descend children =>
    simp only [own, move, Effects.note, Effects.notes_append, List.cons_append, List.mem_cons,
      reduceCtorEq, List.mem_append, meanwhile, false_or] at mem
    obtain ⟨same, c, hc, new⟩ := spawned number mem
    exact ⟨same, c, new, .inl hc⟩
  | group key template value known =>
    simp only [own, move, Effects.note, Effects.run, Effects.notes_append, List.cons_append,
      List.append_nil, List.mem_cons, reduceCtorEq, List.mem_append, meanwhile, false_or] at mem
    obtain ⟨same, c, hc, new⟩ := spawned number mem
    exact ⟨same, c, new, .inl hc⟩

section Rich

variable (growing : S.Growing)
include growing

theorem keys_look (within : x.branch.Within S) :
    x.branch.captures.keys ⊆ (x.look event).branch.captures.keys :=
  Branch.keys_look growing within x.passed x.tally.keys

theorem rich_look (rich : x.branch.Rich S base) : (x.look event).branch.Rich S base := by
  obtain ⟨-, frames, cursor⟩ := x.look_branch event
  refine rich.follow ?_ (keys_look growing rich.within) fun key value mem => .inl (frames ▸ mem)
  unfold Branch.Within
  rw [frames, cursor]
  exact rich.within

/-- **The branches behind a branch have its keys**, and those of a new group the name of the group
too. -/
theorem rich_followers (rich : x.branch.Rich S base) {f : Branch} (mem : f ∈ x.followers event) :
    f.Rich S base ∧ (x.look event).branch.captures.keys ⊆ f.captures.keys ∧
      ∀ key template value known, (x.look event).move = .group key template value known →
        key.name ∈ f.captures.keys := by
  have seen : (x.look event).branch.Rich S base := rich_look growing rich
  have within := within_followers rich.within mem
  unfold followers at mem
  dsimp only at mem
  split at mem
  · rename_i children descends
    have captures := Branch.captures_of_mem_carryOn mem
    have keys : (x.look event).branch.captures.keys ⊆ f.captures.keys :=
      captures ▸ List.Subset.refl _
    obtain ⟨s, hs, frames, -⟩ := Branch.place_of_mem_carryOn mem
    refine ⟨seen.follow within keys ?_, keys, ?_⟩
    · intro key value route
      rw [frames, ← (x.look_branch event).2.1] at route
      rcases List.mem_append.1 route with route | route
      · exact .inl route
      · exact absurd route (Expr.not_route_of_mem_startsAt hs)
    · intro key template value known groups
      cases descends.symm.trans groups
  · rename_i key template value known groups
    have captures := Branch.captures_of_mem_launch mem
    have keys : (x.look event).branch.captures.keys ⊆ f.captures.keys :=
      captures ▸ Captures.keys_subset_insert _ _ _
    have named : key.name ∈ f.captures.keys := captures ▸ Captures.mem_keys_insert.2 (.inl rfl)
    obtain ⟨s, hs, frames, -⟩ := Branch.place_of_mem_launch mem
    refine ⟨seen.follow within keys ?_, keys, ?_⟩
    · intro other v route
      rw [frames, ← (x.look_branch event).2.1] at route
      rcases List.mem_append.1 route with route | route
      · rcases List.mem_append.1 route with route | route
        · exact .inl route
        · cases List.mem_singleton.1 route
          exact .inr named
      · exact absurd route (Expr.not_route_of_mem_starts hs)
    · intro other template' v known' same
      cases groups.symm.trans same
      exact named
  · cases mem

/-- **What comes of a branch alone has its keys**: the branches that run on, its result, and what the
sinks hear of it. -/
theorem rich_own (rich : x.branch.Rich S base) (path : ℕ) :
    (∀ c ∈ (x.own path event).1.running,
        c.Rich S base ∧ (x.look event).branch.captures.keys ⊆ c.captures.keys) ∧
      (∀ f ∈ (x.own path event).1.finished,
        (x.look event).branch.captures.keys ⊆ f.captures.keys) ∧
      ∀ r ∈ (x.own path event).1.reports,
        (x.look event).branch.captures.keys ⊆ r.result.captures.keys := by
  have seen : (x.look event).branch.Rich S base := rich_look growing rich
  have same := List.Subset.refl (x.look event).branch.captures.keys
  cases move : (x.look event).move with
  | stay =>
    simp only [own, move]
    exact ⟨List.forall_mem_singleton.2 ⟨seen, same⟩, List.forall_mem_nil _, List.forall_mem_nil _⟩
  | fail e =>
    simp only [own, move]
    refine ⟨List.forall_mem_nil _, List.forall_mem_singleton.2 same, fun r mem => ?_⟩
    obtain ⟨sink, -, rfl⟩ := List.mem_map.1 mem
    exact same
  | leave =>
    simp only [own, move]
    let t : Tally := { x.tally with keys := (x.look event).keys }
    obtain ⟨running, finished⟩ := (x.look event).branch.captures_complete path t
    obtain ⟨rich_running, reports⟩ := seen.complete path t
    exact ⟨fun c mem => ⟨rich_running c mem, running c mem ▸ same⟩,
      fun f mem => finished f mem ▸ same, fun r mem => reports r mem ▸ same⟩
  | descend children =>
    simp only [own, move]
    exact ⟨List.forall_mem_nil _, List.forall_mem_nil _, List.forall_mem_nil _⟩
  | group key template value known =>
    obtain ⟨before, cursor⟩ := Branch.look_group_cursor move
    simp only [own, move]
    refine ⟨List.forall_mem_singleton.2 ⟨?_, same⟩, List.forall_mem_nil _, List.forall_mem_nil _⟩
    have inside := rich.within.2
    rw [cursor] at inside
    exact ⟨⟨seen.within.1, inside⟩, seen.base, seen.named⟩

end Rich

/-- All that comes behind a branch has its keys. -/
theorem rich_of_mem_encounters (growing : S.Growing) {b : Branch} (rich : b.Rich S base) {passed : ℕ}
    {t : Tally} (mem : x ∈ (encounters path event passed b t).1) : x.branch.Rich S base := by
  have behind := causes_of_mem_encounters mem
  clear mem
  induction behind with
  | refl => exact rich
  | tail _ causes ih => exact (rich_followers growing ih causes.1).1

end Encounter

/-! ### Paths -/

namespace Path

/-- The branch of this number, whether it runs or has ended, has captured these values. -/
inductive Captured (p : Path) : ℕ → Captures → Prop
  | running {b : Branch} (mem : b ∈ p.running) : p.Captured b.id b.captures
  | finished {f : Finish} (mem : f ∈ p.finished) : p.Captured f.id f.captures

/-- The branches of the path have some keys, and the names of all groups around them; its results
have these keys too. -/
structure Rich (S : Scope) (base : List String) (p : Path) : Prop where
  running : ∀ b ∈ p.running, b.Rich S base
  finished : ∀ f ∈ p.finished, base ⊆ f.captures.keys

variable {S : Scope} {p : Path} {base : List String} {e : Record} {i : ℕ} {s : Captures}

/-- Each number that was given has captured something, and one thing only. -/
theorem Ledger.existsUnique_captured (ledger : p.Ledger) (given : i < p.nextId) :
    ∃! s, p.Captured i s := by
  have belongs := ledger.numbers.mem_iff.2 (List.mem_range.2 given)
  rcases List.mem_append.1 belongs with runs | ended
  · obtain ⟨b, hb, rfl⟩ := List.mem_map.1 runs
    refine ⟨b.captures, .running hb, fun s captured => ?_⟩
    generalize number : b.id = i at captured
    cases captured with
    | running hc => rw [ledger.eq_of_id hb hc number]
    | finished hf => exact absurd number (ledger.id_ne hb hf)
  · obtain ⟨f, hf, rfl⟩ := List.mem_map.1 ended
    refine ⟨f.captures, .finished hf, fun s captured => ?_⟩
    generalize number : f.id = i at captured
    cases captured with
    | running hb => exact absurd number.symm (ledger.id_ne hb hf)
    | finished hg =>
      have distinct := (ledger.numbers.nodup_iff.2 List.nodup_range).of_append_right
      rw [List.inj_on_of_nodup_map distinct hf hg number]

/-- Each running branch of an open path is met by an event. -/
theorem exists_encounter_of_running (opened : p.closed = false) (e : Record) {b : Branch}
    (mem : b ∈ p.running) : ∃ t, ⟨b, 0, t⟩ ∈ p.encounters e := by
  obtain ⟨t, has_turn⟩ := exists_mem_inTurn p.id 0 e mem ⟨p.nextId, 0, []⟩
  refine ⟨t, ?_⟩
  unfold encounters meetings
  rw [if_neg (by simp [opened])]
  refine List.mem_flatten.2 ⟨_, has_turn, ?_⟩
  rw [encounters_eq]
  exact List.mem_cons_self

theorem exists_running_of_encounter {x : Encounter} (mem : x ∈ p.encounters e) :
    ∃ b ∈ p.running, ∃ t, x ∈ (TracePattern.encounters p.id e 0 b t).1 := by
  unfold encounters meetings at mem
  split at mem
  · simp at mem
  · obtain ⟨xs, hxs, mem⟩ := List.mem_flatten.1 mem
    obtain ⟨b, hb, t, rfl⟩ := mem_inTurn hxs
    exact ⟨b, hb, t, mem⟩

theorem rich_start {tree : Expr} (within : tree.Within S) (id : ℕ) (name : Option String)
    (initial : Captures) : (start id name tree initial).Rich S initial.keys := by
  refine ⟨fun b mem => ⟨within_after within [] b mem, ?_, fun key value route => ?_⟩,
    List.forall_mem_nil _⟩
  · rw [Branch.captures_of_mem_launch mem]
    exact List.Subset.refl _
  · obtain ⟨s, hs, frames, -⟩ := Branch.place_of_mem_launch mem
    rw [frames] at route
    exact absurd route (Expr.not_route_of_mem_starts hs)

/-- Each new number of an event is due to an encounter of the event. -/
theorem exists_encounter_of_new (coherent : S.Coherent) (within : ∀ b ∈ p.running, b.Within S)
    (ledger : p.Ledger) {j : ℕ} (new : p.nextId ≤ j) (given : j < (p.onEvent e).1.nextId) :
    ∃ x ∈ p.encounters e, .spawned x.branch.id j ∈ (x.own p.id e).1.notes := by
  cases closed : p.closed with
  | true =>
    rw [onEvent_of_closed closed] at given
    exact absurd given (Nat.not_lt.2 new)
  | false =>
    have live : p.Live S := ⟨within, ledger, closed⟩
    obtain ⟨i, born⟩ := (live.births_onEvent coherent e).noted j new given
    have noted := Note.mem_lineage.1 born
    rw [notes_encounters] at noted
    obtain ⟨x, hx, own⟩ := List.mem_flatMap.1 noted
    exact ⟨x, hx, (Encounter.exists_of_spawned own).1 ▸ own⟩

section Growing

variable (growing : S.Growing)
include growing

theorem Rich.of_mem_encounters (rich : p.Rich S base) {x : Encounter} (mem : x ∈ p.encounters e) :
    x.branch.Rich S base := by
  obtain ⟨b, hb, t, mem⟩ := exists_running_of_encounter mem
  exact Encounter.rich_of_mem_encounters growing (rich.running b hb) mem

theorem Rich.onEvent (rich : p.Rich S base) (opened : p.closed = false) (e : Record) :
    (p.onEvent e).1.Rich S base := by
  have effects := turn_encounters opened e
  refine ⟨fun c mem => ?_, fun f mem => ?_⟩
  · rw [(perm_running_onEvent opened e).mem_iff, effects, effectsOf, Effects.running_all] at mem
    obtain ⟨y, hy, mem⟩ := List.mem_flatMap.1 mem
    obtain ⟨x, hx, rfl⟩ := List.mem_map.1 hy
    exact ((Encounter.rich_own growing (rich.of_mem_encounters growing hx) p.id).1 c mem).1
  · rw [finished_onEvent opened] at mem
    rcases List.mem_append.1 mem with mem | mem
    · exact rich.finished f mem
    · rw [effects, effectsOf, Effects.finished_all] at mem
      obtain ⟨y, hy, mem⟩ := List.mem_flatMap.1 mem
      obtain ⟨x, hx, rfl⟩ := List.mem_map.1 hy
      have met := rich.of_mem_encounters growing hx
      exact List.Subset.trans (Encounter.rich_look growing met).base
        ((Encounter.rich_own growing met p.id).2.1 f mem)

/-- What the sinks hear of has the keys too. -/
theorem Rich.reports (rich : p.Rich S base) :
    ∀ r ∈ (p.onEvent e).2.reports, base ⊆ r.result.captures.keys := by
  cases closed : p.closed with
  | true =>
    rw [onEvent_of_closed closed]
    exact List.forall_mem_nil _
  | false =>
    intro r mem
    rw [reports_onEvent closed, turn_encounters closed, effectsOf, Effects.reports_all] at mem
    obtain ⟨y, hy, mem⟩ := List.mem_flatMap.1 mem
    obtain ⟨x, hx, rfl⟩ := List.mem_map.1 hy
    have met := rich.of_mem_encounters growing hx
    exact List.Subset.trans (Encounter.rich_look growing met).base
      ((Encounter.rich_own growing met p.id).2.2 r mem)

/-- **The branch of an encounter runs on or ends with all its keys.** -/
theorem captured_of_encounter {x : Encounter} (mem : x ∈ p.encounters e)
    (within : x.branch.Within S) :
    ∃ s, (p.onEvent e).1.Captured x.branch.id s ∧ x.branch.captures.keys ⊆ s.keys := by
  -- The branches behind this one stand on smaller expressions.
  induction size : x.branch.cursor.size using Nat.strongRecOn generalizing x with
  | ind n ih =>
    subst size
    obtain ⟨runs, ends⟩ := onEvent_of_mem_encounters mem
    have keys : x.branch.captures.keys ⊆ (x.look e).branch.captures.keys :=
      Encounter.keys_look growing within
    rcases x.heir within p.id e with ⟨c, hc, number, captures⟩ | ⟨f, hf, number, captures⟩ |
      ⟨f, follows, number, captures⟩
    · exact ⟨c.captures, number ▸ .running (runs hc), captures ▸ keys⟩
    · exact ⟨f.captures, number ▸ .finished (ends hf), captures ▸ keys⟩
    · obtain ⟨y, hy, -, rfl⟩ := exists_encounter_of_follower mem follows
      have smaller := Encounter.smaller_of_mem_followers follows
      obtain ⟨s, captured, more⟩ := ih _ smaller hy (Encounter.within_followers within follows) rfl
      exact ⟨s, number ▸ captured, List.Subset.trans (captures ▸ keys) more⟩

/-- A branch keeps its keys in an event, whether it runs on or ends. -/
theorem captured_onEvent (within : ∀ b ∈ p.running, b.Within S) (captured : p.Captured i s)
    (e : Record) : ∃ t, (p.onEvent e).1.Captured i t ∧ s.keys ⊆ t.keys := by
  cases closed : p.closed with
  | true => exact ⟨s, by rwa [onEvent_of_closed closed], List.Subset.refl _⟩
  | false =>
    cases captured with
    | @running b mem =>
      obtain ⟨t, met⟩ := exists_encounter_of_running closed e mem
      exact captured_of_encounter growing met (within b mem)
    | finished mem =>
      refine ⟨_, .finished ?_, List.Subset.refl _⟩
      exact (finished_prefix_apply p (.event e)).subset mem

/-- **A branch keeps its keys all its life**, and its result keeps them after that. -/
theorem captured_after (within : ∀ b ∈ p.running, b.Within S) (captured : p.Captured i s)
    (acts : List Act) : ∃ t, (p.after acts).Captured i t ∧ s.keys ⊆ t.keys := by
  induction acts generalizing p s with
  | nil => exact ⟨s, captured, List.Subset.refl _⟩
  | cons act rest ih =>
    cases act with
    | close =>
      refine ih (p := p.close) within ?_
      cases captured with
      | running mem => exact .running mem
      | finished mem => exact .finished mem
    | event e =>
      obtain ⟨t, next, keys⟩ := captured_onEvent growing within captured e
      obtain ⟨u, later, more⟩ := ih (within_apply within (.event e)) next
      exact ⟨u, later, List.Subset.trans keys more⟩

/-- **A new branch starts with all that the branch had captured to which it is due**, with the name of
its group if it is in a new one, and keeps that. -/
theorem captured_of_new {x : Encounter} (mem : x ∈ p.encounters e) (rich : x.branch.Rich S base)
    {j : ℕ} (noted : .spawned x.branch.id j ∈ (x.own p.id e).1.notes) :
    ∃ c : Branch, (c ∈ x.followers e ∨ c ∈ (x.own p.id e).1.running) ∧ c.id = j ∧
      (x.look e).branch.captures.keys ⊆ c.captures.keys ∧
      (∀ key template value known, (x.look e).move = .group key template value known →
        key.name ∈ c.captures.keys) ∧
      ∃ t, (p.onEvent e).1.Captured j t ∧ c.captures.keys ⊆ t.keys := by
  obtain ⟨-, c, rfl, follows | ⟨leaves, runs⟩⟩ := Encounter.exists_of_spawned noted
  · obtain ⟨-, keys, named⟩ := Encounter.rich_followers growing rich follows
    obtain ⟨y, hy, -, rfl⟩ := exists_encounter_of_follower mem follows
    exact ⟨y.branch, .inl follows, rfl, keys, named,
      captured_of_encounter growing hy (Encounter.within_followers rich.within follows)⟩
  · refine ⟨c, .inr runs, rfl, ((Encounter.rich_own growing rich p.id).1 c runs).2, ?_, c.captures, ?_,
      List.Subset.refl _⟩
    · intro key template value known groups
      cases leaves.symm.trans groups
    · exact .running ((onEvent_of_mem_encounters mem).1 runs)

end Growing

/-- **Captured keys stay.** If no capture of the conditions takes keys away, then after any life of a
path:

* the branch of each number has captured one collection of values, and keeps the keys of these,
  whatever happens later: if it runs on, becomes a router, fails or succeeds;
* each branch that is new in an event starts with the keys of the one to which it is due, as that one
  has them when the new branch starts, and in a new group with the name of its extractor; the event
  takes none of these;
* a branch inside a group has the name of the group's extractor;
* all running branches, all results, and all that sinks hear of have the keys of the first captures. -/
theorem keys_stay {tree : Expr} (valid : tree.defect? = none) (coherent : tree.Coherent)
    (grows : ∀ c ∈ tree.conditions, c.Grows) (id : ℕ) (name : Option String) (initial : Captures)
    (acts : List Act) :
    let p := (start id name tree initial).after acts
    (∀ i < p.nextId, ∃! s, p.Captured i s) ∧
    (∀ i s, p.Captured i s → ∀ later, ∃ t, (p.after later).Captured i t ∧ s.keys ⊆ t.keys) ∧
    (∀ e j, p.nextId ≤ j → j < (p.onEvent e).1.nextId → ∃ x ∈ p.encounters e,
      .spawned x.branch.id j ∈ (p.onEvent e).2.notes ∧
      ∃ c : Branch, (c ∈ x.followers e ∨ c ∈ (x.own p.id e).1.running) ∧ c.id = j ∧
        (x.look e).branch.captures.keys ⊆ c.captures.keys ∧
        (∀ key template value known, (x.look e).move = .group key template value known →
          key.name ∈ c.captures.keys) ∧
        ∃ t, (p.onEvent e).1.Captured j t ∧ c.captures.keys ⊆ t.keys) ∧
    (∀ b ∈ p.running, initial.keys ⊆ b.captures.keys ∧
      ∀ key value, .route key value ∈ b.frames → key.name ∈ b.captures.keys) ∧
    (∀ f ∈ p.finished, initial.keys ⊆ f.captures.keys) ∧
    ∀ e, ∀ r ∈ (p.onEvent e).2.reports, initial.keys ⊆ r.result.captures.keys := by
  intro p
  let S : Scope := ⟨fun c => c ∈ tree.conditions, fun k => k ∈ tree.extractors⟩
  have within : tree.Within S := Expr.within_of_valid valid (fun _ hc => hc) fun _ hk => hk
  have growing : S.Growing := grows
  have scope : S.Coherent := Scope.coherent_of coherent
  have ledger : p.Ledger := ledger_of_within within id name initial acts
  have running : ∀ b ∈ p.running, b.Within S := within_after within acts
  have rich : p.Rich S initial.keys := by
    refine after_induction (rich_start within id name initial) ?_ ?_ acts
    · exact fun q e kept opened => kept.onEvent growing opened e
    · exact fun q kept => ⟨kept.running, kept.finished⟩
  refine ⟨fun i given => ledger.existsUnique_captured given,
    fun i s captured later => captured_after growing running captured later, ?_,
    fun b hb => ⟨(rich.running b hb).base, (rich.running b hb).named⟩, rich.finished,
    fun e => rich.reports growing⟩
  intro e j new given
  obtain ⟨x, hx, noted⟩ := exists_encounter_of_new scope running ledger new given
  refine ⟨x, hx, ?_, captured_of_new growing hx (rich.of_mem_encounters growing hx) noted⟩
  rw [notes_encounters]
  exact List.mem_flatMap.2 ⟨x, hx, noted⟩

/-- Groups with a filter that captures and then crashes. -/
theorem keys_stay_crashes :
    let notes : Condition := .andThen .always fun _ captures =>
      (captures.insert "seen" .null, .crash none)
    let tree : Expr := .groupBy ⟨0, "host", .property "host"⟩ (.filter notes [.event .always])
    let event (host : String) : Act := .event ⟨"", "", "", .epoch, [.string "host" host]⟩
    let p := (start 1 none tree (Captures.empty.insert "run" .null)).after [event "a", event "b"]
    tree.defect? = none ∧ tree.Coherent ∧ (∀ c ∈ tree.conditions, c.Grows) ∧
      (∀ i s, p.Captured i s → "run" ∈ s.keys) ∧
      ∀ b ∈ p.running, ∀ key value, .route key value ∈ b.frames → key.name ∈ b.captures.keys := by
  intro notes tree event p
  have coherent : tree.Coherent := by
    intro j hj k hk _
    rw [List.mem_singleton.1 hj, List.mem_singleton.1 hk]
  have grows : ∀ c ∈ tree.conditions, c.Grows := by
    intro c mem capture own event captures
    rcases List.mem_pair.1 mem with rfl | rfl
    · cases own
      exact captures.keys_subset_insert _ _
    · cases own
  obtain ⟨-, -, -, running, finished, -⟩ := keys_stay (by decide) coherent grows 1 none
    (Captures.empty.insert "run" .null) [event "a", event "b"]
  refine ⟨by decide, coherent, grows, fun i s captured => ?_, fun b hb => (running b hb).2⟩
  cases captured with
  | running mem => exact (running _ mem).1 (by decide)
  | finished mem => exact finished _ mem (by decide)

end Path

end TracePattern
