import TracePattern.Proofs.Report.Ends

/-!
# Frames as chains of ancestors

The frames of a branch are the nodes above the node where it stands, and nothing else.  A match of
an expression starts at the nodes that are met first in all nodes above them, and where it goes on
it stands in groups that have keys.

* `Expr.openings`, `Expr.Opens`: the nodes at which an expression starts, from left to right;
* `Ancestor.Makes`: the frame of a node above some place; `Expr.Leads.makes`: frames are chains of
  these;
* `Frame.Keyed`, `Strand.keyed_react`: groups have keys;
* `Path.Founded`: a path whose branches are at places of its expression, in groups with keys;
* `Path.founded_after`, `Path.addresses_start`: such a path at all times, and at its start.
-/

namespace TracePattern

/-- A frame of a group has a key. -/
def Frame.Keyed : Frame → Prop
  | .route _ value => value.isNull = false
  | _ => True

/-! ### Frames of ancestors -/

/-- The frame of a node above some place, for the child on the way to the place. -/
inductive Ancestor.Makes : Ancestor → Frame → Prop
  | filter {c : Condition} {children : List Expr} {address : List ℕ} {i : ℕ}
    (inside : i < children.length) : Makes ⟨.filter c children, address, i⟩ (.gate c i)
  | sequence {children : List Expr} {address : List ℕ} {i : ℕ} (inside : i < children.length) :
    Makes ⟨.sequence children, address, i⟩ (.sequence children i)
  | eventThen {c : Condition} {children : List Expr} {address : List ℕ} {i : ℕ}
    (inside : i < children.length) :
    Makes ⟨.eventThen c children, address, i⟩ (.sequence children i)
  | groupBy {key : KeyExtractor} {template : Expr} {address : List ℕ} {value : Value}
    (present : value.isNull = false) :
    Makes ⟨.groupBy key template, address, 0⟩ (.route key value)
  | record {sink : ℕ} {inner : Expr} {address : List ℕ} :
    Makes ⟨.record sink inner, address, 0⟩ (.record sink)

namespace Expr

variable {e d n : Expr} {f : Frame} {frames : List Frame}

theorem Into.makes (into : e.Into f d) (keyed : f.Keyed) (here : List ℕ) :
    Ancestor.Makes ⟨e, here, f.child⟩ f := by
  cases into with
  | eventThen child => exact .eventThen (List.getElem?_eq_some_iff.1 child).1
  | sequence child => exact .sequence (List.getElem?_eq_some_iff.1 child).1
  | filter child => exact .filter (List.getElem?_eq_some_iff.1 child).1
  | groupBy => exact .groupBy keyed
  | record => exact .record

/-- **The frames on the way to a node are those of its ancestors.** -/
theorem Leads.makes (leads : e.Leads frames n) (keyed : ∀ f ∈ frames, f.Keyed) (here : List ℕ) :
    List.Forall₂ Ancestor.Makes (e.ancestorsFrom here (address frames)) frames := by
  induction leads generalizing here with
  | nil => exact .nil
  | @cons e d n f frames into _ ih =>
    rw [address, List.map_cons, ancestorsFrom, into.child?]
    exact .cons (into.makes (keyed f List.mem_cons_self) here)
      (ih (fun g mem => keyed g (List.mem_cons_of_mem _ mem)) _)

end Expr

/-! ### Openings -/

/-- A match of the node starts with this child: the first one of a sequence, any one of a filter,
and what is recorded. -/
def Expr.First : Expr → ℕ → Prop
  | .sequence _, i => i = 0
  | .filter _ _, _ => True
  | .record _ _, _ => True
  | _, _ => False

/-- The node at the address waits, and is met first in the match of every node above it. -/
def Expr.Opens (e : Expr) (way : List ℕ) : Prop :=
  (∃ n c, e.node? way = some n ∧ n.Waits c) ∧ ∀ a ∈ e.ancestors way, a.node.First a.child

/-- The addresses of the nodes at which a match of the expression starts. -/
def Expr.openings (e : Expr) : List (List ℕ) := e.starts.map fun s => address s.frames

namespace Expr

variable {e d : Expr} {i : ℕ} {way : List ℕ}

theorem openings_under (e : Expr) (f : Frame) :
    (e.starts.map (Start.under f)).map (fun s => address s.frames) =
      e.openings.map (f.child :: ·) := by
  rw [openings, List.map_map, List.map_map]
  rfl

theorem openings_startsOfAll (c : Condition) (index : ℕ) (es : List Expr) :
    (startsOfAll c index es).map (fun s => address s.frames) =
      (es.zipIdx index).flatMap fun d => d.1.openings.map (d.2 :: ·) := by
  induction es generalizing index with
  | nil => rfl
  | cons e rest ih =>
    rw [startsOfAll, List.map_append, openings_under, ih, List.zipIdx_cons, List.flatMap_cons]
    rfl

/-- Whether a child comes first does not depend on the address of its node. -/
theorem forall_first_ancestorsFrom (e : Expr) (way here there : List ℕ) :
    (∀ a ∈ e.ancestorsFrom here way, a.node.First a.child) ↔
      ∀ a ∈ e.ancestorsFrom there way, a.node.First a.child := by
  induction way generalizing e here there with
  | nil => exact Iff.rfl
  | cons i way ih =>
    rw [ancestorsFrom, ancestorsFrom, List.forall_mem_cons, List.forall_mem_cons]
    refine and_congr_right fun _ => ?_
    cases e.child? i with
    | none => exact Iff.rfl
    | some d => exact ih d _ _

theorem opens_cons (child : e.child? i = some d) :
    e.Opens (i :: way) ↔ e.First i ∧ d.Opens way := by
  unfold Opens
  rw [ancestors, ancestorsFrom, child, List.forall_mem_cons, node?, child, Option.bind_some,
    forall_first_ancestorsFrom d way _ []]
  exact and_left_comm

/-- The openings of a node are those of its children that come first. -/
theorem cons_mem_openings (e : Expr) (i : ℕ) (way : List ℕ) :
    i :: way ∈ e.openings ↔ ∃ d, e.child? i = some d ∧ e.First i ∧ way ∈ d.openings := by
  cases e with
  | event c => simp [openings, starts, child?, address]
  | eventThen c children => simp [openings, starts, First, address]
  | sequence children =>
    cases children with
    | nil => simp [openings, starts, startsOfFirst, child?]
    | cons d rest =>
      rw [openings, starts, startsOfFirst, openings_under]
      simp only [List.mem_map, List.cons.injEq, Frame.child, First, child?]
      constructor
      · rintro ⟨w, mem, rfl, rfl⟩
        exact ⟨d, rfl, rfl, mem⟩
      · rintro ⟨_, child, rfl, mem⟩
        cases child
        exact ⟨way, mem, rfl, rfl⟩
  | filter c children =>
    rw [openings, starts, openings_startsOfAll]
    simp only [List.mem_flatMap, List.mem_map, List.cons.injEq, Prod.exists,
      List.mem_zipIdx_iff_getElem?, child?, First, true_and]
    constructor
    · rintro ⟨d, _, child, w, mem, rfl, rfl⟩
      exact ⟨d, child, mem⟩
    · rintro ⟨d, child, mem⟩
      exact ⟨d, i, child, way, mem, rfl, rfl⟩
  | groupBy key template => simp [openings, starts, First, address]
  | record sink inner =>
    rw [openings, starts, openings_under]
    simp only [List.mem_map, List.cons.injEq, Frame.child, First, child?, true_and,
      Option.ite_none_right_eq_some, Option.some.injEq]
    constructor
    · rintro ⟨w, mem, rfl, rfl⟩
      exact ⟨inner, ⟨rfl, rfl⟩, mem⟩
    · rintro ⟨_, ⟨rfl, rfl⟩, mem⟩
      exact ⟨way, mem, rfl, rfl⟩

/-- A node at which its own match starts is one that waits. -/
theorem nil_mem_openings (e : Expr) : [] ∈ e.openings ↔ ∃ c, e.Waits c := by
  cases e with
  | event c => exact iff_of_true (by simp [openings, starts, address]) ⟨_, .event⟩
  | eventThen c children => exact iff_of_true (by simp [openings, starts, address]) ⟨_, .eventThen⟩
  | sequence children =>
    refine iff_of_false (fun mem => ?_) (by rintro ⟨c, ⟨⟩⟩)
    cases children with
    | nil => cases mem
    | cons d rest =>
      rw [openings, starts, startsOfFirst, openings_under] at mem
      simp at mem
  | filter c children =>
    refine iff_of_false (fun mem => ?_) (by rintro ⟨c, ⟨⟩⟩)
    rw [openings, starts, openings_startsOfAll] at mem
    simp at mem
  | groupBy key template =>
    exact iff_of_true (by simp [openings, starts, address]) ⟨.router key template .empty, .groupBy⟩
  | record sink inner =>
    refine iff_of_false (fun mem => ?_) (by rintro ⟨c, ⟨⟩⟩)
    rw [openings, starts, openings_under] at mem
    simp at mem

/-- **An expression starts at the nodes that open it.** -/
theorem mem_openings (e : Expr) (way : List ℕ) : way ∈ e.openings ↔ e.Opens way := by
  induction way generalizing e with
  | nil =>
    rw [nil_mem_openings]
    exact ⟨fun ⟨c, waits⟩ => ⟨⟨e, c, rfl, waits⟩, nofun⟩, fun ⟨⟨_, c, rfl, waits⟩, _⟩ => ⟨c, waits⟩⟩
  | cons i way ih =>
    rw [cons_mem_openings]
    constructor
    · rintro ⟨d, child, first, mem⟩
      exact (opens_cons child).2 ⟨first, (ih d).1 mem⟩
    · intro opens
      cases child : e.child? i with
      | none =>
        obtain ⟨⟨n, c, found, -⟩, -⟩ := opens
        simp [node?, child] at found
      | some d =>
        obtain ⟨first, opens⟩ := (opens_cons child).1 opens
        exact ⟨d, rfl, first, (ih d).2 opens⟩

/-- The openings stand from left to right. -/
theorem pairwise_openings (e : Expr) : e.openings.Pairwise (· < ·) := by
  have under : ∀ (i : ℕ) {ways : List (List ℕ)}, ways.Pairwise (· < ·) →
      (ways.map (i :: ·)).Pairwise (· < ·) := fun i ways sorted =>
    List.pairwise_map.2 (sorted.imp fun less => List.cons_lt_cons_iff.2 (.inr ⟨rfl, less⟩))
  match e with
  | .event c => simp [openings, starts]
  | .eventThen c children => simp [openings, starts]
  | .sequence [] => exact .nil
  | .sequence (d :: rest) =>
    rw [openings, starts, startsOfFirst, openings_under]
    exact under 0 (pairwise_openings d)
  | .filter c children =>
    rw [openings, starts, openings_startsOfAll, List.pairwise_flatMap]
    constructor
    · rintro ⟨d, i⟩ mem
      have smaller : d.size ≤ sizes children := size_le_sizes (List.fst_mem_of_mem_zipIdx mem)
      exact under i (pairwise_openings d)
    · have ascending : (children.zipIdx.map Prod.snd).Pairwise (· < ·) := by
        rw [List.zipIdx_map_snd]
        exact List.pairwise_lt_range' 1
      refine (List.pairwise_map.1 ascending).imp fun less => ?_
      intro v hv w hw
      obtain ⟨v, -, rfl⟩ := List.mem_map.1 hv
      obtain ⟨w, -, rfl⟩ := List.mem_map.1 hw
      exact List.cons_lt_cons_iff.2 (.inl less)
  | .groupBy key template => simp [openings, starts]
  | .record sink inner =>
    rw [openings, starts, openings_under]
    exact under 0 (pairwise_openings inner)
termination_by e.size
decreasing_by
  all_goals simp only [size, sizes]; omega

/-- Above a start there is no group. -/
theorem not_route_of_mem_starts {e : Expr} {s : Start} (mem : s ∈ e.starts) {key : KeyExtractor}
    {value : Value} : .route key value ∉ s.frames := by
  obtain ⟨n, leads, -⟩ := stands_of_mem_starts mem
  have opens := (e.mem_openings (address s.frames)).1 (List.mem_map_of_mem mem)
  generalize s.frames = frames at *
  clear mem
  induction leads with
  | nil => exact List.not_mem_nil
  | @cons e d n f frames into leads ih =>
    rw [address, List.map_cons, opens_cons into.child?] at opens
    obtain ⟨first, opens⟩ := opens
    intro route
    rcases List.mem_cons.1 route with rfl | route
    · cases into
      cases first
    · exact ih opens route

theorem not_route_of_mem_startsAt {children : List Expr} {i : ℕ} {s : Start}
    (mem : s ∈ startsAt children i) {key : KeyExtractor} {value : Value} :
    .route key value ∉ s.frames := by
  unfold startsAt at mem
  split at mem
  · obtain ⟨t, ht, rfl⟩ := List.mem_map.1 mem
    intro route
    rcases List.mem_cons.1 route with other | route
    · cases other
    · exact not_route_of_mem_starts ht route
  · cases mem

/-- Frames other than groups have nothing to say about keys. -/
theorem keyed_of_not_route {frames : List Frame}
    (none : ∀ {key value}, .route key value ∉ frames) : ∀ f ∈ frames, f.Keyed := by
  intro f mem
  cases f with
  | route key value => exact absurd mem none
  | _ => trivial

theorem keyed_of_mem_starts {e : Expr} {s : Start} (mem : s ∈ e.starts) :
    ∀ f ∈ s.frames, f.Keyed := keyed_of_not_route (not_route_of_mem_starts mem)

theorem keyed_of_mem_startsAt {children : List Expr} {i : ℕ} {s : Start}
    (mem : s ∈ startsAt children i) : ∀ f ∈ s.frames, f.Keyed :=
  keyed_of_not_route (not_route_of_mem_startsAt mem)

end Expr

/-! ### Keys of groups -/

/-- A null is no key. -/
theorem KeyExtractor.not_null_of_key? {key : KeyExtractor} {e : Record} {v : Value}
    (found : key.key? e = some v) : v.isNull = false := by
  have present {u : Value} (here : (if u.isNull then none else some u) = some v) :
      v.isNull = false := by
    simp only [Option.ite_none_left_eq_some, Option.some.injEq, Bool.not_eq_true] at here
    exact here.2 ▸ here.1
  unfold key? extract at found
  dsimp only at found
  cases source : key.source with
  | property name =>
    rw [source] at found
    obtain ⟨u, -, here⟩ := Option.bind_eq_some_iff.1 (show (e.get? name).bind _ = some v from found)
    exact present here
  | derived derive =>
    simp only [source, Answer.bind] at found
    cases derived : (derive e).result with
    | ok u =>
      rw [derived] at found
      exact present found
    | error stop =>
      rw [derived] at found
      cases found

theorem Reaction.mem_strandsOf {s : Strand} {rs : List Reaction} :
    s ∈ strandsOf rs ↔ ∃ r ∈ rs, s ∈ r.strands := by
  induction rs with
  | nil => simp [strandsOf]
  | cons r rest ih => simp [strandsOf, ih]

namespace Strand

variable {event : Record} {passed : ℕ} {s : Strand}

theorem keyed_strandsAt {captures : Captures} {outer : List Frame} {starts : List Start}
    (keyed : ∀ f ∈ outer, f.Keyed) (inner : ∀ s ∈ starts, ∀ f ∈ s.frames, f.Keyed) :
    ∀ t ∈ strandsAt captures outer starts, ∀ f ∈ t.frames, f.Keyed := by
  intro t mem
  obtain ⟨s, hs, rfl⟩ := List.mem_map.1 mem
  exact List.forall_mem_append.2 ⟨keyed, inner s hs⟩

/-- **A group that an event forms has a key**, so what goes on after it stands in groups with
keys. -/
theorem keyed_react (keyed : ∀ f ∈ s.frames, f.Keyed) :
    ∀ t ∈ (s.react event passed).strands, ∀ f ∈ t.frames, f.Keyed := by
  induction size : s.cursor.size using Nat.strongRecOn generalizing passed s with
  | ind n ih =>
    subst size
    have same := s.look_frames event passed
    have descends := @look_descend s event passed
    have groups := @look_group s event passed
    rw [react_eq]
    dsimp only
    generalize s.look event passed = seen at *
    obtain ⟨seen, move⟩ := seen
    dsimp only at *
    rw [← same] at keyed
    intro t mem
    cases move with
    | stay =>
      obtain rfl := List.mem_singleton.1 mem
      exact keyed
    | fail e => cases mem
    | leave =>
      unfold Reaction.strands at mem
      split at mem
      · cases mem
      · rename_i outer children index next
        obtain ⟨i, inner, frames, -⟩ := unwind_next next
        exact keyed_strandsAt (fun f hf => keyed f (frames ▸ List.mem_append_left _ hf))
          (fun s hs => Expr.keyed_of_mem_startsAt hs) t mem
    | descend children =>
      obtain ⟨c, cursor⟩ := descends rfl
      obtain ⟨r, hr, mem⟩ := Reaction.mem_strandsOf.1 mem
      obtain ⟨u, hu, rfl⟩ := List.mem_map.1 hr
      refine ih _ (smaller_strandsAt_children cursor u hu) ?_ rfl t mem
      exact keyed_strandsAt (same ▸ keyed) (fun s hs => Expr.keyed_of_mem_startsAt hs) u hu
    | group key template value known =>
      obtain ⟨before, cursor, found, -⟩ := groups rfl
      rcases List.mem_cons.1 mem with rfl | mem
      · exact keyed
      · obtain ⟨r, hr, mem⟩ := Reaction.mem_strandsOf.1 mem
        obtain ⟨u, hu, rfl⟩ := List.mem_map.1 hr
        refine ih _ (smaller_strandsAt_template cursor u hu) ?_ rfl t mem
        refine keyed_strandsAt (List.forall_mem_append.2 ⟨same ▸ keyed, ?_⟩)
          (fun s hs => Expr.keyed_of_mem_starts hs) u hu
        exact List.forall_mem_singleton.2 (KeyExtractor.not_null_of_key? found)

end Strand

/-! ### Paths -/

namespace Path

variable {S : Scope} {p : Path}

theorem keyed_start (id : ℕ) (name : Option String) (tree : Expr) (initial : Captures) :
    ∀ b ∈ (start id name tree initial).running, ∀ f ∈ b.frames, f.Keyed := by
  intro b mem
  obtain ⟨s, hs, frames, -⟩ := Branch.place_of_mem_launch mem
  rw [frames]
  exact Expr.keyed_of_mem_starts hs

theorem keyed_onEvent (coherent : S.Coherent) (within : ∀ b ∈ p.running, b.Within S)
    (opened : p.closed = false) (keyed : ∀ b ∈ p.running, ∀ f ∈ b.frames, f.Keyed) (e : Record) :
    ∀ b ∈ (p.onEvent e).1.running, ∀ f ∈ b.frames, f.Keyed := by
  intro b mem
  have strand := (strands_onEvent coherent within opened e).mem_iff.1 (List.mem_map_of_mem mem)
  obtain ⟨r, hr, here⟩ := Reaction.mem_strandsOf.1 strand
  obtain ⟨s, hs, rfl⟩ := List.mem_map.1 hr
  obtain ⟨a, ha, rfl⟩ := List.mem_map.1 hs
  exact Strand.keyed_react (s := a.strand) (keyed a ha) b.strand here

/-- The running branches are at places of the expression, in groups with keys. -/
structure Founded (S : Scope) (tree : Expr) (p : Path) : Prop extends p.Placed S tree where
  keyed : ∀ b ∈ p.running, ∀ f ∈ b.frames, f.Keyed

theorem founded_after {tree : Expr} (valid : tree.defect? = none) (coherent : tree.Coherent)
    (id : ℕ) (name : Option String) (initial : Captures) (acts : List Act) :
    ((start id name tree initial).after acts).Founded (Scope.of tree) tree := by
  have within : tree.Within (Scope.of tree) :=
    Expr.within_of_valid valid (fun _ hc => hc) fun _ hk => hk
  have scope := Scope.coherent_of coherent
  exact after_induction ⟨Placed.start within id name initial, keyed_start id name tree initial⟩
    (fun q e hq opened =>
      ⟨hq.toPlaced.onEvent scope e, keyed_onEvent scope hq.within opened hq.keyed e⟩)
    (fun q hq => ⟨⟨hq.within, hq.stands⟩, hq.keyed⟩) acts

/-- At the start of a path its branches stand at the openings of its expression. -/
theorem addresses_start (id : ℕ) (name : Option String) (tree : Expr) (initial : Captures) :
    (start id name tree initial).running.map (fun b => address b.frames) = tree.openings := by
  have strands := strands_launch initial [] tree.starts 0
  have places := congrArg (List.map fun s : Strand => address s.frames) strands
  rw [strandsAt, List.map_map, List.map_map] at places
  exact places

end Path

end TracePattern
