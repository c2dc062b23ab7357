import TracePattern.Expr.Basic
import TracePattern.Outcome
import TracePattern.Digits

/-!
# Branches

A branch is one attempt at a match.  It stands at a node of the expression, its cursor, inside the
nodes around it, its frames, from the outermost to the innermost.

* `Frame`, `Cursor`, `Branch`;
* `Expr.starts`: the places at which a match of an expression starts;
* `startsAt`: the same for one child of a list of children;
* `Branch.position`: the place of a branch in words.
-/

namespace TracePattern

/-- A node around the place where a branch stands. -/
inductive Frame
  /-- A child of a sequence, or of the children of a node that waited for an event. -/
  | sequence (children : List Expr) (index : Nat)
  /-- A child of a filter, whose condition every event has to satisfy. -/
  | gate (condition : Condition) (child : Nat)
  /-- A group, which only events with its key get into. -/
  | route (key : KeyExtractor) (value : Value)
  /-- A node whose results go to a sink. -/
  | record (sink : Nat)

/-- Where a branch stands. -/
inductive Cursor
  /-- It waits for an event; the children, if there are any, get the same event. -/
  | event (condition : Condition) (children : Option (List Expr))
  /-- It forms groups: a copy of the template for every key that was not seen before. -/
  | router (key : KeyExtractor) (template : Expr) (seen : KeySet)

/-- One attempt at a match. -/
structure Branch where
  id : Nat
  captures : Captures
  frames : List Frame
  cursor : Cursor

/-- A place at which a match of an expression starts, with the frames inside the expression. -/
structure Start where
  frames : List Frame
  cursor : Cursor

/-- The same place seen from a node further out. -/
def Start.under (f : Frame) (s : Start) : Start := { s with frames := f :: s.frames }

/-! ### Starts -/

mutual
/-- The places at which a match of an expression starts: the first child of a sequence, every child
of a filter, and what is inside a recorded expression. -/
def Expr.starts : Expr → List Start
  | .event condition => [⟨[], .event condition none⟩]
  | .eventThen condition children => [⟨[], .event condition (some children)⟩]
  | .sequence children => Expr.startsOfFirst children children
  | .filter condition children => Expr.startsOfAll condition 0 children
  | .groupBy key template => [⟨[], .router key template .empty⟩]
  | .record sink inner => inner.starts.map (Start.under (.record sink))

/-- The starts of the first of some children, inside the sequence of `all` children. -/
def Expr.startsOfFirst (all : List Expr) : List Expr → List Start
  | [] => []
  | e :: _ => e.starts.map (Start.under (.sequence all 0))

/-- The starts of all children of a filter, the first of which has the given index. -/
def Expr.startsOfAll (condition : Condition) (index : Nat) : List Expr → List Start
  | [] => []
  | e :: rest =>
    e.starts.map (Start.under (.gate condition index)) ++
      Expr.startsOfAll condition (index + 1) rest
end

/-- The starts of the child with the given index, inside the sequence of its siblings. -/
def startsAt (children : List Expr) (index : Nat) : List Start :=
  match children[index]? with
  | some child => child.starts.map (Start.under (.sequence children index))
  | none => []

/-- The number of nodes that a cursor still has before it. -/
def Cursor.size : Cursor → Nat
  | .event _ none => 1
  | .event _ (some children) => 1 + Expr.sizes children
  | .router _ template _ => 1 + template.size

mutual
theorem size_of_mem_starts {e : Expr} {s : Start} (h : s ∈ e.starts) :
    s.cursor.size ≤ e.size := by
  match e with
  | .event c => simp_all [Expr.starts, Cursor.size, Expr.size]
  | .eventThen c cs => simp_all [Expr.starts, Cursor.size, Expr.size]
  | .sequence cs =>
    have := size_of_mem_startsOfFirst h
    simp only [Expr.size]
    omega
  | .filter c cs =>
    have := size_of_mem_startsOfAll h
    simp only [Expr.size]
    omega
  | .groupBy k t => simp_all [Expr.starts, Cursor.size, Expr.size]
  | .record k inner =>
    obtain ⟨t, ht, rfl⟩ := List.mem_map.1 h
    have := size_of_mem_starts ht
    simp only [Start.under, Expr.size]
    omega

theorem size_of_mem_startsOfFirst {all es : List Expr} {s : Start}
    (h : s ∈ Expr.startsOfFirst all es) : s.cursor.size ≤ Expr.sizes es := by
  match es with
  | [] => simp [Expr.startsOfFirst] at h
  | e :: rest =>
    obtain ⟨t, ht, rfl⟩ := List.mem_map.1 h
    have := size_of_mem_starts ht
    simp only [Start.under, Expr.sizes]
    omega

theorem size_of_mem_startsOfAll {c : Condition} {i : Nat} {es : List Expr} {s : Start}
    (h : s ∈ Expr.startsOfAll c i es) : s.cursor.size ≤ Expr.sizes es := by
  match es with
  | [] => simp [Expr.startsOfAll] at h
  | e :: rest =>
    rcases List.mem_append.1 h with h | h
    · obtain ⟨t, ht, rfl⟩ := List.mem_map.1 h
      have := size_of_mem_starts ht
      simp only [Start.under, Expr.sizes]
      omega
    · have := size_of_mem_startsOfAll h
      simp only [Expr.sizes]
      omega
end

theorem size_of_mem_startsAt {children : List Expr} {i : Nat} {s : Start}
    (h : s ∈ startsAt children i) : s.cursor.size ≤ Expr.sizes children := by
  unfold startsAt at h
  split at h
  · rename_i child hc
    obtain ⟨t, ht, rfl⟩ := List.mem_map.1 h
    have := size_of_mem_starts ht
    have := Expr.size_le_sizes (List.mem_of_getElem? hc)
    simp only [Start.under]
    omega
  · cases h

/-! ### Addresses -/

/-- Which child of its node a frame stands for. -/
def Frame.child : Frame → Nat
  | .sequence _ index => index
  | .gate _ child => child
  | .route _ _ => 0
  | .record _ => 0

/-- The address of the node inside some frames: the way from the root by the indices of children. -/
def address (frames : List Frame) : List Nat := frames.map Frame.child

/-! ### Positions -/

/-- A frame in words. -/
def Frame.describe : Frame → String
  | .sequence children index =>
    "sequence[" ++ Integer.decimal index ++ "/" ++ Integer.decimal children.length ++ "]"
  | .gate condition _ => "filter(" ++ condition.source ++ ")"
  | .route key value => "group_by(" ++ key.name ++ "=" ++ value.display ++ ")"
  | .record _ => "record"

/-- A cursor in words; children that wait for the same event come first. -/
def Cursor.describe : Cursor → List String
  | .event condition none => ["match(" ++ condition.source ++ ")"]
  | .event condition (some children) =>
    ["then[" ++ Integer.decimal children.length ++ "]", "match(" ++ condition.source ++ ")"]
  | .router key _ _ => ["group_by(" ++ key.name ++ ")"]

namespace Branch

/-- The branch only forms groups. Such branches are not shown as running. -/
def isRouter (b : Branch) : Bool := b.cursor matches .router ..

/-- Where in the expression the branch stands. -/
def position (b : Branch) : String :=
  " > ".intercalate (b.frames.map Frame.describe ++ b.cursor.describe)

/-- The running branch as its users see it. -/
def waiting (b : Branch) : Waiting := ⟨b.id, b.position, b.captures⟩

/-- The branch at its end. -/
def finish (b : Branch) (outcome : Outcome) (error : Option EvalError) : Finish :=
  ⟨b.id, outcome, b.captures, b.position, error⟩

/-- The result of the branch for the sinks of a path. -/
def recorded (b : Branch) (path : Nat) (outcome : Outcome) (error : Option EvalError) : Recorded :=
  ⟨path, b.id, outcome, b.captures, error⟩

/-- Branches at the given starts inside `outer`, with numbers from `next` on. -/
def launch (captures : Captures) (outer : List Frame) (starts : List Start) (next : Nat) :
    List Branch :=
  (starts.zipIdx next).map fun s => ⟨s.2, captures, outer ++ s.1.frames, s.1.cursor⟩

/-- The branches that carry on for `b` at the given starts. The first keeps the number of `b`, the
others get numbers from `next` on. -/
def carryOn (b : Branch) (outer : List Frame) (starts : List Start) (next : Nat) : List Branch :=
  match starts with
  | [] => []
  | s :: rest =>
    { b with frames := outer ++ s.frames, cursor := s.cursor } :: launch b.captures outer rest next

theorem cursor_of_mem_launch {captures : Captures} {outer : List Frame} {starts : List Start}
    {next : Nat} {b : Branch} (h : b ∈ launch captures outer starts next) :
    ∃ s ∈ starts, b.cursor = s.cursor := by
  obtain ⟨⟨s, i⟩, hs, rfl⟩ := List.mem_map.1 h
  exact ⟨s, List.fst_mem_of_mem_zipIdx hs, rfl⟩

theorem cursor_of_mem_carryOn {b : Branch} {outer : List Frame} {starts : List Start} {next : Nat}
    {c : Branch} (h : c ∈ b.carryOn outer starts next) : ∃ s ∈ starts, c.cursor = s.cursor := by
  cases starts with
  | nil => cases h
  | cons s rest =>
    rcases List.mem_cons.1 h with rfl | h
    · exact ⟨s, List.mem_cons_self, rfl⟩
    · obtain ⟨t, ht, e⟩ := cursor_of_mem_launch h
      exact ⟨t, List.mem_cons_of_mem _ ht, e⟩

end Branch

end TracePattern
