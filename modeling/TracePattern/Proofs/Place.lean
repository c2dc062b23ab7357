import TracePattern.Proofs.Step

/-!
# Places in an expression

The frames of a branch are the way from the root of an expression down to the node where it stands.

* `Expr.Into`, `Expr.Leads`: the way from a node to a child, and to any node below it;
* `Expr.Waits`: the cursor of a node; `Expr.Stands`: frames and a cursor as a place in an expression;
* `Expr.stands_of_mem_starts`, `Expr.stands_of_mem_startsAt`, `Expr.Leads.lists_of_unwind`: the ways
  on from a place lead to places;
* `Expr.node?`, `Expr.ancestors`: the node at an address, and the nodes above it;
* `Expr.Leads.node?`, `Expr.Leads.traits`: they are what the frames say.
-/

namespace TracePattern

namespace Expr

/-! ### Ways -/

/-- A frame is the way from a node into one of its children. -/
inductive Into : Expr → Frame → Expr → Prop
  | eventThen {c : Condition} {children : List Expr} {i : ℕ} {d : Expr}
    (child : children[i]? = some d) : Into (.eventThen c children) (.sequence children i) d
  | sequence {children : List Expr} {i : ℕ} {d : Expr} (child : children[i]? = some d) :
    Into (.sequence children) (.sequence children i) d
  | filter {c : Condition} {children : List Expr} {i : ℕ} {d : Expr}
    (child : children[i]? = some d) : Into (.filter c children) (.gate c i) d
  | groupBy {key : KeyExtractor} {template : Expr} {value : Value} :
    Into (.groupBy key template) (.route key value) template
  | record {sink : ℕ} {inner : Expr} : Into (.record sink inner) (.record sink) inner

/-- Frames are the way from a node to a node below it, or to itself. -/
inductive Leads : Expr → List Frame → Expr → Prop
  | nil {e : Expr} : Leads e [] e
  | cons {e d n : Expr} {f : Frame} {frames : List Frame} (into : Into e f d)
    (leads : Leads d frames n) : Leads e (f :: frames) n

/-- The node waits with this cursor. -/
inductive Waits : Expr → Cursor → Prop
  | event {c : Condition} : Waits (.event c) (.event c none)
  | eventThen {c : Condition} {children : List Expr} :
    Waits (.eventThen c children) (.event c (some children))
  | groupBy {key : KeyExtractor} {template : Expr} {seen : KeySet} :
    Waits (.groupBy key template) (.router key template seen)

/-- Frames and a cursor are a place in the expression. -/
def Stands (e : Expr) (frames : List Frame) (cursor : Cursor) : Prop :=
  ∃ n, e.Leads frames n ∧ n.Waits cursor

/-- The node has these children, which are done one after another. -/
inductive Lists : Expr → List Expr → Prop
  | eventThen {c : Condition} {children : List Expr} : Lists (.eventThen c children) children
  | sequence {children : List Expr} : Lists (.sequence children) children

variable {e d n : Expr} {f : Frame} {frames outer inner : List Frame} {cursor : Cursor}
  {children : List Expr} {index : ℕ}

theorem Lists.into (lists : e.Lists children) (child : children[index]? = some d) :
    e.Into (.sequence children index) d := by
  cases lists with
  | eventThen => exact .eventThen child
  | sequence => exact .sequence child

theorem Into.lists (into : e.Into (.sequence children index) d) : e.Lists children := by
  cases into with
  | eventThen _ => exact .eventThen
  | sequence _ => exact .sequence

theorem Leads.append (first : e.Leads outer d) (second : d.Leads inner n) :
    e.Leads (outer ++ inner) n := by
  induction first with
  | nil => exact second
  | cons into _ ih => exact .cons into (ih second)

/-- A way can be broken anywhere. -/
theorem Leads.split (leads : e.Leads (outer ++ inner) n) :
    ∃ d, e.Leads outer d ∧ d.Leads inner n := by
  induction outer generalizing e with
  | nil => exact ⟨e, .nil, leads⟩
  | cons f outer ih =>
    cases leads with
    | cons into leads =>
      obtain ⟨d, first, second⟩ := ih leads
      exact ⟨d, .cons into first, second⟩

theorem Stands.under (leads : e.Leads outer d) (stands : d.Stands inner cursor) :
    e.Stands (outer ++ inner) cursor := by
  obtain ⟨n, further, waits⟩ := stands
  exact ⟨n, leads.append further, waits⟩

theorem Stands.into (into : e.Into f d) (stands : d.Stands frames cursor) :
    e.Stands (f :: frames) cursor := stands.under (.cons into .nil)

mutual
/-- The starts of an expression are places in it. -/
theorem stands_of_mem_starts {e : Expr} {s : Start} (mem : s ∈ e.starts) :
    e.Stands s.frames s.cursor := by
  match e with
  | .event c =>
    obtain rfl : s = _ := by simpa [starts] using mem
    exact ⟨_, .nil, .event⟩
  | .eventThen c children =>
    obtain rfl : s = _ := by simpa [starts] using mem
    exact ⟨_, .nil, .eventThen⟩
  | .sequence [] => cases mem
  | .sequence (d :: rest) =>
    obtain ⟨t, ht, rfl⟩ := List.mem_map.1 mem
    exact (stands_of_mem_starts ht).into (.sequence rfl)
  | .filter c children => exact 
    stands_of_mem_startsOfAll (fun i d found => (Nat.zero_add i).symm ▸ .filter found) mem
  | .groupBy key template =>
    obtain rfl : s = _ := by simpa [starts] using mem
    exact ⟨_, .nil, .groupBy⟩
  | .record sink inner =>
    obtain ⟨t, ht, rfl⟩ := List.mem_map.1 mem
    exact (stands_of_mem_starts ht).into .record

theorem stands_of_mem_startsOfAll {e : Expr} {c : Condition} {index : ℕ} {es : List Expr}
    (into : ∀ i d, es[i]? = some d → e.Into (.gate c (index + i)) d) {s : Start}
    (mem : s ∈ startsOfAll c index es) : e.Stands s.frames s.cursor := by
  match es with
  | [] => cases mem
  | d :: rest =>
    rcases List.mem_append.1 mem with mem | mem
    · obtain ⟨t, ht, rfl⟩ := List.mem_map.1 mem
      exact (stands_of_mem_starts ht).into (into 0 d rfl)
    · refine stands_of_mem_startsOfAll (fun i d found => ?_) mem
      have := into (i + 1) d found
      rwa [show index + (i + 1) = index + 1 + i by omega] at this
end

/-- The starts of a child are places in its parent. -/
theorem stands_of_mem_startsAt (lists : e.Lists children) {s : Start}
    (mem : s ∈ startsAt children index) : e.Stands s.frames s.cursor := by
  unfold startsAt at mem
  split at mem
  · rename_i child found
    obtain ⟨t, ht, rfl⟩ := List.mem_map.1 mem
    exact (stands_of_mem_starts ht).into (lists.into found)
  · cases mem

/-- The sequence that is left when nodes are completed is a node on the way. -/
theorem Leads.lists_of_unwind (leads : e.Leads frames n)
    (next : (unwind frames).next = some (outer, children, index)) :
    ∃ d, e.Leads outer d ∧ d.Lists children := by
  obtain ⟨i, inner, rfl, -, -⟩ := unwind_next next
  obtain ⟨d, first, second⟩ := leads.split
  cases second with
  | cons into _ => exact ⟨d, first, into.lists⟩

/-! ### Addresses -/

/-- The child of a node with an index. -/
def child? : Expr → ℕ → Option Expr
  | .event _, _ => none
  | .eventThen _ children, i => children[i]?
  | .sequence children, i => children[i]?
  | .filter _ children, i => children[i]?
  | .groupBy _ template, i => if i = 0 then some template else none
  | .record _ inner, i => if i = 0 then some inner else none

/-- The node at an address. -/
def node? (e : Expr) : List ℕ → Option Expr
  | [] => some e
  | i :: way => (e.child? i).bind (node? · way)

theorem Into.child? (into : e.Into f d) : e.child? f.child = some d := by
  cases into with
  | eventThen child => exact child
  | sequence child => exact child
  | filter child => exact child
  | groupBy => rfl
  | record => rfl

theorem Leads.node? (leads : e.Leads frames n) : e.node? (address frames) = some n := by
  induction leads with
  | nil => rfl
  | cons into _ ih =>
    rw [address, List.map_cons, Expr.node?, into.child?]
    exact ih

end Expr

/-- A node above some place, its address, and which of its children is on the way to the place. -/
structure Ancestor where
  node : Expr
  address : List ℕ
  child : ℕ

namespace Expr

/-- The nodes above an address, outermost first. The expression itself has the address `here`. -/
def ancestorsFrom (here : List ℕ) (e : Expr) : List ℕ → List Ancestor
  | [] => []
  | i :: way => ⟨e, here, i⟩ ::
    match e.child? i with
    | some d => ancestorsFrom (here ++ [i]) d way
    | none => []

/-- The nodes above an address, outermost first. -/
def ancestors (e : Expr) (way : List ℕ) : List Ancestor := e.ancestorsFrom [] way

variable {e d n : Expr} {frames : List Frame} {here way : List ℕ}

/-- The nodes above an address below another one. -/
theorem ancestorsFrom_append (here : List ℕ) {way : List ℕ} (found : e.node? way = some d)
    (more : List ℕ) : e.ancestorsFrom here (way ++ more) =
      e.ancestorsFrom here way ++ d.ancestorsFrom (here ++ way) more := by
  induction way generalizing e here with
  | nil =>
    obtain rfl := Option.some.inj found
    simp [ancestorsFrom]
  | cons i way ih =>
    simp only [node?] at found
    cases child : e.child? i with
    | none => simp [child] at found
    | some c =>
      rw [child, Option.bind_some] at found
      simp only [List.cons_append, ancestorsFrom, child, ih (here ++ [i]) found, List.append_assoc,
        List.nil_append]

/-- Ancestors lie on the way. -/
theorem address_of_mem_ancestorsFrom {a : Ancestor} (mem : a ∈ e.ancestorsFrom here way) :
    here <+: a.address ∧ a.address ++ [a.child] <+: here ++ way := by
  induction way generalizing e here with
  | nil => cases mem
  | cons i way ih =>
    rw [ancestorsFrom, List.mem_cons] at mem
    have onward : here ++ [i] <+: here ++ i :: way := ⟨way, by simp⟩
    rcases mem with rfl | mem
    · exact ⟨List.prefix_rfl, onward⟩
    · split at mem
      · obtain ⟨from_here, to_way⟩ := ih mem
        rw [List.append_assoc, List.singleton_append] at to_way
        exact ⟨(List.prefix_append here [i]).trans from_here, to_way⟩
      · cases mem

/-- Further in, addresses get longer. -/
theorem pairwise_ancestorsFrom (e : Expr) (here way : List ℕ) :
    (e.ancestorsFrom here way).Pairwise fun a b => a.address.length < b.address.length := by
  induction way generalizing e here with
  | nil => exact .nil
  | cons i way ih =>
    rw [ancestorsFrom]
    refine List.pairwise_cons.2 ⟨?_, ?_⟩
    · intro b mem
      split at mem
      · have longer := (address_of_mem_ancestorsFrom mem).1.length_le
        rw [List.length_append, List.length_singleton] at longer
        exact longer
      · cases mem
    · split
      · exact ih _ _
      · exact .nil

end Expr

end TracePattern
