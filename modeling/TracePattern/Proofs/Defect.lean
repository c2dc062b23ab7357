import Mathlib.Data.List.Lex
import TracePattern.Proofs.Flattening.Parts
import TracePattern.Proofs.Place

/-!
# The first defect of an expression

An expression can be run if none of its nodes is faulty.  Otherwise the defect that is reported is
that of the first faulty node in the order of reading, which is the order of addresses: a node comes
before the nodes below it, and these from left to right.

* `Expr.Faulty`, `Reason.rank`: what is wrong with a node, and which reason comes first;
* `Expr.route`: the way to a node in kinds and indices;
* `Site`, `Expr.sites`: the nodes of an expression in the order of reading;
* `Expr.mem_sites`, `Expr.pairwise_sites`: they are all nodes, in the order of addresses;
* `Expr.defectAt?_eq`: the defect of an expression is the first one of its sites;
* `Expr.defect?_exact`: the expressions without defect, and the first defect of the others.
-/

namespace TracePattern

/-- The order in which reasons are looked for. The three empty lists of children are for nodes of
different kinds, and so are the two empty names and the rest. -/
def Reason.rank : Reason → ℕ
  | .tooDeep => 0
  | .emptyCaptureKey => 1
  | .emptyMatch => 2
  | .emptySequence => 3
  | .emptyFilter => 4
  | .emptyKeyName => 5
  | .emptyKeyProperty => 6

theorem Reason.rank_inj {r r' : Reason} (same : r.rank = r'.rank) : r = r' := by
  revert same
  cases r <;> cases r' <;> decide

namespace Expr

/-! ### Faulty nodes -/

/-- The condition of a node. -/
def condition? : Expr → Option Condition
  | .event condition => some condition
  | .eventThen condition _ => some condition
  | .filter condition _ => some condition
  | _ => none

/-- What can be wrong with a node that has so many nodes above it. -/
def Faulty (depth : ℕ) (n : Expr) : Reason → Prop
  | .tooDeep => maxDepth < depth
  | .emptyCaptureKey => ∃ condition, n.condition? = some condition ∧ condition.captureKey = some ""
  | .emptyMatch => ∃ condition, n = .eventThen condition []
  | .emptySequence => n = .sequence []
  | .emptyFilter => ∃ condition, n = .filter condition []
  | .emptyKeyName => ∃ key template, n = .groupBy key template ∧ key.name = ""
  | .emptyKeyProperty => ∃ key template, n = .groupBy key template ∧ key.source = .property ""

/-- The first reason against a node. -/
def reason? (depth : ℕ) (n : Expr) : Option Reason :=
  if maxDepth < depth then some .tooDeep else n.ownReason?

variable {depth : ℕ} {n : Expr} {r r' : Reason}

theorem faulty_of_ownReason? (own : n.ownReason? = some r) : n.Faulty depth r := by
  cases n <;> grind [ownReason?, Faulty, condition?]

theorem rank_le_of_ownReason? (shallow : depth ≤ maxDepth) (own : n.ownReason? = some r)
    (faulty : n.Faulty depth r') : r.rank ≤ r'.rank := by
  cases n <;> cases r' <;> grind [ownReason?, Faulty, condition?, Reason.rank]

theorem not_faulty_of_ownReason? (shallow : depth ≤ maxDepth) (own : n.ownReason? = none)
    (r : Reason) : ¬ n.Faulty depth r := by
  cases n <;> cases r <;> grind [ownReason?, Faulty, condition?]

theorem ownReason?_ne_tooDeep (n : Expr) : n.ownReason? ≠ some .tooDeep := by
  intro own
  have deep : n.Faulty 0 .tooDeep := faulty_of_ownReason? own
  exact Nat.not_lt_zero _ deep

theorem reason?_eq_none : n.reason? depth = none ↔ ∀ r, ¬ n.Faulty depth r := by
  unfold reason?
  split
  · rename_i deep
    exact iff_of_false (by simp) fun healthy => healthy .tooDeep deep
  · rename_i shallow
    constructor
    · exact not_faulty_of_ownReason? (Nat.not_lt.1 shallow)
    · intro healthy
      exact Option.eq_none_iff_forall_ne_some.2 fun r own => healthy r (faulty_of_ownReason? own)

/-- **The reason against a node** is the first of those that apply. -/
theorem reason?_eq_some : n.reason? depth = some r ↔
    n.Faulty depth r ∧ ∀ r', n.Faulty depth r' → r.rank ≤ r'.rank := by
  have first : ∀ {r}, n.reason? depth = some r →
      n.Faulty depth r ∧ ∀ r', n.Faulty depth r' → r.rank ≤ r'.rank := by
    intro r h
    unfold reason? at h
    split at h
    · rename_i deep
      cases h
      exact ⟨deep, fun r' _ => Nat.zero_le _⟩
    · rename_i shallow
      exact ⟨faulty_of_ownReason? h, fun r' => rank_le_of_ownReason? (Nat.not_lt.1 shallow) h⟩
  refine ⟨first, fun ⟨faulty, least⟩ => ?_⟩
  cases found : n.reason? depth with
  | none => exact absurd faulty (reason?_eq_none.1 found r)
  | some r₀ =>
    obtain ⟨faulty₀, least₀⟩ := first found
    rw [Reason.rank_inj (Nat.le_antisymm (least₀ r faulty) (least r₀ faulty₀))]

/-! ### Children -/

theorem child?_eq (e : Expr) (i : ℕ) : e.child? i = e.children[i]? := by
  cases e with
  | groupBy key template => cases i <;> rfl
  | record sink inner => cases i <;> rfl
  | _ => rfl

theorem size_eq (e : Expr) : e.size = 1 + sizes e.children := by
  cases e <;> simp [size, sizes, children]

/-- What holds of an expression if it holds of its children holds of every expression. -/
theorem children_induction {P : Expr → Prop} (step : ∀ e, (∀ d ∈ e.children, P d) → P e)
    (e : Expr) : P e :=
  step e fun d _ => children_induction step d
termination_by e.size
decreasing_by
  have smaller := size_le_sizes ‹d ∈ e.children›
  rw [size_eq e]
  omega

/-- A node and the way to one of its children, as a location spells them. The only child of a group
or of a recorded node has no index. -/
def steps (e : Expr) (i : ℕ) : List Segment :=
  match e with
  | .groupBy _ _ => [.node e.kind]
  | .record _ _ => [.node e.kind]
  | _ => [.node e.kind, .child i]

/-- The way from the root to a node, without the node. -/
def route (e : Expr) (way : List ℕ) : List Segment :=
  (e.ancestors way).flatMap fun a => a.node.steps a.child

theorem route_cons {e d : Expr} {i : ℕ} (child : e.child? i = some d) (way : List ℕ) :
    e.route (i :: way) = e.steps i ++ d.route way := by
  have same : ∀ here there, (d.ancestorsFrom here way).flatMap (fun a => a.node.steps a.child) =
      (d.ancestorsFrom there way).flatMap fun a => a.node.steps a.child := by
    clear child
    induction way generalizing d with
    | nil => exact fun _ _ => rfl
    | cons j way ih =>
      intro here there
      rw [ancestorsFrom, ancestorsFrom, List.flatMap_cons, List.flatMap_cons]
      cases d.child? j with
      | none => rfl
      | some c => exact congrArg _ (ih _ _)
  rw [route, ancestors, ancestorsFrom, child, List.flatMap_cons]
  exact congrArg _ (same _ [])

end Expr

/-! ### The order of reading -/

/-- A node of an expression with its address and the way to it. -/
structure Site where
  address : List ℕ
  route : List Segment
  node : Expr

/-- The same node seen from the parent of the expression. -/
def Site.under (steps : ℕ → List Segment) (i : ℕ) (s : Site) : Site :=
  ⟨i :: s.address, steps i ++ s.route, s.node⟩

/-- The defect of a node. -/
def Site.defect? (location : List Segment) (depth : ℕ) (s : Site) : Option Defect :=
  (s.node.reason? (depth + s.address.length)).map fun r =>
    ⟨location ++ s.route ++ if r = .tooDeep then [] else [.node s.node.kind], r⟩

theorem Site.defect?_under (location : List Segment) (depth : ℕ) (steps : ℕ → List Segment) (i : ℕ)
    (s : Site) : (s.under steps i).defect? location depth =
      s.defect? (location ++ steps i) (depth + 1) := by
  simp only [Site.defect?, Site.under, List.length_cons, List.append_assoc]
  rw [Nat.add_right_comm, Nat.add_assoc depth]

namespace Expr

mutual
/-- The nodes of an expression in the order of reading. -/
def sites : Expr → List Site
  | .event condition => [⟨[], [], .event condition⟩]
  | .eventThen condition children =>
    ⟨[], [], .eventThen condition children⟩ ::
      sitesOf (steps (.eventThen condition children)) 0 children
  | .sequence children =>
    ⟨[], [], .sequence children⟩ :: sitesOf (steps (.sequence children)) 0 children
  | .filter condition children =>
    ⟨[], [], .filter condition children⟩ :: sitesOf (steps (.filter condition children)) 0 children
  | .groupBy key template =>
    ⟨[], [], .groupBy key template⟩ ::
      template.sites.map (Site.under (steps (.groupBy key template)) 0)
  | .record sink inner =>
    ⟨[], [], .record sink inner⟩ :: inner.sites.map (Site.under (steps (.record sink inner)) 0)

/-- The nodes of children, the first of which has the given index. -/
def sitesOf (steps : ℕ → List Segment) (index : ℕ) : List Expr → List Site
  | [] => []
  | e :: rest => e.sites.map (Site.under steps index) ++ sitesOf steps (index + 1) rest
end

theorem sites_eq (e : Expr) : e.sites = ⟨[], [], e⟩ :: sitesOf e.steps 0 e.children := by
  cases e <;> simp [sites, sitesOf, children]

theorem mem_sitesOf {steps : ℕ → List Segment} {index : ℕ} {es : List Expr} {s : Site} :
    s ∈ sitesOf steps index es ↔
      ∃ i, ∃ d : Expr, ∃ t : Site,
        es[i]? = some d ∧ t ∈ d.sites ∧ s = t.under steps (index + i) := by
  induction es generalizing index with
  | nil => simp [sitesOf]
  | cons e rest ih =>
    rw [sitesOf, List.mem_append, ih]
    constructor
    · rintro (mem | ⟨i, d, t, found, mem, rfl⟩)
      · obtain ⟨t, inside, rfl⟩ := List.mem_map.1 mem
        exact ⟨0, e, t, rfl, inside, rfl⟩
      · exact ⟨i + 1, d, t, found, mem, by rw [Nat.add_right_comm, Nat.add_assoc]⟩
    · rintro ⟨i, d, t, found, mem, rfl⟩
      cases i with
      | zero =>
        cases found
        exact .inl (List.mem_map_of_mem mem)
      | succ i => exact .inr ⟨i, d, t, found, mem, by rw [Nat.add_right_comm, Nat.add_assoc]⟩

/-- **The sites are the nodes at all addresses**, with the ways to them. -/
theorem mem_sites {e n : Expr} {way : List ℕ} {segments : List Segment} :
    ⟨way, segments, n⟩ ∈ e.sites ↔ e.node? way = some n ∧ segments = e.route way := by
  induction way generalizing e segments with
  | nil =>
    rw [sites_eq, List.mem_cons, mem_sitesOf]
    constructor
    · rintro (same | ⟨_, _, _, -, -, same⟩)
      · cases same
        exact ⟨rfl, rfl⟩
      · cases same
    · rintro ⟨found, here⟩
      cases found
      rw [here]
      exact .inl rfl
  | cons i way ih =>
    rw [sites_eq, List.mem_cons, mem_sitesOf, node?]
    constructor
    · rintro (same | ⟨j, d, t, found, mem, same⟩)
      · cases same
      · rw [Nat.zero_add] at same
        cases same
        obtain ⟨inside, further⟩ := ih.1 mem
        have child := (e.child?_eq i).trans found
        rw [child, route_cons child, ← further]
        exact ⟨inside, rfl⟩
    · rintro ⟨inside, further⟩
      obtain ⟨d, child, inside⟩ := Option.bind_eq_some_iff.1 inside
      refine .inr ⟨i, d, ⟨way, d.route way, n⟩, (e.child?_eq i).symm.trans child,
        ih.2 ⟨inside, rfl⟩, ?_⟩
      rw [Nat.zero_add, further, route_cons child]
      rfl

/-- **The sites are in the order of their addresses.** -/
theorem pairwise_sites (e : Expr) : e.sites.Pairwise fun s t => s.address < t.address := by
  induction e using children_induction with
  | step e ih =>
  have further : ∀ steps index es, (∀ d ∈ es, d ∈ e.children) →
      (sitesOf steps index es).Pairwise fun s t => s.address < t.address := by
    intro steps index es
    induction es generalizing index with
    | nil => exact fun _ => .nil
    | cons d rest ihrest =>
      intro inside
      rw [sitesOf]
      refine List.pairwise_append.2 ⟨?_, ihrest _ fun c mem => inside c (.tail d mem), ?_⟩
      · refine List.pairwise_map.2 ((ih d (inside d List.mem_cons_self)).imp fun less => ?_)
        exact List.cons_lt_cons_iff.2 (.inr ⟨rfl, less⟩)
      · intro s mem t mem'
        obtain ⟨s, -, rfl⟩ := List.mem_map.1 mem
        obtain ⟨i, c, t, -, -, rfl⟩ := mem_sitesOf.1 mem'
        exact List.cons_lt_cons_iff.2 (.inl (by omega))
  rw [sites_eq]
  refine List.pairwise_cons.2 ⟨fun t mem => ?_, further _ _ _ fun d mem => mem⟩
  obtain ⟨i, d, t, -, -, rfl⟩ := mem_sitesOf.1 mem
  exact List.nil_lt_cons _ _

/-! ### The first defect -/

/-- **The defect of an expression is the first one of its sites.** -/
theorem defectAt?_eq (location : List Segment) (depth : ℕ) (e : Expr) :
    defectAt? location depth e = e.sites.findSome? (Site.defect? location depth) := by
  induction e using children_induction generalizing location depth with
  | step e ih =>
  -- Children whose steps have indices are met from left to right.
  have further : ∀ index es, (∀ d ∈ es, d ∈ e.children) →
      defectIn? (location ++ [.node e.kind]) depth index es =
        (sitesOf (fun i => [.node e.kind, .child i]) index es).findSome?
          (Site.defect? location depth) := by
    intro index es
    induction es generalizing index with
    | nil => exact fun _ => rfl
    | cons d rest ihrest =>
      intro inside
      have first : d.sites.findSome?
          (Site.defect? (location ++ [.node e.kind] ++ [.child index]) (depth + 1)) =
            (d.sites.map (Site.under (fun i => [.node e.kind, .child i]) index)).findSome?
              (Site.defect? location depth) := by
        rw [List.findSome?_map]
        refine congrArg (List.findSome? · d.sites) (funext fun s => ?_)
        rw [Function.comp_apply, Site.defect?_under, List.append_assoc]
        rfl
      rw [defectIn?, ih d (inside d List.mem_cons_self),
        ihrest _ fun c mem => inside c (.tail d mem), sitesOf, List.findSome?_append, first]
      cases (d.sites.map _).findSome? (Site.defect? location depth) <;> rfl
  have below : ∀ template, e.steps = (fun _ => [.node e.kind]) → e.children = [template] →
      defectAt? (location ++ [.node e.kind]) (depth + 1) template =
        (sitesOf e.steps 0 e.children).findSome? (Site.defect? location depth) := by
    intro template steps children
    rw [ih template (children ▸ List.mem_cons_self), children, sitesOf, sitesOf, List.append_nil,
      List.findSome?_map]
    refine congrArg (List.findSome? · template.sites) (funext fun s => ?_)
    rw [Function.comp_apply, Site.defect?_under, steps]
  rw [sites_eq, List.findSome?_cons, defectAt?]
  simp only [Site.defect?, reason?, List.length_nil, Nat.add_zero, List.append_nil]
  by_cases deep : maxDepth < depth
  · simp [deep]
  · simp only [if_neg deep]
    cases own : e.ownReason? with
    | some r =>
      have other : r ≠ .tooDeep := fun same => e.ownReason?_ne_tooDeep (same ▸ own)
      simp [other]
    | none =>
      cases e with
      | event condition => rfl
      | eventThen condition children => exact further 0 children fun _ mem => mem
      | sequence children => exact further 0 children fun _ mem => mem
      | filter condition children => exact further 0 children fun _ mem => mem
      | groupBy key template => exact below template rfl rfl
      | record sink inner => exact below inner rfl rfl

theorem Site.defect?_eq_none {location : List Segment} {depth : ℕ} {s : Site} :
    s.defect? location depth = none ↔ ∀ r, ¬ s.node.Faulty (depth + s.address.length) r := by
  rw [Site.defect?, Option.map_eq_none_iff, reason?_eq_none]

/-- An expression has no defect just if no node is faulty. -/
theorem defect?_eq_none_iff {e : Expr} : e.defect? = none ↔
    ∀ way n, e.node? way = some n → ∀ r, ¬ n.Faulty way.length r := by
  rw [defect?, defectAt?_eq, List.findSome?_eq_none_iff]
  constructor
  · intro healthy way n found r faulty
    have here := Site.defect?_eq_none.1 (healthy _ (mem_sites.2 ⟨found, rfl⟩)) r
    exact here ((Nat.zero_add _).symm ▸ faulty)
  · rintro healthy ⟨way, segments, n⟩ mem
    refine Site.defect?_eq_none.2 fun r faulty => ?_
    exact healthy way n (mem_sites.1 mem).1 r (Nat.zero_add way.length ▸ faulty)

/-- The defect that is reported is that of the first faulty node. -/
theorem defect?_eq_some_iff {e : Expr} {d : Defect} : e.defect? = some d ↔
    ∃ way n, e.node? way = some n ∧ n.Faulty way.length d.reason ∧
      (∀ r, n.Faulty way.length r → d.reason.rank ≤ r.rank) ∧
      (∀ before m, before < way → e.node? before = some m → ∀ r, ¬ m.Faulty before.length r) ∧
      d.location = e.route way ++ if d.reason = .tooDeep then [] else [.node n.kind] := by
  obtain ⟨location, reason⟩ := d
  rw [defect?, defectAt?_eq, List.findSome?_eq_some_iff]
  constructor
  · rintro ⟨earlier, ⟨way, segments, n⟩, later, split, found, healthy⟩
    have sorted := split ▸ e.pairwise_sites
    obtain ⟨inside, rfl⟩ := mem_sites.1 (split ▸ List.mem_append_right earlier List.mem_cons_self)
    obtain ⟨r, here, same⟩ := Option.map_eq_some_iff.1 found
    cases same
    rw [Nat.zero_add] at here
    obtain ⟨faulty, least⟩ := reason?_eq_some.1 here
    refine ⟨way, n, inside, faulty, least, fun before m less found r faulty => ?_, rfl⟩
    have mem : ⟨before, e.route before, m⟩ ∈ earlier ++ ⟨way, e.route way, n⟩ :: later :=
      split ▸ mem_sites.2 ⟨found, rfl⟩
    rcases List.mem_append.1 mem with mem | mem
    · exact Site.defect?_eq_none.1 (healthy _ mem) r ((Nat.zero_add _).symm ▸ faulty)
    · rcases List.mem_cons.1 mem with same | mem
      · cases same
        exact List.lt_irrefl _ less
      · have after := (List.pairwise_cons.1 (List.pairwise_append.1 sorted).2.1).1 _ mem
        exact List.lt_asymm less after
  · rintro ⟨way, n, inside, faulty, least, first, here⟩
    obtain ⟨earlier, later, split⟩ := List.append_of_mem (mem_sites.2 ⟨inside, rfl⟩)
    have sorted := split ▸ e.pairwise_sites
    refine ⟨earlier, _, later, split, ?_, ?_⟩
    · refine Option.map_eq_some_iff.2 ⟨reason, ?_, ?_⟩
      · rw [Nat.zero_add]
        exact reason?_eq_some.2 ⟨faulty, least⟩
      · exact congrArg (Defect.mk · reason) here.symm
    · rintro ⟨before, segments, m⟩ mem
      have less := (List.pairwise_append.1 sorted).2.2 _ mem _ List.mem_cons_self
      have found := (mem_sites.1 (split ▸ List.mem_append_left _ mem)).1
      refine Site.defect?_eq_none.2 fun r faulty => ?_
      exact first before m less found r (Nat.zero_add before.length ▸ faulty)

/-! ### Entering nodes -/

theorem Within.child {S : Scope} {e d : Expr} (within : e.Within S) (mem : d ∈ e.children) :
    d.Within S := by
  cases e with
  | event condition => cases mem
  | eventThen condition children => exact within.2.2.mem mem
  | sequence children => exact within.2.mem mem
  | filter condition children => exact within.2.2.mem mem
  | groupBy key template => exact List.mem_singleton.1 mem ▸ within.2
  | record sink inner => exact List.mem_singleton.1 mem ▸ within

/-- Every node of an expression without empty lists of children has none. -/
theorem Within.node? {S : Scope} {e n : Expr} {way : List ℕ} (within : e.Within S)
    (found : e.node? way = some n) : n.Within S := by
  induction way generalizing e with
  | nil => exact Option.some.inj found ▸ within
  | cons i way ih =>
    obtain ⟨d, child, found⟩ := Option.bind_eq_some_iff.1 found
    rw [child?_eq] at child
    exact ih (within.child (List.mem_of_getElem? child)) found

theorem Within.lists {S : Scope} {e : Expr} {es : List Expr} (within : e.Within S)
    (lists : e.Lists es) : AllWithin S es := by
  cases lists with
  | eventThen => exact within.2.2
  | sequence => exact within.2

/-- A location is written segment by segment. -/
theorem place_eq (d : Defect) : d.place = "root" ++ String.join (d.location.map Segment.text) := by
  have written : ∀ (segments : List Segment) (s : String),
      segments.foldl (fun s seg => s ++ seg.text) s =
        s ++ String.join (segments.map Segment.text) := by
    intro segments
    induction segments with
    | nil => exact fun s => (String.append_empty).symm
    | cons seg segments ih =>
      intro s
      rw [List.foldl_cons, ih, List.map_cons, String.join_cons, String.append_assoc]
  exact written d.location "root"

/-- **An expression has no defect just if none of its nodes is faulty**: none is nested too deeply,
has an empty list of children, an empty capture key, an empty key name or an empty key property.
Otherwise the defect is that of the first faulty node in the order of addresses, with the first
reason that applies to it. Its location spells the kinds and indices on the way from the root to the
node, and the node itself unless it is nested too deeply. And a match of any node of an expression
without defect starts with at least one branch, as does one of any child of a list. -/
theorem defect?_exact (e : Expr) :
    (e.defect? = none ↔ ∀ way n, e.node? way = some n → ∀ r, ¬ n.Faulty way.length r) ∧
    (∀ d, e.defect? = some d ↔ ∃ way n, e.node? way = some n ∧ n.Faulty way.length d.reason ∧
      (∀ r, n.Faulty way.length r → d.reason.rank ≤ r.rank) ∧
      (∀ before m, before < way → e.node? before = some m → ∀ r, ¬ m.Faulty before.length r) ∧
      d.location = e.route way ++ if d.reason = .tooDeep then [] else [.node n.kind]) ∧
    (∀ d : Defect, d.place = "root" ++ String.join (d.location.map Segment.text)) ∧
    (e.defect? = none → ∀ way n, e.node? way = some n →
      (∀ captures outer next, Branch.launch captures outer n.starts next ≠ []) ∧
      ∀ children, n.Lists children → ∀ i < children.length, startsAt children i ≠ []) := by
  refine ⟨defect?_eq_none_iff, fun d => defect?_eq_some_iff, place_eq, ?_⟩
  intro valid way n found
  have within : n.Within .all :=
    (within_of_valid valid (fun _ _ => trivial) fun _ _ => trivial).node? found
  refine ⟨fun captures outer next none => starts_ne_nil within ?_, ?_⟩
  · have length := Branch.length_launch captures outer n.starts next
    rw [none] at length
    exact List.length_eq_zero_iff.1 length.symm
  · exact fun children lists i inside => startsAt_ne_nil (within.lists lists) inside

/-- A group without a key name, an empty sequence in it and an empty list of children after it: the
group comes first. And the starts in a sound expression. -/
theorem defect?_exact_three_defects :
    let tree : Expr := .sequence [.filter .always [.event .always],
      .groupBy ⟨0, "", .property "host"⟩ (.sequence []), .eventThen .always []]
    let sound : Expr := .filter .always
      [.groupBy ⟨0, "host", .property "host"⟩ (.eventThen .always [.event .always])]
    let d : Defect := ⟨[.node "sequence", .child 1, .node "group_by"], .emptyKeyName⟩
    tree.defect? = some d ∧
      (∃ way n, tree.node? way = some n ∧ n.Faulty way.length d.reason ∧
        ∀ before m, before < way → tree.node? before = some m → ∀ r, ¬ m.Faulty before.length r) ∧
      sound.defect? = none ∧ ∀ way n, sound.node? way = some n →
        ∀ captures outer next, Branch.launch captures outer n.starts next ≠ [] := by
  intro tree sound d
  have first : tree.defect? = some d := by decide
  have valid : sound.defect? = none := by decide
  refine ⟨first, ?_, valid, fun way n found => ((defect?_exact sound).2.2.2 valid way n found).1⟩
  obtain ⟨way, n, found, faulty, -, earlier, -⟩ := ((defect?_exact tree).2.1 d).1 first
  exact ⟨way, n, found, faulty, earlier⟩

end Expr

end TracePattern
