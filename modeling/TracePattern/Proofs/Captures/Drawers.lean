import TracePattern.Proofs.Captures.Map
import TracePattern.Proofs.Captures.Sharing

/-!
# Shared storage and private maps

Whoever asks for captured values by name cannot tell a shelf, where names share storage until one of
them is written, from drawers, where every name has a map of its own.  Which names share storage is
also known from what was done with them: a fork joins the class of its origin, and a written name
leaves for a class of its own.

* `Shelf.Act`, `Shelf.after`: what is done with names, on a shelf;
* `Drawers`, `Drawers.after`: the same with drawers;
* `Shelf.Mirrors`, `Shelf.Effect`, `Shelf.mirrors_after`: they stay alike;
* `Shelf.Apart`, `Shelf.after_apart`: what is seen of it.
-/

namespace TracePattern

/-! ### Acts -/

/-- What is done with names. -/
inductive Shelf.Act
  | new (name : String)
  | collect (name : String) (pairs : List (String × Value))
  | extend (origin name key : String) (value : Value)
  | fork (origin name : String)
  | insert (name key : String) (value : Value)

/-- The name that comes to show something else. -/
def Shelf.Act.target : Shelf.Act → String
  | .new name | .collect name _ | .extend _ name _ _ | .fork _ name | .insert name _ _ => name

namespace Shelf

/-- What an act makes of the shelf, unless the name it starts from is unknown. -/
def next? (s : Shelf) : Act → Option Shelf
  | .new name => some (s.put name .empty)
  | .collect name pairs => some (s.put name (.ofList pairs))
  | .extend origin name key value => s.extend origin name key value
  | .fork origin name => s.share origin name
  | .insert name key value => s.insert name key value

/-- One act. -/
def apply (s : Shelf) (act : Act) : Shelf := (s.next? act).getD s

/-- Acts, from the first to the last. -/
def after (s : Shelf) (acts : List Act) : Shelf := acts.foldl apply s

end Shelf

/-- A map of its own, and the mark of a class. -/
structure Drawer where
  values : String → Option Value
  mark : ℕ

/-- The drawers of names. The marks given out so far are those below `marks`. -/
structure Drawers where
  drawer? : String → Option Drawer
  marks : ℕ

namespace Drawers

/-- No names. -/
def empty : Drawers := ⟨fun _ => none, 0⟩

/-- The name gets a drawer, and this many marks are given out. -/
def place (d : Drawers) (name : String) (w : Drawer) (marks : ℕ) : Drawers :=
  ⟨Function.update d.drawer? name (some w), marks⟩

theorem place_self (d : Drawers) (name : String) (w : Drawer) (n : ℕ) :
    (d.place name w n).drawer? name = some w := by
  simp [place]

theorem place_of_ne (d : Drawers) {name other : String} (different : other ≠ name) (w : Drawer)
    (n : ℕ) : (d.place name w n).drawer? other = d.drawer? other := by
  simp [place, different]

/-- The name gets these values, in a class of its own. -/
def start (d : Drawers) (name : String) (values : String → Option Value) : Drawers :=
  d.place name ⟨values, d.marks⟩ (d.marks + 1)

/-- The name gets the values of a drawer, in the same class. -/
def join (d : Drawers) (name : String) (w : Drawer) : Drawers := d.place name w d.marks

/-- What an act makes of the drawers, unless the name it starts from is unknown. -/
def next? (d : Drawers) : Shelf.Act → Option Drawers
  | .new name => some (d.start name fun _ => none)
  | .collect name pairs => some (d.start name (Captures.mapOf pairs))
  | .extend origin name key value =>
    (d.drawer? origin).map fun w => d.start name (Function.update w.values key (some value))
  | .fork origin name => (d.drawer? origin).map fun w => d.join name w
  | .insert name key value =>
    (d.drawer? name).map fun w => d.start name (Function.update w.values key (some value))

/-- One act. -/
def apply (d : Drawers) (act : Shelf.Act) : Drawers := (d.next? act).getD d

/-- Acts, from the first to the last. -/
def after (d : Drawers) (acts : List Shelf.Act) : Drawers := acts.foldl apply d

end Drawers

namespace Shelf

variable {s t : Shelf} {d : Drawers} {name : String} {i : ℕ} {c : Captures} {w : Drawer}

/-! ### The shelf and the drawers -/

/-- The names of the shelf show what is in their drawers, and use one cell if the drawers have one
mark. -/
structure Mirrors (s : Shelf) (d : Drawers) : Prop where
  tended : s.Tended
  shown : ∀ name, Option.Rel (fun c w => c.Shows w.values) (s.get? name) (d.drawer? name)
  shared : ∀ a b w w', d.drawer? a = some w → d.drawer? b = some w' →
    (s.cell? a = s.cell? b ↔ w.mark = w'.mark)
  marks : ∀ name w, d.drawer? name = some w → w.mark < d.marks

theorem mirrors_empty : empty.Mirrors .empty where
  tended := tended_empty
  shown _ := .none
  shared _ _ _ _ found := nomatch found
  marks _ _ found := nomatch found

theorem Mirrors.known (h : s.Mirrors d) (found : s.cell? name = some i) :
    ∃ c w, s.content? i = some c ∧ d.drawer? name = some w ∧ c.Shows w.values := by
  obtain ⟨c, content⟩ := h.tended.content found
  have shown := h.shown name
  rw [get?, found, Option.bind_some, content] at shown
  generalize drawn : d.drawer? name = drawer at shown
  cases shown with
  | some shows => exact ⟨c, _, content, rfl, shows⟩

theorem Mirrors.unknown (h : s.Mirrors d) (missing : s.cell? name = none) :
    d.drawer? name = none := by
  have shown := h.shown name
  rw [get?, missing, Option.bind_none] at shown
  generalize d.drawer? name = drawer at shown
  cases shown with
  | none => rfl

/-- What an act comes to, on the shelf and with the drawers. -/
inductive Effect (s t : Shelf) (d e : Drawers) (name : String) : Prop
  | nothing (same : t = s) (same' : e = d)
  | own {i c values} (becomes : Becomes s t name i c) (own : s.Own name i)
    (shows : c.Shows values) (start : e = d.start name values)
  | joined {i c w origin} (becomes : Becomes s t name i c) (found : s.cell? origin = some i)
    (drawn : d.drawer? origin = some w) (shows : c.Shows w.values) (join : e = d.join name w)

/-- **What an act does.** -/
theorem effect_apply (h : s.Mirrors d) (act : Act) :
    Effect s (s.apply act) d (d.apply act) act.target := by
  cases act with
  | new name =>
    obtain ⟨i, becomes, own⟩ := becomes_put h.tended name .empty
    exact .own becomes own Captures.shows_empty rfl
  | collect name pairs =>
    obtain ⟨i, becomes, own⟩ := becomes_put h.tended name (.ofList pairs)
    exact .own becomes own (Captures.shows_ofList pairs) rfl
  | extend origin name key value =>
    cases found : s.cell? origin with
    | none =>
      refine .nothing ?_ ?_
      · simp [apply, next?, extend, found]
      · simp [Drawers.apply, Drawers.next?, h.unknown found]
    | some i =>
      obtain ⟨c, w, content, drawn, shows⟩ := h.known found
      obtain ⟨t, j, result, becomes, own⟩ := becomes_extend h.tended found content name key value
      have after : s.apply (.extend origin name key value) = t := by rw [apply, next?, result]; rfl
      refine .own (after ▸ becomes) own (Captures.shows_insert shows key value) ?_
      rw [Drawers.apply, Drawers.next?, drawn]
      rfl
  | fork origin name =>
    cases found : s.cell? origin with
    | none =>
      refine .nothing ?_ ?_
      · simp [apply, next?, share, found]
      · simp [Drawers.apply, Drawers.next?, h.unknown found]
    | some i =>
      obtain ⟨c, w, content, drawn, shows⟩ := h.known found
      obtain ⟨t, result, becomes⟩ := becomes_share h.tended found content name
      have after : s.apply (.fork origin name) = t := by rw [apply, next?, result]; rfl
      refine .joined (after ▸ becomes) found drawn shows ?_
      rw [Drawers.apply, Drawers.next?, drawn]
      rfl
  | insert name key value =>
    cases found : s.cell? name with
    | none =>
      refine .nothing ?_ ?_
      · simp [apply, next?, insert, found]
      · simp [Drawers.apply, Drawers.next?, h.unknown found]
    | some i =>
      obtain ⟨c, w, content, drawn, shows⟩ := h.known found
      obtain ⟨t, j, result, becomes, own⟩ := becomes_insert h.tended found content key value
      have after : s.apply (.insert name key value) = t := by rw [apply, next?, result]; rfl
      refine .own (after ▸ becomes) own (Captures.shows_insert shows key value) ?_
      rw [Drawers.apply, Drawers.next?, drawn]
      rfl

theorem Mirrors.place (h : s.Mirrors d) (becomes : Becomes s t name i c)
    (shows : c.Shows w.values)
    (class_iff : ∀ other, other ≠ name → ∀ w', d.drawer? other = some w' →
      (s.cell? other = some i ↔ w'.mark = w.mark))
    {n : ℕ} (more : d.marks ≤ n) (given : w.mark < n) : t.Mirrors (d.place name w n) := by
  refine ⟨becomes.tended, fun other => ?shown, fun a b v v' foundA foundB => ?shared,
    fun other v found => ?marks⟩
  case shown =>
    by_cases here : other = name
    · subst here
      rw [becomes.here, Drawers.place_self]
      exact .some shows
    · rw [becomes.kept other here, d.place_of_ne here]
      exact h.shown other
  case shared =>
    by_cases hereA : a = name <;> by_cases hereB : b = name
    · subst hereA hereB
      rw [Drawers.place_self] at foundA foundB
      cases foundA
      cases foundB
      simp
    · subst hereA
      rw [Drawers.place_self] at foundA
      rw [d.place_of_ne hereB] at foundB
      cases foundA
      rw [becomes.cell, becomes.others b hereB, eq_comm, class_iff b hereB v' foundB, eq_comm]
    · subst hereB
      rw [d.place_of_ne hereA] at foundA
      rw [Drawers.place_self] at foundB
      cases foundB
      rw [becomes.cell, becomes.others a hereA, class_iff a hereA v foundA]
    · rw [d.place_of_ne hereA] at foundA
      rw [d.place_of_ne hereB] at foundB
      rw [becomes.others a hereA, becomes.others b hereB]
      exact h.shared a b v v' foundA foundB
  case marks =>
    by_cases here : other = name
    · subst here
      rw [Drawers.place_self] at found
      cases found
      exact given
    · rw [d.place_of_ne here] at found
      exact (h.marks other v found).trans_le more

theorem mirrors_apply (h : s.Mirrors d) (act : Act) : (s.apply act).Mirrors (d.apply act) := by
  cases effect_apply h act with
  | nothing same same' =>
    rw [same, same']
    exact h
  | own becomes own shows start =>
    rw [start]
    refine h.place becomes shows ?_ (Nat.le_succ _) (Nat.lt_succ_self _)
    intro other different w' drawn
    exact iff_of_false (own other different) (h.marks other w' drawn).ne
  | @joined i c w origin becomes found drawn shows join =>
    rw [join]
    refine h.place becomes shows ?_ le_rfl (h.marks origin w drawn)
    intro other _ w' drawn'
    rw [← found]
    exact h.shared other origin w' w drawn' drawn

/-- **The shelf shows what is in the drawers.** -/
theorem mirrors_after (h : s.Mirrors d) (acts : List Act) :
    (s.after acts).Mirrors (d.after acts) := by
  induction acts generalizing s d with
  | nil => exact h
  | cons act acts ih => exact ih (mirrors_apply h act)

/-- **A name shows the same until an act has it for its target.** -/
theorem get?_after_of_ne (h : s.Mirrors d) {acts : List Act}
    (elsewhere : ∀ act ∈ acts, act.target ≠ name) : (s.after acts).get? name = s.get? name := by
  induction acts generalizing s d with
  | nil => rfl
  | cons act acts ih =>
    obtain ⟨first, elsewhere⟩ := List.forall_mem_cons.1 elsewhere
    refine (ih (mirrors_apply h act) elsewhere).trans ?_
    cases effect_apply h act with
    | nothing same => rw [same]
    | own becomes => exact becomes.kept name first.symm
    | joined becomes => exact becomes.kept name first.symm

/-- A fork shows what its origin shows. -/
theorem get?_apply_fork (h : s.Tended) {origin : String} (got : s.get? origin = some c)
    (name : String) : (s.apply (.fork origin name)).get? name = some c := by
  obtain ⟨i, found, content⟩ := Option.bind_eq_some_iff.1 got
  obtain ⟨t, result, becomes⟩ := becomes_share h found content name
  rw [apply, next?, result]
  exact becomes.here

/-! ### What is seen -/

theorem shares_iff {a b : String} :
    s.shares a b = true ↔ ∃ i, s.cell? a = some i ∧ s.cell? b = some i := by
  unfold shares
  split
  · rename_i i j foundA foundB
    rw [foundA, foundB]
    simp [eq_comm]
  · rename_i unknown
    refine iff_of_false Bool.false_ne_true ?_
    rintro ⟨i, foundA, foundB⟩
    exact unknown i i foundA foundB

theorem Mirrors.cell (h : s.Mirrors d) (drawn : d.drawer? name = some w) :
    ∃ i, s.cell? name = some i := by
  cases found : s.cell? name with
  | none => exact nomatch (h.unknown found).symm.trans drawn
  | some i => exact ⟨i, rfl⟩

/-- What is seen of the names of a shelf is as if each had a drawer: the values, equality of all
values of two names, and which names share their storage. -/
structure Apart (s : Shelf) (d : Drawers) : Prop where
  shown : ∀ name, Option.Rel (fun c w => c.Shows w.values) (s.get? name) (d.drawer? name)
  equal : ∀ a b c c' w w', s.get? a = some c → s.get? b = some c' →
    d.drawer? a = some w → d.drawer? b = some w' →
    (c.equal c' = true ↔
      ∀ key, Option.Rel (fun v v' => v.equal v' = true) (w.values key) (w'.values key))
  shares : ∀ a b, s.shares a b = true ↔
    ∃ w w', d.drawer? a = some w ∧ d.drawer? b = some w' ∧ w.mark = w'.mark

theorem Mirrors.shows {w : Drawer} (h : s.Mirrors d) (got : s.get? name = some c)
    (drawn : d.drawer? name = some w) : c.Shows w.values := by
  have shown := h.shown name
  rw [got, drawn] at shown
  cases shown
  assumption

theorem Mirrors.apart (h : s.Mirrors d) : s.Apart d where
  shown := h.shown
  equal _ _ _ _ _ _ got got' drawn drawn' :=
    Captures.equal_iff (h.shows got drawn) (h.shows got' drawn')
  shares a b := by
    rw [shares_iff]
    constructor
    · rintro ⟨i, foundA, foundB⟩
      obtain ⟨_, w, _, drawn, _⟩ := h.known foundA
      obtain ⟨_, w', _, drawn', _⟩ := h.known foundB
      exact ⟨w, w', drawn, drawn', (h.shared a b w w' drawn drawn').1 (foundA.trans foundB.symm)⟩
    · rintro ⟨w, w', drawn, drawn', same⟩
      obtain ⟨i, found⟩ := h.cell drawn
      have cells := (h.shared a b w w' drawn drawn').2 same
      exact ⟨i, found, cells.symm.trans found⟩

/-- **Names that share storage are like names with maps of their own.** After any acts a shelf looks
like drawers after the same acts. No act changes what is seen of another name than its target; so
neither a fork nor its origin, of which the fork shows everything at first, observes what the other
captures later. -/
theorem after_apart (acts : List Act) :
    (empty.after acts).Apart (Drawers.empty.after acts) ∧
      (∀ name more, (∀ act ∈ more, act.target ≠ name) →
        (empty.after (acts ++ more)).get? name = (empty.after acts).get? name) ∧
      ∀ origin name c more, (empty.after acts).get? origin = some c →
        ((∀ act ∈ more, act.target ≠ name) →
          (empty.after (acts ++ .fork origin name :: more)).get? name = some c) ∧
        (name ≠ origin → (∀ act ∈ more, act.target ≠ origin) →
          (empty.after (acts ++ .fork origin name :: more)).get? origin = some c) := by
  have mirrors := mirrors_after mirrors_empty acts
  have frame (name : String) (more : List Act) (elsewhere : ∀ act ∈ more, act.target ≠ name) :
      (empty.after (acts ++ more)).get? name = (empty.after acts).get? name := by
    rw [after, List.foldl_append]
    exact get?_after_of_ne mirrors elsewhere
  refine ⟨mirrors.apart, frame, fun origin name c more got => ⟨fun elsewhere => ?fork, ?origin⟩⟩
  case fork =>
    rw [after, List.foldl_append]
    refine (get?_after_of_ne (mirrors_apply mirrors (.fork origin name)) elsewhere).trans ?_
    exact get?_apply_fork mirrors.tended got name
  case origin =>
    intro different elsewhere
    have others : ∀ act ∈ .fork origin name :: more, act.target ≠ origin :=
      List.forall_mem_cons.2 ⟨different, elsewhere⟩
    exact (frame origin _ others).trans got

/-- A collection, another one, a fork, and a later capture in the fork or its origin. -/
theorem after_apart_fork :
    (empty.after [.collect "base" [("host", .null)], .new "other"]).get? "base" =
        some (.ofList [("host", .null)]) ∧
      (empty.after [.collect "base" [("host", .null)], .fork "base" "left",
        .insert "base" "step" (.boolean true)]).get? "left" = some (.ofList [("host", .null)]) ∧
      (empty.after [.collect "base" [("host", .null)], .fork "base" "left",
        .insert "left" "step" (.boolean true)]).get? "base" = some (.ofList [("host", .null)]) := by
  obtain ⟨-, frame, forks⟩ := after_apart [.collect "base" [("host", .null)]]
  have got : (empty.after [.collect "base" [("host", .null)]]).get? "base" =
      some (.ofList [("host", .null)]) := rfl
  refine ⟨(frame "base" [.new "other"] ?_).trans got,
    (forks "base" "left" _ [.insert "base" "step" (.boolean true)] got).1 ?_,
    (forks "base" "left" _ [.insert "left" "step" (.boolean true)] got).2 ?_ ?_⟩
  all_goals decide

end Shelf

end TracePattern
