import TracePattern.Proofs.Keys

/-!
# Threads of an expression

What an expression means can be said without branches.  A thread is one way through the expression:
a list of obligations, each of which asks for an event.  It is known by the choices on the way, the
children of filters and the keys of groups.  An expression has matched once for every thread that
can be embedded in the events.

* `Condition.Steady`, `KeyExtractor.Clear`: conditions and keys that depend on the event alone;
* `Obligation`, `Choice`, `Thread`: the threads of an expression;
* `Thread.eq_of_choices`: a thread is known by its choices;
* `Embeds`: obligations at positions in a list of events;
* `embeds_cons_of_not`, `embeds_cons_of_holds`: an obligation may be met as early as possible.
-/

namespace TracePattern

/-! ### User code that reads the event alone -/

/-- Whether the condition holds of an event when nothing is captured. -/
def Condition.holds (c : Condition) (event : Record) : Bool :=
  match (c.evaluate event .empty).2.result with
  | .ok b => b
  | .error _ => false

/-- The condition, with its capture, gives an answer, whatever was captured before, and always the
same one. It may capture what it likes. -/
def Condition.Steady (c : Condition) (event : Record) : Prop :=
  ∀ captures, (c.evaluate event captures).2.result = .ok (c.holds event)

/-- The key of the event, if there is one, is equal to itself. -/
def KeyExtractor.Clear (k : KeyExtractor) (event : Record) : Prop :=
  ∀ value, k.key? event = some value → value.tag ≠ .foreign

/-- The events that a place in an expression is open to. -/
abbrev Guard := Record → Bool

namespace Guard

/-- Open to all events. -/
def free : Guard := fun _ => true

/-- Open to the events of which a condition holds as well. -/
def test (g : Guard) (c : Condition) : Guard := fun event => g event && c.holds event

/-- Open to the events that have a given key as well. -/
def keyed (g : Guard) (k : KeyExtractor) (value : Value) : Guard := fun event =>
  g event && (k.key? event).any fun v => v.equal value

end Guard

/-! ### Threads -/

/-- How an event may follow on the one before. -/
inductive Link
  | sameOrLater
  | later

/-- The link allows these positions one after the other. -/
def Link.allows : Link → ℕ → ℕ → Prop
  | .sameOrLater, i, j => i ≤ j
  | .later, i, j => i < j

/-- An event that is asked for. The link says how it follows on the event of the obligation before;
that of the first obligation means nothing. -/
structure Obligation where
  link : Link
  holds : Guard

/-- A choice on the way through an expression. -/
inductive Choice
  /-- The child of a filter. -/
  | child (index : ℕ)
  /-- The key of a group. -/
  | key (value : Value)

mutual
/-- The choices and the obligations of a thread of an expression, under a guard. -/
inductive Thread : Guard → Expr → Link → List Choice → List Obligation → Prop
  | event {guard : Guard} {c : Condition} {link : Link} :
    Thread guard (.event c) link [] [⟨link, guard.test c⟩]
  | eventThen {guard : Guard} {c : Condition} {children : List Expr} {link : Link}
    {choices : List Choice} {obligations : List Obligation}
    (inner : Threads guard children .sameOrLater choices obligations) :
    Thread guard (.eventThen c children) link choices (⟨link, guard.test c⟩ :: obligations)
  | sequence {guard : Guard} {children : List Expr} {link : Link} {choices : List Choice}
    {obligations : List Obligation} (inner : Threads guard children link choices obligations) :
    Thread guard (.sequence children) link choices obligations
  | filter {guard : Guard} {c : Condition} {children : List Expr} {child : Expr} {index : ℕ}
    {link : Link} {choices : List Choice} {obligations : List Obligation}
    (chosen : children[index]? = some child)
    (inner : Thread (guard.test c) child link choices obligations) :
    Thread guard (.filter c children) link (.child index :: choices) obligations
  | groupBy {guard : Guard} {key : KeyExtractor} {template : Expr} {value : Value} {link : Link}
    {choices : List Choice} {obligations : List Obligation}
    (inner : Thread (guard.keyed key value) template link choices obligations) :
    Thread guard (.groupBy key template) link (.key value :: choices) obligations
  | record {guard : Guard} {sink : ℕ} {expr : Expr} {link : Link} {choices : List Choice}
    {obligations : List Obligation} (inner : Thread guard expr link choices obligations) :
    Thread guard (.record sink expr) link choices obligations

/-- The same for expressions one after another. -/
inductive Threads : Guard → List Expr → Link → List Choice → List Obligation → Prop
  | nil {guard : Guard} {link : Link} : Threads guard [] link [] []
  | cons {guard : Guard} {e : Expr} {rest : List Expr} {link : Link}
    {choices choices' : List Choice} {obligations obligations' : List Obligation}
    (first : Thread guard e link choices obligations)
    (others : Threads guard rest .later choices' obligations') :
    Threads guard (e :: rest) link (choices ++ choices') (obligations ++ obligations')
end

mutual
/-- A thread is known by its choices: when two threads make the same choices as long as both go on,
they are the same. -/
theorem Thread.eq_of_choices {guard : Guard} {e : Expr} {link : Link}
    {choices choices' : List Choice}
    {obligations obligations' : List Obligation} (h : Thread guard e link choices obligations)
    (h' : Thread guard e link choices' obligations') {more more' : List Choice}
    (same : choices ++ more = choices' ++ more') :
    choices = choices' ∧ obligations = obligations' := by
  match e with
  | .event c =>
    cases h
    cases h'
    exact ⟨rfl, rfl⟩
  | .eventThen c children =>
    cases h with
    | eventThen inner =>
      cases h' with
      | eventThen inner' =>
        obtain ⟨rfl, rfl⟩ := Threads.eq_of_choices inner inner' same
        exact ⟨rfl, rfl⟩
  | .sequence children =>
    cases h with
    | sequence inner =>
      cases h' with
      | sequence inner' => exact Threads.eq_of_choices inner inner' same
  | .filter c children =>
    cases h with
    | filter chosen inner =>
      cases h' with
      | filter chosen' inner' =>
        -- The first choice says which child it is.
        rw [List.cons_append, List.cons_append, List.cons.injEq, Choice.child.injEq] at same
        obtain ⟨rfl, same⟩ := same
        rw [chosen] at chosen'
        cases chosen'
        have := List.mem_of_getElem? chosen
        obtain ⟨rfl, rfl⟩ := Thread.eq_of_choices inner inner' same
        exact ⟨rfl, rfl⟩
  | .groupBy key template =>
    cases h with
    | groupBy inner =>
      cases h' with
      | groupBy inner' =>
        rw [List.cons_append, List.cons_append, List.cons.injEq, Choice.key.injEq] at same
        obtain ⟨rfl, same⟩ := same
        obtain ⟨rfl, rfl⟩ := Thread.eq_of_choices inner inner' same
        exact ⟨rfl, rfl⟩
  | .record sink expr =>
    cases h with
    | record inner =>
      cases h' with
      | record inner' => exact Thread.eq_of_choices (e := expr) inner inner' same

theorem Threads.eq_of_choices {guard : Guard} {es : List Expr} {link : Link}
    {choices choices' : List Choice} {obligations obligations' : List Obligation}
    (h : Threads guard es link choices obligations)
    (h' : Threads guard es link choices' obligations') {more more' : List Choice}
    (same : choices ++ more = choices' ++ more') :
    choices = choices' ∧ obligations = obligations' := by
  match es with
  | [] =>
    cases h
    cases h'
    exact ⟨rfl, rfl⟩
  | e :: rest =>
    cases h with
    | cons first others =>
      cases h' with
      | cons first' others' =>
        rw [List.append_assoc, List.append_assoc] at same
        obtain ⟨rfl, rfl⟩ := Thread.eq_of_choices first first' same
        obtain ⟨rfl, rfl⟩ := Threads.eq_of_choices others others' (List.append_cancel_left same)
        exact ⟨rfl, rfl⟩
end

/-! ### Embeddings -/

/-- Each obligation is met by the event at its position, and the links allow the positions. -/
structure Placed (obligations : List Obligation) (events : List Record) (at_ : ℕ → ℕ) : Prop where
  met : ∀ i o, obligations[i]? = some o →
    ∃ event, events[at_ i]? = some event ∧ o.holds event = true
  linked : ∀ i o, obligations[i + 1]? = some o → o.link.allows (at_ i) (at_ (i + 1))

/-- The obligations can be met by the events. -/
def Embeds (obligations : List Obligation) (events : List Record) : Prop :=
  ∃ at_, Placed obligations events at_

section

variable {o : Obligation} {rest : List Obligation} {event : Record} {events : List Record}

theorem embeds_nil (events : List Record) : Embeds [] events :=
  ⟨id, by simp, by simp⟩

theorem not_embeds_cons : ¬ Embeds (o :: rest) [] := by
  rintro ⟨at_, placed⟩
  obtain ⟨event, hevent, -⟩ := placed.met 0 o rfl
  cases hevent

/-- The link of the first obligation means nothing. -/
theorem embeds_relink {link link' : Link} {guard : Guard} :
    Embeds (⟨link, guard⟩ :: rest) events ↔ Embeds (⟨link', guard⟩ :: rest) events := by
  have only : ∀ l l', Embeds (⟨l, guard⟩ :: rest) events → Embeds (⟨l', guard⟩ :: rest) events := by
    rintro l l' ⟨at_, met, linked⟩
    refine ⟨at_, fun i o ho => ?_, linked⟩
    cases i with
    | zero =>
      cases ho
      exact met 0 ⟨l, guard⟩ rfl
    | succ i => exact met (i + 1) o ho
  exact ⟨only link link', only link' link⟩

namespace Placed

variable {obligations : List Obligation} {at_ : ℕ → ℕ}

theorem tail (h : Placed (o :: rest) events at_) : Placed rest events fun i => at_ (i + 1) :=
  ⟨fun i => h.met (i + 1), fun i => h.linked (i + 1)⟩

/-- One obligation more in front. -/
theorem cons {i : ℕ} (h : Placed rest events at_) (found : events[i]? = some event)
    (met : o.holds event = true) (linked : ∀ o' ∈ rest.head?, o'.link.allows i (at_ 0)) :
    Placed (o :: rest) events fun j => Nat.casesOn j i at_ := by
  refine ⟨fun j o' ho => ?_, fun j o' ho => ?_⟩
  · cases j with
    | zero =>
      cases ho
      exact ⟨event, found, met⟩
    | succ j => exact h.met j o' ho
  · cases j with
    | zero => exact linked o' (by simpa [List.head?_eq_getElem?] using ho)
    | succ j => exact h.linked j o' ho

/-- Obligations are met in their order. -/
theorem le (h : Placed obligations events at_) {i : ℕ} (hi : i < obligations.length) :
    at_ 0 ≤ at_ i := by
  induction i with
  | zero => exact Nat.le_refl _
  | succ i ih =>
    have before := ih (by omega)
    have step := h.linked i obligations[i + 1] (by simp [hi])
    have : at_ i ≤ at_ (i + 1) := by
      cases hl : obligations[i + 1].link with
      | sameOrLater => simpa only [hl, Link.allows] using step
      | later => exact Nat.le_of_lt (by simpa only [hl, Link.allows] using step)
    omega

/-- One event more in front. -/
theorem shift (h : Placed obligations events at_) (event : Record) :
    Placed obligations (event :: events) fun i => at_ i + 1 := by
  refine ⟨fun i o ho => h.met i o ho, fun i o ho => ?_⟩
  have := h.linked i o ho
  cases hl : o.link with
  | sameOrLater =>
    simp only [hl, Link.allows] at this ⊢
    omega
  | later =>
    simp only [hl, Link.allows] at this ⊢
    omega

/-- If the first obligation is not met by the first event, none is. -/
theorem unshift (h : Placed (o :: rest) (event :: events) at_) (first : 0 < at_ 0) :
    Placed (o :: rest) events fun i => at_ i - 1 := by
  have pos : ∀ i o', (o :: rest)[i]? = some o' → 0 < at_ i := by
    intro i o' ho
    have := h.le (List.getElem?_eq_some_iff.1 ho).1
    omega
  refine ⟨fun i o' ho => ?_, fun i o' ho => ?_⟩
  · obtain ⟨e, he, met⟩ := h.met i o' ho
    have := pos i o' ho
    refine ⟨e, ?_, met⟩
    rw [← he, show at_ i = (at_ i - 1) + 1 by omega, List.getElem?_cons_succ]
    simp
  · have linked := h.linked i o' ho
    have next := pos (i + 1) o' ho
    have here : 0 < at_ i := by
      have hlt := (List.getElem?_eq_some_iff.1 ho).1
      exact pos i _ (List.getElem?_eq_getElem (by omega))
    cases hl : o'.link with
    | sameOrLater =>
      simp only [hl, Link.allows] at linked ⊢
      omega
    | later =>
      simp only [hl, Link.allows] at linked ⊢
      omega

end Placed

/-- An event that does not meet the first obligation is of no use. -/
theorem embeds_cons_of_not (h : o.holds event = false) :
    Embeds (o :: rest) (event :: events) ↔ Embeds (o :: rest) events := by
  constructor
  · rintro ⟨at_, placed⟩
    refine ⟨_, placed.unshift (Nat.pos_of_ne_zero fun hzero => ?_)⟩
    obtain ⟨e, he, met⟩ := placed.met 0 o rfl
    rw [hzero] at he
    cases he
    rw [h] at met
    cases met
  · rintro ⟨at_, placed⟩
    exact ⟨_, placed.shift event⟩

/-- **An event that meets the first obligation may be taken for it.** The next obligation is then
looked for from this event on, or after it. -/
theorem embeds_cons_of_holds (h : o.holds event = true) :
    Embeds (o :: rest) (event :: events) ↔
      match rest.head?.map Obligation.link with
      | none => True
      | some .sameOrLater => Embeds rest (event :: events)
      | some .later => Embeds rest events := by
  cases rest with
  | nil =>
    obtain ⟨at_, placed⟩ := embeds_nil (event :: events)
    exact iff_of_true ⟨_, placed.cons (i := 0) rfl h (by simp)⟩ trivial
  | cons o' rest =>
    cases hl : o'.link with
    | sameOrLater =>
      -- The next obligation may be met by the same event, which thus stays.
      simp only [List.head?_cons, Option.map_some, hl]
      constructor
      · rintro ⟨at_, placed⟩
        exact ⟨_, placed.tail⟩
      · rintro ⟨at_, placed⟩
        refine ⟨_, placed.cons (i := 0) rfl h ?_⟩
        simp [hl, Link.allows]
    | later =>
      simp only [List.head?_cons, Option.map_some, hl]
      constructor
      · rintro ⟨at_, placed⟩
        -- Without the first event everything comes one place earlier.
        have after : at_ 0 < at_ 1 := by simpa only [hl, Link.allows] using placed.linked 0 o' rfl
        exact ⟨_, placed.tail.unshift (Nat.zero_lt_of_lt after)⟩
      · rintro ⟨at_, placed⟩
        refine ⟨_, (placed.shift event).cons (i := 0) rfl h ?_⟩
        simp [hl, Link.allows]

end

end TracePattern
