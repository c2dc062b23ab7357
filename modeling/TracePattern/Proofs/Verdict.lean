import TracePattern.Assertion
import TracePattern.Proofs.Ledger

/-!
# The assertion of a success

To assert that a branch succeeded with a captured value is to ask for the outcome of the first
result with that value.  So a success is missed behind a failure, and the answer is final once there
is a result with the value.

* `Path.First`: the first result with a value;
* `Path.first_after`: it stays the first;
* `Path.checkSucceededWith_exact`: the assertion;
* `Path.checkSucceededWith_failed_first`: a success behind a failure.
-/

namespace TracePattern

namespace Path

variable {p : Path} {key : String} {value : Value} {f g : Finish}

/-- The result is the first that captured the value. -/
def First (p : Path) (key : String) (value : Value) (f : Finish) : Prop :=
  ∃ before after, p.finished = before ++ f :: after ∧ f.captures.holds key value = true ∧
    ∀ g ∈ before, g.captures.holds key value = false

theorem findFinished?_eq_some_iff : p.findFinished? key value = some f ↔ p.First key value f := by
  rw [findFinished?, List.find?_eq_some_iff_append]
  constructor
  · rintro ⟨holds, before, after, split, others⟩
    exact ⟨before, after, split, holds, fun g mem => by simpa using others g mem⟩
  · rintro ⟨before, after, split, holds, others⟩
    exact ⟨holds, before, after, split, fun g mem => by simpa using others g mem⟩

theorem findFinished?_eq_none_iff :
    p.findFinished? key value = none ↔ ∀ f ∈ p.finished, f.captures.holds key value = false := by
  simp [findFinished?]

theorem First.mem (h : p.First key value f) : f ∈ p.finished := by
  obtain ⟨before, after, split, -⟩ := h
  exact split ▸ List.mem_append_cons_self

theorem First.holds (h : p.First key value f) : f.captures.holds key value = true := by
  obtain ⟨before, after, -, holds, -⟩ := h
  exact holds

theorem First.not_missing (h : p.First key value f) :
    ¬ ∀ g ∈ p.finished, g.captures.holds key value = false := by
  intro missing
  have holds := h.holds
  rw [missing f h.mem] at holds
  cases holds

/-- There is at most one first result. -/
theorem First.unique (h : p.First key value f) (h' : p.First key value g) : f = g :=
  Option.some.inj ((findFinished?_eq_some_iff.2 h).symm.trans (findFinished?_eq_some_iff.2 h'))

theorem exists_first (mem : f ∈ p.finished) (holds : f.captures.holds key value = true) :
    ∃ g, p.First key value g := by
  cases found : p.findFinished? key value with
  | none =>
    have missing := findFinished?_eq_none_iff.1 found f mem
    rw [holds] at missing
    cases missing
  | some g => exact ⟨g, findFinished?_eq_some_iff.1 found⟩

/-- Later results come behind the first. -/
theorem first_apply (h : p.First key value f) (act : Act) : (p.apply act).First key value f := by
  obtain ⟨before, after, split, holds, others⟩ := h
  obtain ⟨new, more⟩ := finished_prefix_apply p act
  exact ⟨before, after ++ new, by rw [← more, split, List.append_assoc, List.cons_append],
    holds, others⟩

theorem first_after (h : p.First key value f) (acts : List Act) :
    (p.after acts).First key value f := by
  induction acts generalizing p with
  | nil => exact h
  | cons act acts ih => exact ih (first_apply h act)

/-! ### The assertion -/

theorem checkSucceededWith_of_first (h : p.First key value f) :
    p.checkSucceededWith key value =
      if f.outcome = .successful then .ok f
      else .error ("branch with " ++ binding key value ++ " finished as " ++ f.outcome.name) := by
  rw [checkSucceededWith, findFinished?_eq_some_iff.2 h]

theorem checkSucceededWith_of_none (h : ∀ f ∈ p.finished, f.captures.holds key value = false) :
    p.checkSucceededWith key value =
      .error ("expected a finished branch with " ++ binding key value ++ ", got " ++
        p.describe) := by
  rw [checkSucceededWith, findFinished?_eq_none_iff.2 h]

theorem checkSucceededWith_eq_ok_iff :
    p.checkSucceededWith key value = .ok f ↔ p.First key value f ∧ f.outcome = .successful := by
  cases found : p.findFinished? key value with
  | none =>
    have missing := findFinished?_eq_none_iff.1 found
    rw [checkSucceededWith_of_none missing]
    exact iff_of_false (by simp) fun first => first.1.not_missing missing
  | some g =>
    have first := findFinished?_eq_some_iff.1 found
    rw [checkSucceededWith_of_first first]
    constructor
    · intro passed
      split at passed
      · rename_i successful
        cases passed
        exact ⟨first, successful⟩
      · cases passed
    · rintro ⟨first', successful⟩
      obtain rfl := first.unique first'
      rw [if_pos successful]

theorem checkSucceededWith_eq_error_iff (settled : ∀ f ∈ p.finished, f.Settled) {text : String} :
    p.checkSucceededWith key value = .error text ↔
      (text = "branch with " ++ binding key value ++ " finished as " ++ Outcome.failed.name ∧
        ∃ f, p.First key value f ∧ f.outcome = .failed) ∨
      (text = "expected a finished branch with " ++ binding key value ++ ", got " ++ p.describe ∧
        ∀ f ∈ p.finished, f.captures.holds key value = false) := by
  cases found : p.findFinished? key value with
  | none =>
    have missing := findFinished?_eq_none_iff.1 found
    rw [checkSucceededWith_of_none missing, Except.error.injEq, eq_comm]
    constructor
    · exact fun same => .inr ⟨same, missing⟩
    · rintro (⟨-, f, first, -⟩ | ⟨same, -⟩)
      · exact absurd missing first.not_missing
      · exact same
  | some g =>
    have first := findFinished?_eq_some_iff.1 found
    rw [checkSucceededWith_of_first first]
    cases outcome : g.outcome with
    | running => exact absurd outcome (settled g first.mem).1
    | successful =>
      refine iff_of_false (by simp) ?_
      rintro (⟨-, f, first', failed⟩ | ⟨-, missing⟩)
      · rw [← first.unique first', outcome] at failed
        cases failed
      · exact first.not_missing missing
    | failed =>
      rw [if_neg (by simp), Except.error.injEq, eq_comm]
      constructor
      · exact fun same => .inl ⟨same, g, first, outcome⟩
      · rintro (⟨same, -⟩ | ⟨-, missing⟩)
        · exact same
        · exact absurd missing first.not_missing

/-- Whether there is a success can be told from the assertion, unless the first result with the
value failed and another one succeeded. -/
theorem passed_iff_success_iff (settled : ∀ f ∈ p.finished, f.Settled) :
    ((∃ f, p.checkSucceededWith key value = .ok f) ↔
        ∃ f ∈ p.finished, f.outcome = .successful ∧ f.captures.holds key value = true) ↔
      ∀ f, p.First key value f → f.outcome = .failed →
        ∀ g ∈ p.finished, g.captures.holds key value = true → g.outcome = .failed := by
  simp only [checkSucceededWith_eq_ok_iff]
  constructor
  · intro same f first failed g mem holds
    cases outcome : g.outcome with
    | running => exact absurd outcome (settled g mem).1
    | successful =>
      obtain ⟨f', first', successful⟩ := same.2 ⟨g, mem, outcome, holds⟩
      rw [first'.unique first, failed] at successful
      cases successful
    | failed => rfl
  · intro failures
    constructor
    · rintro ⟨f, first, successful⟩
      exact ⟨f, first.mem, successful, first.holds⟩
    · rintro ⟨g, mem, successful, holds⟩
      obtain ⟨f, first⟩ := exists_first mem holds
      cases outcome : f.outcome with
      | running => exact absurd outcome (settled f first.mem).1
      | successful => exact ⟨f, first, outcome⟩
      | failed =>
        rw [failures f first outcome g mem holds] at successful
        cases successful

/-- **The assertion of a success.** It passes with the first result that captured the value if this
one is successful. Otherwise it says that the result failed, or that there is none. So it misses a
success if and only if a failure with the value came first, and it says the same for good. -/
theorem checkSucceededWith_exact {tree : Expr} (valid : tree.defect? = none) (id : ℕ)
    (name : Option String) (initial : Captures) (acts : List Act) (key : String) (value : Value) :
    let p := (start id name tree initial).after acts
    (∀ f, p.checkSucceededWith key value = .ok f ↔ p.First key value f ∧ f.outcome = .successful) ∧
    (∀ text, p.checkSucceededWith key value = .error text ↔
      (text = "branch with " ++ binding key value ++ " finished as " ++ Outcome.failed.name ∧
        ∃ f, p.First key value f ∧ f.outcome = .failed) ∨
      (text = "expected a finished branch with " ++ binding key value ++ ", got " ++ p.describe ∧
        ∀ f ∈ p.finished, f.captures.holds key value = false)) ∧
    (((∃ f, p.checkSucceededWith key value = .ok f) ↔
        ∃ f ∈ p.finished, f.outcome = .successful ∧ f.captures.holds key value = true) ↔
      ∀ f, p.First key value f → f.outcome = .failed →
        ∀ g ∈ p.finished, g.captures.holds key value = true → g.outcome = .failed) ∧
    ∀ f more, p.First key value f →
      (p.after more).checkSucceededWith key value = p.checkSucceededWith key value := by
  intro p
  have within : tree.Within .all :=
    Expr.within_of_valid valid (fun _ _ => trivial) fun _ _ => trivial
  have settled := (ledger_of_within within id name initial acts).settled
  refine ⟨fun f => checkSucceededWith_eq_ok_iff,
    fun text => checkSucceededWith_eq_error_iff settled, passed_iff_success_iff settled,
    fun f more first => ?_⟩
  rw [checkSucceededWith_of_first first, checkSucceededWith_of_first (first_after first more)]

/-- A success in front of a failure, and the closing. -/
theorem checkSucceededWith_exact_success_first :
    let stops : Condition := .onEvent fun _ => .error (.evaluation "boom")
    let tree : Expr := .filter .always [.event .always, .event stops]
    let initial := Captures.empty.insert "host" (.string "a")
    let p := (start 1 none tree initial).after [.event ⟨"", "", "", .epoch, []⟩]
    let f : Finish := ⟨0, .successful, initial, "filter(true) > match(true)", none⟩
    tree.defect? = none ∧ p.First "host" (.string "a") f ∧
      p.checkSucceededWith "host" (.string "a") = .ok f ∧
      (p.after [.close]).checkSucceededWith "host" (.string "a") =
        p.checkSucceededWith "host" (.string "a") := by
  intro stops tree initial p f
  have valid : tree.defect? = none := by decide
  have finished : p.finished = [f, ⟨1, .failed, initial, "filter(true) > match(<predicate>)",
      some (.evaluation "boom")⟩] := by decide +kernel
  have first : p.First "host" (.string "a") f := ⟨[], _, finished, by decide, by simp⟩
  obtain ⟨passed, -, -, final⟩ := checkSucceededWith_exact valid 1 none initial
    [.event ⟨"", "", "", .epoch, []⟩] "host" (.string "a")
  exact ⟨valid, first, (passed f).2 ⟨first, rfl⟩, final f [.close] first⟩

/-- Two siblings share the captured value. The first of them fails, and the success of the other one
is missed. -/
theorem checkSucceededWith_failed_first :
    let stops : Condition := .onEvent fun _ => .error (.evaluation "boom")
    let tree : Expr := .filter .always [.event stops, .event .always]
    let initial := Captures.empty.insert "host" (.string "a")
    let p := (start 1 none tree initial).after [.event ⟨"", "", "", .epoch, []⟩]
    tree.defect? = none ∧
      p.checkSucceededWith "host" (.string "a") =
        .error "branch with host = \"a\" finished as failed" ∧
      ∃ f ∈ p.finished, f.outcome = .successful ∧
        f.captures.holds "host" (.string "a") = true := by
  intro stops tree initial p
  have finished : p.finished = [
      ⟨0, .failed, initial, "filter(true) > match(<predicate>)", some (.evaluation "boom")⟩,
      ⟨1, .successful, initial, "filter(true) > match(true)", none⟩] := by decide +kernel
  have holds : initial.holds "host" (.string "a") = true := by decide
  refine ⟨by decide, ?check, _, finished ▸ List.mem_cons_of_mem _ List.mem_cons_self, rfl, holds⟩
  case check =>
    rw [checkSucceededWith_of_first ⟨[], _, finished, holds, by simp⟩]
    rfl

end Path

end TracePattern
