import Mathlib.Data.List.Sort
import TracePattern.Proofs.Run
import TracePattern.Proofs.Turns

/-!
# The numbers of branches

Every number that a path gives to a branch belongs to exactly one branch, which either runs or has
ended, and the counters of the path agree with that.

* `Accounts`: the numbers of a part of a step, before and after;
* `step_accounts`, `runAll_accounts`: a step uses up its branch and the numbers it gives;
* `Path.Ledger`: the numbers and counters of a path;
* `Path.ledger_after`: they are in order all the time.
-/

namespace TracePattern

open scoped List

/-- The numbers in what comes out of a step. -/
def Effects.ids (e : Effects) : List ℕ := e.running.map Branch.id ++ e.finished.map Finish.id

/-- An ended branch that says how it ended: with an error if and only if it failed. -/
def Finish.Settled (f : Finish) : Prop :=
  f.outcome ≠ .running ∧ (f.error.isSome ↔ f.outcome = .failed)

/-- Of branches of some numbers, and of those that were given since, each runs, has ended, or is still
to come. -/
structure Accounts (S : Scope) (before : Tally) (ids : List ℕ) (later : List Due)
    (done : Effects × Tally) : Prop where
  numbers : ∃ n, done.2.nextId = before.nextId + n ∧ done.2.spawned = before.spawned + n ∧
    (done.1.ids ++ later.map fun d => d.branch.id).Perm (ids ++ List.range' before.nextId n)
  settled : ∀ f ∈ done.1.finished, f.Settled
  within : ∀ b ∈ done.1.running, b.Within S
  coming : ∀ d ∈ later, d.branch.Within S

namespace Accounts

variable {S : Scope} {t before : Tally} {ids : List ℕ} {d : Due} {behind later : List Due}
  {x : Effects × Tally}

/-- Notes and extracted keys do not count. -/
theorem noted (keys : Keys) (h : Accounts S { t with keys } ids later x) (notes : List Note) :
    Accounts S t ids later (.note notes ++ x.1, x.2) :=
  ⟨h.numbers, h.settled, h.within, h.coming⟩

/-- The turn of a branch uses up its number, and those that it gives. -/
theorem proceed {turn : Turn} (h : Accounts S before ids (d :: later) x)
    (part : Accounts S x.2 [d.branch.id] behind (turn x.2)) :
    Accounts S before ids (behind ++ later) (proceed x turn) := by
  obtain ⟨⟨n, next, spawned, perm⟩, settled, within, coming⟩ := h
  obtain ⟨⟨m, next', spawned', perm'⟩, settled', within', coming'⟩ := part
  refine ⟨⟨n + m, ?_, ?_, ?_⟩, List.forall_mem_append.2 ⟨settled, settled'⟩,
    List.forall_mem_append.2 ⟨within, within'⟩,
    List.forall_mem_append.2 ⟨coming', (List.forall_mem_cons.1 coming).2⟩⟩
  · show (turn x.2).2.nextId = _
    omega
  · show (turn x.2).2.spawned = _
    omega
  · rw [next] at perm'
    -- The same numbers in another order: first those of the turn and of the branches behind it.
    have numbers : ((TracePattern.proceed x turn).1.ids ++
        (behind ++ later).map fun d => d.branch.id).Perm
          ((turn x.2).1.ids ++ (behind.map fun d => d.branch.id) ++
            (x.1.ids ++ later.map fun d => d.branch.id)) := by
      simp only [TracePattern.proceed, Effects.ids, Effects.running_append,
        Effects.finished_append, List.map_append]
      grind
    rw [← List.range'_append_1]
    refine numbers.trans ((perm'.append_right _).trans ?_)
    rw [List.map_cons] at perm
    have moved := List.perm_middle.symm.trans perm
    grind

end Accounts

/-! ### Steps -/

section Steps

variable {S : Scope}

theorem complete_accounts (path : ℕ) {b : Branch} (hb : b.Within S) (t : Tally) :
    Accounts S t [b.id] [] (b.complete path t) := by
  unfold Branch.complete
  dsimp only
  split
  · refine ⟨⟨0, rfl, rfl, by simp [Effects.ids, Branch.finish]⟩, ?_, by simp, List.forall_mem_nil _⟩
    intro f hf
    obtain rfl : f = _ := by simpa using hf
    simp [Finish.Settled, Branch.finish]
  · rename_i outer children index hnext
    obtain ⟨houter, hchildren, hlt⟩ := within_unwind hb.1 hnext
    refine ⟨⟨(startsAt children index).length - 1, ?_, ?_, ?_⟩, by simp,
      Branch.within_carryOn houter hchildren, List.forall_mem_nil _⟩
    · simp only [Tally.allocate, Branch.length_carryOn]
    · simp only [Tally.allocate, Branch.length_carryOn]
    · have ids := Branch.ids_carryOn b outer t.nextId (startsAt_ne_nil hchildren hlt)
      simp [Effects.ids, ids]

/-- **The numbers of a branch and of those that follow from it.** -/
theorem alone_accounts (path : ℕ) (event : Record) {d : Due} (within : d.branch.Within S)
    (t : Tally) :
    Accounts S t [d.branch.id] (d.behind (Due.look event) t)
      (d.alone (Due.look event) path t) := by
  have seen_within : (d.look event t.keys).branch.Within S := by
    simpa [Branch.Within, Due.look] using within
  have number : (d.look event t.keys).branch.id = d.branch.id := d.branch.look_id ..
  have frames : (d.look event t.keys).branch.frames = d.branch.frames := d.branch.look_frames ..
  have cursor : (d.look event t.keys).branch.cursor = d.branch.cursor := d.branch.look_cursor ..
  have parts : (d.look event t.keys).move.From d.branch.cursor := d.branch.from_look ..
  have coming : ∀ c ∈ d.behind (Due.look event) t, c.branch.Within S := by
    intro c mem
    obtain ⟨f, hf, rfl⟩ := List.mem_map.1 mem
    exact Due.within_of_mem_followers parts within hf
  unfold Due.alone
  refine Accounts.noted (d.look event t.keys).keys ?_ _
  unfold Due.behind at coming ⊢
  rw [← number, ← frames] at *
  rw [← cursor] at parts
  generalize d.look event t.keys = seen at *
  obtain ⟨b, keys, notes, move⟩ := seen
  dsimp only at *
  unfold Look.act Look.followers at *
  cases move with
  | stay =>
    exact ⟨⟨0, rfl, rfl, by simp [Effects.ids, Effects.run]⟩, by simp [Effects.run],
      by simpa [Effects.run] using seen_within, coming⟩
  | fail e =>
    refine ⟨⟨0, rfl, rfl, by simp [Effects.ids, Branch.fail, Branch.finish]⟩, ?_,
      by simp [Branch.fail], coming⟩
    intro f hf
    obtain rfl : f = _ := by simpa [Branch.fail] using hf
    simp [Finish.Settled, Branch.finish]
  | leave => exact complete_accounts path seen_within _
  | descend children =>
    obtain ⟨c, waits⟩ := parts
    have inside := seen_within.2
    rw [waits] at inside
    have started := startsAt_ne_nil inside.2.2 (List.length_pos_iff.2 inside.2.1)
    have ids := b.ids_carryOn b.frames t.nextId started
    dsimp only at coming ⊢
    refine ⟨⟨(startsAt children 0).length - 1, ?_, ?_, ?_⟩, by simp [Effects.note],
      by simp [Effects.note], coming⟩
    · simp only [Tally.allocate, Branch.length_carryOn]
    · simp only [Tally.allocate, Branch.length_carryOn]
    · simp [Effects.ids, Effects.note, Function.comp_def, ids]
  | group key template value known =>
    obtain ⟨before, waits⟩ := parts
    have inside := seen_within.2
    rw [waits] at inside
    have ids := Branch.ids_launch (b.captures.insert key.name value)
      (b.frames ++ [.route key value]) template.starts t.nextId
    have router : Branch.Within S { b with cursor := .router key template known } :=
      ⟨seen_within.1, inside⟩
    dsimp only at coming ⊢
    refine ⟨⟨template.starts.length, ?_, ?_, ?_⟩, by simp [Effects.run, Effects.note],
      by simpa [Effects.run, Effects.note] using router, coming⟩
    · simp only [Tally.allocate, Branch.length_launch]
    · simp only [Tally.allocate, Branch.length_launch]
    · simp [Effects.ids, Effects.run, Effects.note, Function.comp_def, ids]

/-- **Steps use up the numbers of their branches and those that they give.** -/
theorem runAll_accounts {bs : List Branch} (within : ∀ b ∈ bs, b.Within S) (path : ℕ)
    (event : Record) (t : Tally) :
    Accounts S t (bs.map Branch.id) [] (runAll (bs.map (step path event 0)) t) := by
  have first : Accounts S t (bs.map Branch.id) (bs.map (⟨·, 0⟩)) (.none, t) :=
    ⟨⟨0, rfl, rfl, by simp [Effects.ids, Effects.none, Function.comp_def]⟩,
      List.forall_mem_nil _, List.forall_mem_nil _, by simpa using within⟩
  have steps := (step_turns path event).induction (fun d later x h =>
    h.proceed (alone_accounts path event (h.coming d List.mem_cons_self) x.2)) first
  rwa [map_due] at steps

end Steps

/-! ### Paths -/

namespace Path

/-- The numbers and counters of a path are in order. -/
structure Ledger (p : Path) : Prop where
  /-- Each number given so far belongs to one branch, running or ended. -/
  numbers : (p.running.map Branch.id ++ p.finished.map Finish.id).Perm (List.range p.nextId)
  /-- The running branches stand in the order of their numbers. -/
  ascending : p.running.Pairwise fun a b => a.id < b.id
  spawned : p.stats.branchesSpawned = p.nextId
  balance : p.stats.branchesSpawned = p.running.length + p.stats.succeeded + p.stats.failed
  succeeded : p.stats.succeeded = count .successful p.finished
  failed : p.stats.failed = count .failed p.finished
  settled : ∀ f ∈ p.finished, f.Settled

theorem count_append (o : Outcome) (as bs : List Finish) :
    count o (as ++ bs) = count o as + count o bs := by simp [count]

/-- A settled result is a success or a failure. -/
theorem count_settled {fs : List Finish} (h : ∀ f ∈ fs, f.Settled) :
    count .successful fs + count .failed fs = fs.length := by
  induction fs with
  | nil => rfl
  | cons f rest ih =>
    have hrest := ih fun g hg => h g (List.mem_cons_of_mem _ hg)
    have hf := (h f List.mem_cons_self).1
    rw [← List.singleton_append, count_append, count_append, List.length_append]
    cases ho : f.outcome with
    | running => exact absurd ho hf
    | successful =>
      have hs : count .successful [f] = 1 := by simp [count, ho]
      have hx : count .failed [f] = 0 := by simp [count, ho]
      rw [hs, hx, List.length_singleton]
      omega
    | failed =>
      have hs : count .successful [f] = 0 := by simp [count, ho]
      have hx : count .failed [f] = 1 := by simp [count, ho]
      rw [hs, hx, List.length_singleton]
      omega

/-- The whole turn accounts for all running branches. -/
theorem turn_accounts {S : Scope} {p : Path} (h : ∀ b ∈ p.running, b.Within S) (e : Record) :
    Accounts S ⟨p.nextId, 0, []⟩ (p.running.map Branch.id) [] (p.turn e) :=
  runAll_accounts h p.id e _

/-- After the turn there are the numbers from before it and new ones. -/
theorem turn_ids {S : Scope} {p : Path} (h : ∀ b ∈ p.running, b.Within S) (e : Record) :
    ∃ n, (p.turn e).2.nextId = p.nextId + n ∧ (p.turn e).2.spawned = n ∧
      (p.turn e).1.ids.Perm (p.running.map Branch.id ++ List.range' p.nextId n) := by
  obtain ⟨n, next, spawned, numbers⟩ := (turn_accounts h e).numbers
  rw [List.map_nil, List.append_nil] at numbers
  exact ⟨n, next, spawned.trans (Nat.zero_add n), numbers⟩

theorem within_onEvent {S : Scope} {p : Path} (h : ∀ b ∈ p.running, b.Within S)
    (open_ : p.closed = false) (e : Record) : ∀ b ∈ (p.onEvent e).1.running, b.Within S := by
  intro b hb
  exact (turn_accounts h e).within b ((perm_running_onEvent open_ e).mem_iff.1 hb)

theorem within_apply {S : Scope} {p : Path} (h : ∀ b ∈ p.running, b.Within S) (act : Act) :
    ∀ b ∈ (p.apply act).running, b.Within S := by
  cases act with
  | close => exact h
  | event e =>
    show ∀ b ∈ (p.onEvent e).1.running, b.Within S
    cases closed : p.closed with
    | true => rwa [onEvent_of_closed closed]
    | false => exact within_onEvent h closed e

/-- **The running branches of a path stand in its expression.** -/
theorem within_after {S : Scope} {id : ℕ} {name : Option String} {tree : Expr} {initial : Captures}
    (h : tree.Within S) (hs : List Act) :
    ∀ b ∈ ((start id name tree initial).after hs).running, b.Within S :=
  after_induction (I := fun p => ∀ b ∈ p.running, b.Within S)
    (Branch.within_launch (by simp) h) (fun _ e hq open_ => within_onEvent hq open_ e)
    (fun _ hq => hq) hs

/-- A running branch is known by its number. -/
theorem Ledger.eq_of_id {p : Path} (h : p.Ledger) {a b : Branch} (ha : a ∈ p.running)
    (hb : b ∈ p.running) (hid : a.id = b.id) : a = b := by
  have distinct : (p.running.map Branch.id).Nodup :=
    List.pairwise_map.2 (h.ascending.imp fun hab => Nat.ne_of_lt hab)
  exact List.inj_on_of_nodup_map distinct ha hb hid

/-- The numbers of running branches have been given. -/
theorem Ledger.id_lt {p : Path} (h : p.Ledger) {b : Branch} (hb : b ∈ p.running) :
    b.id < p.nextId := by
  have hmem : b.id ∈ p.running.map Branch.id ++ p.finished.map Finish.id :=
    List.mem_append_left _ (List.mem_map_of_mem hb)
  exact List.mem_range.1 (h.numbers.mem_iff.1 hmem)

/-- The numbers of ended branches have been given. -/
theorem Ledger.finished_id_lt {p : Path} (h : p.Ledger) {f : Finish} (hf : f ∈ p.finished) :
    f.id < p.nextId := by
  have hmem : f.id ∈ p.running.map Branch.id ++ p.finished.map Finish.id :=
    List.mem_append_right _ (List.mem_map_of_mem hf)
  exact List.mem_range.1 (h.numbers.mem_iff.1 hmem)

theorem ledger_start (id : ℕ) (name : Option String) (tree : Expr) (initial : Captures) :
    (start id name tree initial).Ledger where
  numbers := by
    simp only [start, Branch.ids_launch, Branch.length_launch, List.map_nil, List.append_nil]
    rw [List.range_eq_range']
  ascending := by
    have h := List.pairwise_lt_range' (s := 0) (n := tree.starts.length) 1
    rw [← Branch.ids_launch initial [] tree.starts 0] at h
    exact List.pairwise_map.1 h
  spawned := rfl
  balance := by simp [start]
  succeeded := rfl
  failed := rfl
  settled := by simp [start]

/-- An event keeps the numbers and counters in order. -/
theorem Ledger.onEvent {S : Scope} {p : Path} (h : p.Ledger) (hw : ∀ b ∈ p.running, b.Within S)
    (open_ : p.closed = false) (e : Record) : (p.onEvent e).1.Ledger := by
  obtain ⟨n, hnext, hspawned, hids⟩ := turn_ids hw e
  have hsettled := (turn_accounts hw e).settled
  have hperm := perm_running_onEvent open_ e
  have numbers : ((p.onEvent e).1.running.map Branch.id ++
      (p.onEvent e).1.finished.map Finish.id).Perm (List.range (p.onEvent e).1.nextId) := by
    rw [finished_onEvent open_, nextId_onEvent open_, hnext, List.map_append]
    calc (p.onEvent e).1.running.map Branch.id ++
          (p.finished.map Finish.id ++ (p.turn e).1.finished.map Finish.id)
      _ ~ (p.turn e).1.running.map Branch.id ++
          ((p.turn e).1.finished.map Finish.id ++ p.finished.map Finish.id) :=
        (hperm.map _).append List.perm_append_comm
      _ = (p.turn e).1.ids ++ p.finished.map Finish.id := by simp [Effects.ids]
      _ ~ p.running.map Branch.id ++ List.range' p.nextId n ++ p.finished.map Finish.id :=
        hids.append_right _
      _ ~ p.running.map Branch.id ++ p.finished.map Finish.id ++ List.range' p.nextId n := by
        rw [List.append_assoc, List.append_assoc]
        exact List.perm_append_comm.append_left _
      _ ~ List.range p.nextId ++ List.range' p.nextId n := h.numbers.append_right _
      _ = List.range (p.nextId + n) := by
        rw [List.range_eq_range', List.range_eq_range', ← List.range'_append_1]
        simp
  have settled : ∀ f ∈ (p.onEvent e).1.finished, f.Settled := by
    rw [finished_onEvent open_]
    intro f hf
    rcases List.mem_append.1 hf with hf | hf
    · exact h.settled f hf
    · exact hsettled f hf
  have succeeded : (p.onEvent e).1.stats.succeeded =
      count .successful (p.onEvent e).1.finished := by
    rw [stats_onEvent open_, finished_onEvent open_, count_append, ← h.succeeded]
  have failed : (p.onEvent e).1.stats.failed = count .failed (p.onEvent e).1.finished := by
    rw [stats_onEvent open_, finished_onEvent open_, count_append, ← h.failed]
  have spawned : (p.onEvent e).1.stats.branchesSpawned = (p.onEvent e).1.nextId := by
    rw [stats_onEvent open_, nextId_onEvent open_, hnext]
    dsimp only
    rw [hspawned, h.spawned]
  refine ⟨numbers, ?_, spawned, ?_, succeeded, failed, settled⟩
  · have sorted := sorted_running_onEvent open_ e
    have distinct : (p.onEvent e).1.running.Pairwise fun a b => a.id ≠ b.id := by
      have := (numbers.nodup_iff.2 List.nodup_range).of_append_left
      exact List.pairwise_map.1 this
    exact (sorted.and distinct).imp fun hab => by omega
  · have := numbers.length_eq
    simp only [List.length_append, List.length_map, List.length_range] at this
    have := count_settled settled
    omega

theorem ledger_of_within {S : Scope} {tree : Expr} (h : tree.Within S) (id : ℕ)
    (name : Option String) (initial : Captures) (hs : List Act) :
    ((start id name tree initial).after hs).Ledger := by
  have both := after_induction (I := fun p => p.Ledger ∧ ∀ b ∈ p.running, b.Within S)
    (p := start id name tree initial) ⟨ledger_start id name tree initial, within_after h []⟩
    (fun q e hq open_ => ⟨hq.1.onEvent hq.2 open_ e, within_onEvent hq.2 open_ e⟩)
    (fun q hq => ⟨{ hq.1 with }, hq.2⟩) hs
  exact both.1

/-- **No branch of a path is lost, doubled or miscounted.** Its numbers and counters are in order
all its life, it counts the events that came before its closing, and earlier results stay. -/
theorem ledger_after {tree : Expr} (valid : tree.defect? = none) (id : ℕ) (name : Option String)
    (initial : Captures) (hs : List Act) :
    let p := (start id name tree initial).after hs
    p.Ledger ∧ p.stats.eventsApplied = Act.applied hs ∧
      ∀ h, p.finished <+: (p.apply h).finished := by
  have h : tree.Within .all := Expr.within_of_valid valid (fun _ _ => trivial) fun _ _ => trivial
  refine ⟨ledger_of_within h id name initial hs, ?_, finished_prefix_apply _⟩
  rw [eventsApplied_after]
  simp [start]

/-- Two groups, a filter whose condition stops with an error, and an event after the closing. -/
theorem ledger_after_two_groups :
    let stops : Condition := .onEvent fun event =>
      if event.message = "stop" then .error (.evaluation "stopped") else .pure true
    let tree : Expr := .groupBy ⟨0, "host", .property "host"⟩
      (.eventThen .always [.filter stops [.event .always, .event (.propertyEquals "n" .null)]])
    let event (host message : String) : Act :=
      .event ⟨"", "", message, .epoch, [.string "host" host]⟩
    tree.defect? = none ∧
      ((start 1 none tree .empty).after
        [event "a" "", event "b" "", event "b" "stop", .close, event "c" ""]).Ledger := by
  refine ⟨by decide, ?_⟩
  exact (ledger_after (by decide) 1 none .empty _).1

end Path

end TracePattern
