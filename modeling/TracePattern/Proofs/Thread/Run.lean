import TracePattern.Proofs.Thread.Count

/-!
# Matches of a path

After any events a path has as many results as there are threads of its expression that can be
embedded in these events, and so an event brings as many results as there are threads that can be
embedded by it and not before.

* `Expr.threadsIn`: the threads that can be embedded in some events;
* `Path.ahead`: the number of threads before the running branches;
* `Path.ahead_onEvent`, `Path.ahead_onEvents`: what one event and a whole run do to it;
* `Path.matches_threads`: the number of results and the threads.
-/

namespace TracePattern

variable {S : Scope} {events : List Record}

/-! ### Threads of an expression -/

/-- The threads of an expression, by their choices, that can be embedded in some events. -/
def Expr.threadsIn (e : Expr) (events : List Record) : Set (List Choice) :=
  {choices | ∃ obligations, Thread .free e .later choices obligations ∧ Embeds obligations events}

/-- With nothing around it, the threads of an expression are those before its starts. -/
theorem Expr.encard_threadsIn {e : Expr} (h : e.Within S) (events : List Record) :
    (e.threadsIn events).encard = countStarts .top .later events e.starts := by
  rw [← Expr.count_bundle h, Bundle.count]
  congr 1
  ext choices
  refine exists_congr fun obligations => and_congr_left fun _ => ?_
  rw [Expr.bundle_iff]
  constructor
  · intro thread
    have alone : Follows _ Context.top.rest (choices ++ []) (obligations ++ []) :=
      .mk thread ⟨rfl, rfl⟩
    rwa [List.append_nil, List.append_nil] at alone
  · rintro ⟨thread, rfl, rfl⟩
    rw [List.append_nil, List.append_nil]
    exact thread

theorem Embeds.append {obligations : List Obligation} (h : Embeds obligations events)
    (more : List Record) : Embeds obligations (events ++ more) := by
  obtain ⟨at_, met, linked⟩ := h
  refine ⟨at_, fun i o ho => ?_, linked⟩
  obtain ⟨event, hevent, holds⟩ := met i o ho
  exact ⟨event, List.getElem?_append_left (List.getElem?_eq_some_iff.1 hevent).1 ▸ hevent, holds⟩

/-- Further events take no thread away. -/
theorem Expr.threadsIn_take (e : Expr) (events : List Record) (n : ℕ) :
    e.threadsIn (events.take n) ⊆ e.threadsIn (events.take (n + 1)) := by
  rintro choices ⟨obligations, thread, embeds⟩
  refine ⟨obligations, thread, ?_⟩
  rw [List.take_add_one]
  exact embeds.append _

/-! ### Paths -/

namespace Path

/-- The number of threads before the running branches that can be embedded in some events. -/
noncomputable def ahead (p : Path) (events : List Record) : ℕ∞ :=
  countAll (p.running.map Branch.strand) events

theorem ahead_start {tree : Expr} (h : tree.Within S) (id : ℕ) (name : Option String)
    (initial : Captures) (events : List Record) :
    (start id name tree initial).ahead events = (tree.threadsIn events).encard := by
  rw [Expr.encard_threadsIn h, ahead, start, strands_launch, countAll_strandsAt]
  rfl

theorem ahead_nil {p : Path} (hp : ∀ b ∈ p.running, b.Within S) : p.ahead [] = 0 := by
  unfold ahead countAll
  rw [List.map_map]
  refine List.sum_eq_zero fun n hn => ?_
  obtain ⟨b, hb, rfl⟩ := List.mem_map.1 hn
  exact (Cursor.headed (hp b hb).2).count_nil

/-- **An event turns threads into results**, all of them successful, and the others stay before the
running branches. -/
theorem ahead_onEvent {event : Record} (steady : S.Steady event) (coherent : S.Coherent) {p : Path}
    (hp : ∀ b ∈ p.running, b.Within S) (open_ : p.closed = false) (events : List Record) :
    p.finished.length + p.ahead (event :: events) =
        (p.onEvent event).1.finished.length + (p.onEvent event).1.ahead events ∧
      ((∀ f ∈ p.finished, f.outcome = .successful) →
        ∀ f ∈ (p.onEvent event).1.finished, f.outcome = .successful) := by
  have splits : Splits (p.ahead (event :: events))
      (Reaction.endingsOf ((p.running.map Branch.strand).map (Strand.react event 0)))
      (Reaction.strandsOf ((p.running.map Branch.strand).map (Strand.react event 0))) events := by
    refine splits_of_all fun t ht => ?_
    obtain ⟨b, hb, rfl⟩ := List.mem_map.1 ht
    exact Strand.splits steady (hp b hb) rfl
  have endings := endings_onEvent coherent hp open_ event
  refine ⟨?_, fun before f hf => ?_⟩
  · have lengths := congrArg List.length endings
    simp only [List.length_map, List.length_append] at lengths
    rw [splits.count, ahead, countAll_perm (strands_onEvent coherent hp open_ event), lengths,
      Nat.cast_add, add_assoc]
  · have hmem : f.ending ∈ (p.onEvent event).1.finished.map Finish.ending :=
      List.mem_map_of_mem hf
    rw [endings] at hmem
    rcases List.mem_append.1 hmem with hmem | hmem
    · obtain ⟨g, hg, heq⟩ := List.mem_map.1 hmem
      have same : g.outcome = f.outcome := congrArg Ending.outcome heq
      rw [← same]
      exact before g hg
    · exact splits.successful f.ending hmem

/-- **In a run all threads that can be embedded in its events turn into results.** -/
theorem ahead_onEvents (steady : ∀ event ∈ events, S.Steady event) (coherent : S.Coherent)
    {p : Path} (hp : ∀ b ∈ p.running, b.Within S) (open_ : p.closed = false) :
    p.finished.length + p.ahead events = (p.onEvents events).1.finished.length ∧
      ((∀ f ∈ p.finished, f.outcome = .successful) →
        ∀ f ∈ (p.onEvents events).1.finished, f.outcome = .successful) := by
  rw [onEvents_eq]
  induction events generalizing p with
  | nil => exact ⟨by rw [ahead_nil hp]; exact add_zero _, fun before => before⟩
  | cons event rest ih =>
    obtain ⟨count, successful⟩ :=
      ahead_onEvent (steady event List.mem_cons_self) coherent hp open_ rest
    obtain ⟨count', successful'⟩ := ih (fun e he => steady e (List.mem_cons_of_mem _ he))
      (within_onEvent hp open_ event) ((closed_onEvent p event).trans open_)
    exact ⟨count.trans count', fun before => successful' (successful before)⟩

/-! ### Results in order -/

/-- A finite set as a list. -/
theorem exists_list_of_encard {α : Type} {s : Set α} {n : ℕ} (h : s.encard = n) :
    ∃ l : List α, l.Nodup ∧ l.length = n ∧ ∀ a, a ∈ l ↔ a ∈ s := by
  have finite := Set.finite_of_encard_eq_coe h
  refine ⟨finite.toFinset.toList, finite.toFinset.nodup_toList, ?_, by simp⟩
  rw [Finset.length_toList]
  rw [finite.encard_eq_coe_toFinset_card] at h
  exact_mod_cast h

/-- A growing family of finite sets as one list, of which each set is a beginning. -/
theorem exists_list_of_growing {α : Type} {A : ℕ → Set α} {size : ℕ → ℕ}
    (growing : ∀ n, A n ⊆ A (n + 1)) (h : ∀ n, (A n).encard = size n) (N : ℕ) :
    ∃ l : List α, l.Nodup ∧ l.length = size N ∧
      ∀ n ≤ N, ∀ a, a ∈ l.take (size n) ↔ a ∈ A n := by
  induction N with
  | zero =>
    obtain ⟨l, nodup, length, mem⟩ := exists_list_of_encard (h 0)
    refine ⟨l, nodup, length, fun n hn a => ?_⟩
    obtain rfl : n = 0 := by omega
    rw [List.take_of_length_le (by omega), mem]
  | succ N ih =>
    obtain ⟨l, nodup, length, mem⟩ := ih
    have whole : ∀ a, a ∈ l ↔ a ∈ A N := by
      intro a
      rw [← mem N le_rfl, List.take_of_length_le (by omega)]
    -- What is new in the last set comes after the list so far.
    have finite := (Set.finite_of_encard_eq_coe (h (N + 1))).subset
      (Set.sdiff_subset (s := A (N + 1)) (t := A N))
    obtain ⟨new, new_nodup, new_length, new_mem⟩ :=
      exists_list_of_encard finite.encard_eq_coe_toFinset_card
    have added := Set.encard_sdiff_add_encard_of_subset (growing N)
    rw [h, h, finite.encard_eq_coe_toFinset_card, ← new_length] at added
    have total : new.length + size N = size (N + 1) := by exact_mod_cast added
    refine ⟨l ++ new, ?_, by rw [List.length_append]; omega, fun n hn a => ?_⟩
    · refine List.nodup_append.2 ⟨nodup, new_nodup, fun a ha b hb hab => ?_⟩
      rw [hab, whole] at ha
      exact ((new_mem b).1 hb).2 ha
    · rcases Nat.lt_or_ge N n with hlt | hle
      · obtain rfl : n = N + 1 := by omega
        rw [List.take_of_length_le (by rw [List.length_append]; omega), List.mem_append, whole,
          new_mem, Set.mem_sdiff]
        constructor
        · rintro (ha | ha)
          · exact growing N ha
          · exact ha.1
        · intro ha
          by_cases hN : a ∈ A N
          · exact .inl hN
          · exact .inr ⟨ha, hN⟩
      · have small : size n ≤ l.length := by
          have subset : A n ⊆ A N := monotone_nat_of_le_succ growing hle
          have := Set.encard_le_encard subset
          rw [h, h] at this
          rw [length]
          exact_mod_cast this
        rw [List.take_append_of_le_length small, mem n hle]

/-- **A path has as many results as its expression has threads.** If the conditions depend on the
event alone, and keys are equal to themselves, every result is successful, and at any time there are
as many results as threads that can be embedded in the events so far: in a list of different threads
those that can be embedded by then come first, and their number is that of the results. -/
theorem matches_threads {tree : Expr} (valid : tree.defect? = none) (coherent : tree.Coherent)
    (events : List Record) (conditions : ∀ c ∈ tree.conditions, ∀ event ∈ events, c.Steady event)
    (keys : ∀ k ∈ tree.extractors, ∀ event ∈ events, k.Clear event) (id : ℕ)
    (name : Option String) (initial : Captures) :
    let p (n : ℕ) : Path := ((start id name tree initial).onEvents (events.take n)).1
    (∀ n, ∀ f ∈ (p n).finished, f.outcome = .successful) ∧
      ∃ threads : List (List Choice), threads.Nodup ∧
        threads.length = (p events.length).finished.length ∧
        ∀ n choices, choices ∈ threads.take (p n).finished.length ↔
          choices ∈ tree.threadsIn (events.take n) := by
  intro p
  have inside : tree.Within (Scope.of tree) :=
    Expr.within_of_valid valid (fun _ h => h) fun _ h => h
  have steady : ∀ n, ∀ event ∈ events.take n, (Scope.of tree).Steady event := fun n event he =>
    ⟨fun c hc => conditions c hc event (List.mem_of_mem_take he),
      fun k hk => keys k hk event (List.mem_of_mem_take he)⟩
  have run := fun n => ahead_onEvents (steady n) (Scope.coherent_of coherent)
    (p := start id name tree initial) (within_after inside []) rfl
  have sizes : ∀ n, (tree.threadsIn (events.take n)).encard = (p n).finished.length := by
    intro n
    have := (run n).1
    rw [ahead_start inside] at this
    rw [← this]
    simp [start]
  obtain ⟨threads, nodup, length, mem⟩ :=
    exists_list_of_growing (tree.threadsIn_take events) sizes events.length
  refine ⟨fun n => (run n).2 (by simp [start]), threads, nodup, length, fun n choices => ?_⟩
  rcases Nat.le_total n events.length with hn | hn
  · exact mem n hn choices
  · have whole : events.take n = events.take events.length := by
      rw [List.take_of_length_le hn, List.take_length]
    show choices ∈ threads.take ((start id name tree initial).onEvents _).1.finished.length ↔ _
    rw [whole]
    exact mem events.length le_rfl choices

/-- Groups of one host each, in which any event is followed by one of two, under a filter. -/
theorem matches_threads_two_hosts :
    let tree : Expr := .groupBy ⟨0, "host", .property "host"⟩
      (.eventThen .always [.filter (.tapProperty "n" "seen")
        [.event .always, .sequence [.event .always, .event (.propertyEquals "n" .null)]]])
    let event (host : String) : Record := ⟨"", "", "", .epoch, [.string "host" host]⟩
    let events := [event "a", event "b", event "a"]
    let p (n : ℕ) : Path := ((start 1 none tree .empty).onEvents (events.take n)).1
    tree.defect? = none ∧ ∃ threads : List (List Choice), threads.Nodup ∧
      ∀ n choices, choices ∈ threads.take (p n).finished.length ↔
        choices ∈ tree.threadsIn (events.take n) := by
  intro tree event events p
  have coherent : tree.Coherent := by
    intro j hj k hk _
    rw [List.mem_singleton.1 hj, List.mem_singleton.1 hk]
  obtain ⟨-, threads, nodup, -, mem⟩ := matches_threads (by decide) coherent events
    (by
      intro c hc e he captures
      simp only [tree, Expr.conditions, Expr.conditionsOf, List.append_nil, List.mem_cons,
        List.not_mem_nil, or_false, List.cons_append, List.nil_append] at hc
      simp only [events, List.mem_cons, List.not_mem_nil, or_false] at he
      rcases hc with rfl | rfl | rfl | rfl | rfl <;> rcases he with rfl | rfl | rfl <;> rfl)
    (by
      intro k hk e he value hv
      rw [List.mem_singleton.1 hk] at hv
      simp only [events, List.mem_cons, List.not_mem_nil, or_false] at he
      rcases he with rfl | rfl | rfl <;> cases hv <;> decide)
    1 none .empty
  exact ⟨by decide, threads, nodup, mem⟩

end Path

end TracePattern
