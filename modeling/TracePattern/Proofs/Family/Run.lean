import TracePattern.Proofs.Family.Lineage
import Mathlib.Data.List.Perm.Basic

/-!
# A part of a path as a path

The branches of a part, running and ended, correspond one by one to those of another path, whose
first frames are missing, and they keep on doing so if the other path gets just those events that
get through these frames.

* `Family`: the branches of a part and those of another path;
* `family_of_grown`: what effects that correspond lead to;
* `Family.onEvent`, `Family.onEvent_of_stays`: one event that gets through to the part, or does not;
* `Descent`, `Descent.descends`: how the part has grown in a run;
* `Family.onEvents`: any run.
-/

namespace TracePattern

/-- The branches of a part of the path `whole` are those of the path `fresh` inside further frames,
in the same order. -/
structure Family (outer : List Frame) (link : List (ℕ × ℕ)) (fresh whole : Path) : Prop where
  linked : Linked link fresh.nextId whole.nextId
  numbers : link.map Prod.fst = List.range fresh.nextId
  running : List.Forall₂ (AlikeRunning outer link) fresh.running
    (whole.running.filter fun b => b.id ∈ partOf link)
  finished : List.Forall₂ (AlikeFinished outer link) fresh.finished
    (whole.finished.filter fun f => f.id ∈ partOf link)

variable {S : Scope} {outer : List Frame} {roots : List ℕ} {link link' : List (ℕ × ℕ)}
  {fresh whole : Path}

/-! ### One event -/

/-- A list that corresponds to another one by a function. -/
theorem eq_map_of_forall₂ {α β : Type} {R : α → β → Prop} {f : α → β} (h : ∀ a b, R a b → b = f a)
    {l : List α} {m : List β} (alike : List.Forall₂ R l m) : m = l.map f := by
  have pointwise : List.Forall₂ (· = ·) (l.map f) m :=
    List.forall₂_map_left_iff.2 (alike.imp fun a b hab => (h a b hab).symm)
  rw [List.forall₂_eq_eq_eq] at pointwise
  exact pointwise.symm

/-- Branches that correspond still do so when both sides are put in the order of the numbers. -/
theorem forall₂_of_perm {i j : ℕ} (linked : Linked link i j) {as bs cs ds : List Branch}
    (alike : List.Forall₂ (AlikeRunning outer link) bs cs) (left : as.Perm bs) (right : ds.Perm cs)
    (ascending : as.Pairwise fun a b => a.id < b.id)
    (ascending' : ds.Pairwise fun a b => a.id < b.id) :
    List.Forall₂ (AlikeRunning outer link) as ds := by
  obtain ⟨ms, alike, perm⟩ := List.perm_comp_forall₂ left alike
  -- The order of the numbers is the same on both sides.
  have sorted : ms.Pairwise fun a b => a.id < b.id := by
    clear left right perm ascending'
    induction alike with
    | nil => exact .nil
    | @cons a m as ms ham rest ih =>
      obtain ⟨first, others⟩ := List.pairwise_cons.1 ascending
      refine List.pairwise_cons.2 ⟨fun n hn => ?_, ih others⟩
      obtain ⟨k, hk, hget⟩ := List.mem_iff_getElem.1 hn
      have hlen := rest.length_eq
      have hkn := rest.get (i := k) (by omega) hk
      have hlt := first _ (List.get_mem as ⟨k, by omega⟩)
      rw [← hget]
      exact (linked.order _ ham.2 _ hkn.2).1 hlt
  have same : ms = ds := by
    refine List.Perm.eq_of_pairwise (fun a b _ _ hab hba => ?_) sorted ascending'
      (perm.trans right.symm)
    omega
  rwa [← same]

/-- Effects that correspond keep a part of a path and another path alike. -/
theorem family_of_grown {t u : Tally} {x y : Effects × Tally} {before earlier : List Finish}
    (grown : Grown outer roots link t u x y link')
    (numbers : link.map Prod.fst = List.range t.nextId)
    (alike : List.Forall₂ (AlikeFinished outer link) before
      (earlier.filter fun f => f.id ∈ partOf link))
    (old : ∀ f ∈ earlier, f.id < u.nextId) (left : fresh.Took before x)
    (right : whole.Took earlier y) : Family outer link' fresh whole := by
  refine ⟨?_, ?_, ?_, ?_⟩
  · rw [left.nextId, right.nextId]
    exact grown.linked
  · rw [grown.first, numbers, left.nextId, List.range_eq_range', List.range_eq_range']
    have split := range'_append_range' (Nat.zero_le t.nextId) grown.grows
    rwa [Nat.sub_zero, Nat.sub_zero] at split
  · exact forall₂_of_perm grown.linked grown.running left.running (right.running.filter _)
      left.ascending (right.ascending.filter _)
  · rw [left.finished, right.finished, List.filter_append]
    refine List.rel_append ?_ grown.finished
    rw [grown.filter_eq Finish.id old]
    exact alike.imp fun _ _ => .mono grown.kept

/-- In the given births a part has grown by what follows from its branches, and by nothing else. -/
structure Descent (link link' : List (ℕ × ℕ)) (next : ℕ) (pairs : List (ℕ × ℕ)) : Prop extends
    Expands next link link' where
  closed : ∀ q ∈ pairs, q.2 ∈ partOf link' ↔ q.1 ∈ partOf link'

/-- Strands that stay leave everything as it is. -/
theorem Path.answered_stay (p : Path) :
    p.answered .stay = (⟨p.running, [], [], []⟩, ⟨p.nextId, 0, []⟩) := by
  unfold answered
  induction p.running with
  | nil => rfl
  | cons b rest ih =>
    simp only [List.map_cons, Reaction.deliverAll, Reaction.deliver, ih]
    rfl

namespace Family

variable (groups : OfGroups outer) (coherent : S.Coherent) {event : Record}
include groups coherent

/-- One event of the whole path. The branches of the part answer like those of the other path. -/
theorem step (h : Family outer link fresh whole) (hwhole : whole.Live S)
    {answer : Strand → Reaction} (answers : ∀ b ∈ fresh.running,
      (b.strand.inside outer).react event 0 = (answer b.strand).inside outer)
    {next : Path} (left : next.Took fresh.finished (fresh.answered answer)) :
    ∃ link', Family outer link' next (whole.onEvent event).1 ∧
      Descent link link' whole.nextId (Note.lineage (whole.onEvent event).2.notes) := by
  obtain ⟨right, lineage⟩ := hwhole.onEvent_took_answered coherent event
  obtain ⟨link', grown⟩ : ∃ link', Grown outer [] link ⟨fresh.nextId, 0, []⟩ ⟨whole.nextId, 0, []⟩
      (fresh.answered answer) (whole.answered (Strand.react event 0)) link' :=
    grown_of_all groups fresh.id whole.id h.linked (by simp)
      (fun b hb => ⟨hwhole.id_lt hb, by simp⟩) h.running answers
  refine ⟨link', family_of_grown grown h.numbers h.finished (fun f hf => hwhole.finished_id_lt hf)
    left right, grown.toExpands, fun q hq => ?_⟩
  rw [lineage] at hq
  simpa using grown.descent q hq

/-- The event gets through to the part, and the other path gets it too. -/
theorem onEvent (h : Family outer link fresh whole) (hfresh : fresh.Live S) (hwhole : whole.Live S)
    (lets : ∀ captures, letsAll event captures outer = (captures, .ok true)) :
    ∃ link', Family outer link' (fresh.onEvent event).1 (whole.onEvent event).1 ∧
      Descent link link' whole.nextId (Note.lineage (whole.onEvent event).2.notes) :=
  h.step groups coherent hwhole (fun b _ => b.strand.react_of_lets (lets _))
    (hfresh.onEvent_took_answered coherent event).1

/-- The event does not get through to the part. -/
theorem onEvent_of_stays (h : Family outer link fresh whole) (hfresh : fresh.Live S)
    (hwhole : whole.Live S)
    (stays : ∀ s : Strand, (s.inside outer).react event 0 = .stay (s.inside outer)) :
    ∃ link', Family outer link' fresh (whole.onEvent event).1 ∧
      Descent link link' whole.nextId (Note.lineage (whole.onEvent event).2.notes) := by
  have same : fresh.Took fresh.finished (fresh.answered .stay) := by
    rw [Path.answered_stay]
    exact ⟨.refl _, hfresh.ledger.ascending, (List.append_nil _).symm, rfl⟩
  exact h.step groups coherent hwhole (fun b _ => stays b.strand) same

end Family

/-! ### Runs -/

theorem Descent.append {link'' : List (ℕ × ℕ)} {i j : ℕ} {pairs others : List (ℕ × ℕ)}
    (h : Descent link link' i pairs) (h' : Descent link' link'' j others)
    (births : Births i j pairs) : Descent link link'' i (pairs ++ others) := by
  refine ⟨h.toExpands.trans h'.toExpands births.grows, fun q hq => ?_⟩
  rcases List.mem_append.1 hq with hq | hq
  · obtain ⟨hlt, -, hj⟩ := births.later q hq
    rw [h'.mem_iff hj, h'.mem_iff (hlt.trans hj)]
    exact h.closed q hq
  · exact h'.closed q hq

/-- A part that starts with the births that follow from branch 0 in one event is made of the
branches that go back to these births. -/
theorem Descent.descends {i j k : ℕ} {before now later : List (ℕ × ℕ)} (earlier : Births 1 i before)
    (present : Births i j now) (future : Births j k later) (new : ∀ n ∈ partOf link, i ≤ n)
    (founded : ∀ q ∈ now, q.2 ∈ partOf link ↔ q.1 ∈ partOf link ∨ q.1 = 0)
    (h : Descent link link' j later) (below : ∀ n ∈ partOf link', n < k) (n : ℕ) :
    n ∈ partOf link' ↔ Descends now (before ++ (now ++ later)) 0 n := by
  have first := earlier.grows
  have second := present.grows
  have old : ∀ n ∈ partOf link', i ≤ n := by
    intro n hn
    rcases h.new n hn with hn | hn
    · exact new n hn
    · omega
  have births := earlier.append (present.append future)
  refine mem_iff_descends (fun n hn => ?_) (fun q hq => ?_) (fun h0 => ?_) (fun q hq => ?_) n
  · obtain ⟨a, ha⟩ := births.noted n (by have := old n hn; omega) (below n hn)
    exact ⟨a, (births.later _ ha).1, ha⟩
  · exact List.mem_append_right _ (List.mem_append_left _ hq)
  · have := old 0 h0
    omega
  · -- Births before, in and after the event.
    rcases List.mem_append.1 hq with hq | hq
    · obtain ⟨hlt, -, hi⟩ := earlier.later q hq
      have outside : ∀ n, n < i → n ∉ partOf link' := fun n hn hmem => by
        have := old n hmem
        omega
      refine iff_of_false (outside _ hi) (not_or.2 ⟨outside _ (hlt.trans hi), fun hnow => ?_⟩)
      have := (present.later q hnow.2).2.1
      omega
    · rcases List.mem_append.1 hq with hq | hq
      · obtain ⟨hlt, -, hj⟩ := present.later q hq
        rw [h.mem_iff hj, h.mem_iff (hlt.trans hj), founded q hq]
        simp [hq]
      · rw [h.closed q hq]
        refine ⟨.inl, fun hmem => hmem.resolve_right fun hnow => ?_⟩
        have := (present.later q hnow.2).2.2
        have := (future.later q hq).2.1
        omega

/-- **A part of a path behaves like a path of its own**, which gets those events that get through to
the part. -/
theorem Family.onEvents (groups : OfGroups outer) (coherent : S.Coherent)
    (h : Family outer link fresh whole) (hfresh : fresh.Live S) (hwhole : whole.Live S)
    {own : Record → Bool} {events : List Record}
    (lets : ∀ e ∈ events, own e = true →
      ∀ captures, letsAll e captures outer = (captures, .ok true))
    (stays : ∀ e ∈ events, own e = false →
      ∀ s : Strand, (s.inside outer).react e 0 = .stay (s.inside outer)) :
    ∃ link', Family outer link' (fresh.onEvents (events.filter own)).1 (whole.onEvents events).1 ∧
      Descent link link' whole.nextId (whole.lineage events) := by
  induction events generalizing fresh whole link with
  | nil =>
    have quiet : whole.lineage [] = [] := rfl
    exact ⟨link, h, .refl _ _, by simp [quiet]⟩
  | cons e rest ih =>
    obtain ⟨run, lineage⟩ := Path.onEvents_cons whole e rest
    have births := hwhole.births_onEvent coherent e
    have lets_rest := fun d hd => lets d (List.mem_cons_of_mem e hd)
    have stays_rest := fun d hd => stays d (List.mem_cons_of_mem e hd)
    rw [run, lineage]
    by_cases hown : own e = true
    · obtain ⟨link₁, h₁, first⟩ :=
        h.onEvent groups coherent hfresh hwhole (lets e List.mem_cons_self hown)
      obtain ⟨link₂, h₂, others⟩ :=
        ih h₁ (hfresh.onEvent e) (hwhole.onEvent e) lets_rest stays_rest
      rw [List.filter_cons_of_pos hown, (Path.onEvents_cons fresh e _).1]
      exact ⟨link₂, h₂, first.append others births⟩
    · obtain ⟨link₁, h₁, first⟩ :=
        h.onEvent_of_stays groups coherent hfresh hwhole
          (stays e List.mem_cons_self (by simpa using hown))
      obtain ⟨link₂, h₂, others⟩ := ih h₁ hfresh (hwhole.onEvent e) lets_rest stays_rest
      rw [List.filter_cons_of_neg hown]
      exact ⟨link₂, h₂, first.append others births⟩

end TracePattern
