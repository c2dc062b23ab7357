import TracePattern.Proofs.Family.Part
import Mathlib.Logic.Relation

/-!
# The lineage of branches

Every branch of a path but the first ones follows from another one, which is noted in the event in
which it is new.

* `Path.Orderly`, `Path.Live`: an open path that is in order;
* `Path.answered`, `Path.Took`: an event as the delivery of reactions;
* `Path.lineage`: which branches follow from which in a run;
* `Births`, `Path.Live.births`: each new number is noted, after the number it is due to;
* `Descends`: the branches that go back to some births.
-/

namespace TracePattern

/-! ### Births -/

/-- The numbers from `i` to `j` are noted, each one with a smaller number. -/
structure Births (i j : ℕ) (pairs : List (ℕ × ℕ)) : Prop where
  grows : i ≤ j
  later : ∀ q ∈ pairs, q.1 < q.2 ∧ i ≤ q.2 ∧ q.2 < j
  noted : ∀ n, i ≤ n → n < j → ∃ a, (a, n) ∈ pairs

namespace Births

variable {i j : ℕ} {pairs others : List (ℕ × ℕ)}

theorem nil (i : ℕ) : Births i i [] := ⟨le_rfl, by simp, fun n hn hlt => by omega⟩

theorem append {k : ℕ} (h : Births i j pairs) (h' : Births j k others) :
    Births i k (pairs ++ others) := by
  have := h.grows
  have := h'.grows
  refine ⟨by omega, fun q hq => ?_, fun n hn hlt => ?_⟩
  · rcases List.mem_append.1 hq with hq | hq
    · have := h.later q hq
      omega
    · have := h'.later q hq
      omega
  · rcases Nat.lt_or_ge n j with hj | hj
    · obtain ⟨a, ha⟩ := h.noted n hn hj
      exact ⟨a, List.mem_append_left _ ha⟩
    · obtain ⟨a, ha⟩ := h'.noted n hj hlt
      exact ⟨a, List.mem_append_right _ ha⟩

end Births

/-- Branch `n` is one of those that follow from `root` in the given births, or goes back to one of
them. -/
def Descends (births lineage : List (ℕ × ℕ)) (root n : ℕ) : Prop :=
  ∃ m, (root, m) ∈ births ∧ Relation.ReflTransGen (fun a b => (a, b) ∈ lineage) m n

/-- Numbers that come to a part by given births, and otherwise by descent, are those that go back to
these births. -/
theorem mem_iff_descends {part : List ℕ} {root : ℕ} {births lineage : List (ℕ × ℕ)}
    (noted : ∀ n ∈ part, ∃ a, a < n ∧ (a, n) ∈ lineage) (sub : births ⊆ lineage)
    (outside : root ∉ part)
    (descent : ∀ q ∈ lineage, q.2 ∈ part ↔ q.1 ∈ part ∨ q.1 = root ∧ q ∈ births) (n : ℕ) :
    n ∈ part ↔ Descends births lineage root n := by
  constructor
  · intro hn
    induction n using Nat.strongRecOn with
    | ind n ih =>
      obtain ⟨a, hlt, ha⟩ := noted n hn
      rcases (descent (a, n) ha).1 hn with hpart | ⟨rfl, hbirth⟩
      · obtain ⟨m, hm, path⟩ := ih a hlt hpart
        exact ⟨m, hm, path.tail ha⟩
      · exact ⟨n, hbirth, .refl⟩
  · rintro ⟨m, hm, path⟩
    induction path with
    | refl => exact (descent (root, m) (sub hm)).2 (.inr ⟨rfl, hm⟩)
    | tail _ hab ih => exact (descent _ hab).2 (.inl ih)

namespace Path

variable {S : Scope} {p : Path}

/-! ### Open paths -/

/-- The path is open, and its branches stand within the scope and in the order of their numbers. -/
structure Orderly (S : Scope) (p : Path) : Prop where
  within : ∀ b ∈ p.running, b.Within S
  ascending : p.running.Pairwise fun a b => a.id < b.id
  below : ∀ b ∈ p.running, b.id < p.nextId
  opened : p.closed = false

/-- The path is open, its branches stand within the scope, and its numbers are in order. -/
structure Live (S : Scope) (p : Path) : Prop where
  within : ∀ b ∈ p.running, b.Within S
  ledger : p.Ledger
  opened : p.closed = false

/-- The effects of reactions of all running branches. -/
def answered (p : Path) (answer : Strand → Reaction) : Effects × Tally :=
  Reaction.deliverAll p.id (p.running.map Branch.id) ((p.running.map Branch.strand).map answer)
    ⟨p.nextId, 0, []⟩

/-- The path is what some effects made of one with earlier results. -/
structure Took (p : Path) (earlier : List Finish) (x : Effects × Tally) : Prop where
  running : p.running.Perm x.1.running
  ascending : p.running.Pairwise fun a b => a.id < b.id
  finished : p.finished = earlier ++ x.1.finished
  nextId : p.nextId = x.2.nextId

namespace Orderly

theorem ids_lt (h : p.Orderly S) : ∀ i ∈ p.running.map Branch.id, i < p.nextId := by
  intro i hi
  obtain ⟨b, hb, rfl⟩ := List.mem_map.1 hi
  exact h.below b hb

theorem nodup_ids (h : p.Orderly S) : (p.running.map Branch.id).Nodup :=
  List.pairwise_map.2 (h.ascending.imp Nat.ne_of_lt)

theorem onEvent (h : p.Orderly S) (e : Record) : (p.onEvent e).1.Orderly S := by
  obtain ⟨n, hnext, -, hids⟩ := turn_ids h.within e
  have perm := perm_running_onEvent h.opened e
  -- The numbers after the event are those before it and new ones.
  have new : (p.running.map Branch.id ++ List.range' p.nextId n).Nodup := by
    refine List.nodup_append.2 ⟨h.nodup_ids, List.nodup_range', fun i hi j hj => ?_⟩
    have := h.ids_lt i hi
    have := (List.mem_range'_1.1 hj).1
    omega
  have distinct : (p.onEvent e).1.running.Pairwise fun a b => a.id ≠ b.id := by
    have turned := (hids.nodup_iff.2 new).of_append_left
    exact List.pairwise_map.1 ((perm.map Branch.id).nodup_iff.2 turned)
  refine ⟨within_onEvent h.within h.opened e, ?_, fun b hb => ?_, (closed_onEvent p e).trans h.opened⟩
  · exact ((sorted_running_onEvent h.opened e).and distinct).imp fun hab => by omega
  · have hmem : b.id ∈ p.running.map Branch.id ++ List.range' p.nextId n :=
      hids.mem_iff.1 (List.mem_append_left _ (List.mem_map_of_mem (perm.mem_iff.1 hb)))
    rw [nextId_onEvent h.opened, hnext]
    rcases List.mem_append.1 hmem with hold | hnew
    · have := h.ids_lt _ hold
      omega
    · exact (List.mem_range'_1.1 hnew).2

/-- **An event does what the reactions of the running branches do.** -/
theorem onEvent_took_answered (coherent : S.Coherent) (h : p.Orderly S) (e : Record) :
    (p.onEvent e).1.Took p.finished (p.answered (Strand.react e 0)) ∧
      Note.lineage (p.onEvent e).2.notes =
        Note.lineage (p.answered (Strand.react e 0)).1.notes := by
  have matched : Matches S e (p.turn e) (p.answered (Strand.react e 0)) :=
    turn_matches coherent h.within
  refine ⟨⟨?_, (h.onEvent e).ascending, ?_, ?_⟩, ?_⟩
  · rw [← matched.running]
    exact perm_running_onEvent h.opened e
  · rw [finished_onEvent h.opened, matched.finished]
  · rw [nextId_onEvent h.opened, matched.tally]
    rfl
  · rw [← matched.lineage]
    simp [Path.onEvent, h.opened]

end Orderly

theorem live_start {tree : Expr} (h : tree.Within S) (id : ℕ) (name : Option String)
    (initial : Captures) : (start id name tree initial).Live S :=
  ⟨within_after h [], ledger_start id name tree initial, rfl⟩

namespace Live

theorem onEvent (h : p.Live S) (e : Record) : (p.onEvent e).1.Live S :=
  ⟨within_onEvent h.within h.opened e, h.ledger.onEvent h.within h.opened e,
    (closed_onEvent p e).trans h.opened⟩

theorem id_lt (h : p.Live S) {b : Branch} (hb : b ∈ p.running) : b.id < p.nextId :=
  h.ledger.id_lt hb

theorem finished_id_lt (h : p.Live S) {f : Finish} (hf : f ∈ p.finished) : f.id < p.nextId :=
  h.ledger.finished_id_lt hf

theorem orderly (h : p.Live S) : p.Orderly S :=
  ⟨h.within, h.ledger.ascending, fun _ hb => h.id_lt hb, h.opened⟩

/-- An event of a path that is in order does what the reactions of its branches do. -/
theorem onEvent_took_answered (coherent : S.Coherent) (h : p.Live S) (e : Record) :
    (p.onEvent e).1.Took p.finished (p.answered (Strand.react e 0)) ∧
      Note.lineage (p.onEvent e).2.notes =
        Note.lineage (p.answered (Strand.react e 0)).1.notes :=
  h.orderly.onEvent_took_answered coherent e

end Live

/-! ### Runs -/

/-- The pairs of branches in the notes of some events. -/
def lineage (p : Path) (events : List Record) : List (ℕ × ℕ) :=
  Note.lineage (p.onEvents events).2.notes

theorem onEvents_append (p : Path) (before later : List Record) :
    (p.onEvents (before ++ later)).1 = ((p.onEvents before).1.onEvents later).1 ∧
      p.lineage (before ++ later) = p.lineage before ++ (p.onEvents before).1.lineage later := by
  unfold lineage
  rw [onEvents_append_eq]
  exact ⟨rfl, Note.lineage_append _ _⟩

theorem onEvents_cons (p : Path) (e : Record) (rest : List Record) :
    (p.onEvents (e :: rest)).1 = ((p.onEvent e).1.onEvents rest).1 ∧
      p.lineage (e :: rest) = Note.lineage (p.onEvent e).2.notes ++ (p.onEvent e).1.lineage rest :=
  onEvents_append p [e] rest

namespace Live

theorem onEvents (h : p.Live S) (events : List Record) : (p.onEvents events).1.Live S := by
  induction events generalizing p with
  | nil => exact h
  | cons e rest ih =>
    rw [(onEvents_cons p e rest).1]
    exact ih (h.onEvent e)

/-- The new numbers of an event are noted. -/
theorem births_onEvent (coherent : S.Coherent) (h : p.Live S) (e : Record) :
    Births p.nextId (p.onEvent e).1.nextId (Note.lineage (p.onEvent e).2.notes) := by
  obtain ⟨took, lineage⟩ := h.onEvent_took_answered coherent e
  have numbered : Numbered _ _ (p.answered (Strand.react e 0)) :=
    Reaction.deliverAll_numbered p.id _ _ h.orderly.ids_lt
  rw [took.nextId, lineage]
  exact ⟨numbered.grows, fun q hq => (numbered.parent q hq).2, numbered.child⟩

/-- **The new numbers of a run are noted**, each one after the number it is due to. -/
theorem births (coherent : S.Coherent) (h : p.Live S) (events : List Record) :
    Births p.nextId (p.onEvents events).1.nextId (p.lineage events) := by
  induction events generalizing p with
  | nil => exact .nil _
  | cons e rest ih =>
    obtain ⟨run, lineage⟩ := onEvents_cons p e rest
    rw [run, lineage]
    exact (h.births_onEvent coherent e).append (ih (h.onEvent e))

/-- New branches of a run follow from those that run before it, and from new ones. -/
theorem parents (coherent : S.Coherent) (h : p.Live S) (events : List Record) :
    ∀ q ∈ p.lineage events, q.1 ∈ p.running.map Branch.id ∨ p.nextId ≤ q.1 := by
  induction events generalizing p with
  | nil =>
    intro q hq
    cases hq
  | cons e rest ih =>
    intro q hq
    obtain ⟨took, lineage⟩ := h.onEvent_took_answered coherent e
    have numbered : Numbered _ _ (p.answered (Strand.react e 0)) :=
      Reaction.deliverAll_numbered p.id _ _ h.orderly.ids_lt
    rw [(onEvents_cons p e rest).2, lineage] at hq
    rcases List.mem_append.1 hq with hq | hq
    · exact (numbered.parent q hq).1
    · rcases ih (h.onEvent e) q hq with hrun | hnew
      · obtain ⟨b, hb, hid⟩ := List.mem_map.1 hrun
        rw [← hid]
        exact (numbered.running b (took.running.mem_iff.1 hb)).imp_right And.left
      · exact .inr ((h.births_onEvent coherent e).grows.trans hnew)

end Live

end Path

end TracePattern
