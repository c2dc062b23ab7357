import Mathlib.Order.Interval.Set.Defs
import Mathlib.Order.Monotone.Defs
import TracePattern.Proofs.Family.Run

/-!
# Some of the branches alone

Branches do not influence each other.  Whatever happens to a path, what comes of some of its running
branches is what would come of them if they were the only ones; they only get other new numbers, in
the same order.

* `Path.only`: the path with some of its branches only;
* `Share`: the branches of a path that come from some of its branches, and those of the path with
  only these;
* `Share.onEvents`: it is kept in any run;
* `Path.Apart`: the same without links, and with the branches that it is about;
* `Path.split_apart`: the running branches split into two parts.
-/

namespace TracePattern

/-- The path with only some of its branches running, and without results so far. -/
def Path.only (p : Path) (bs : List Branch) : Path := { p with running := bs, finished := [] }

/-- The branches of `part` are those of `whole` with linked numbers, in the same order. Linked are
the numbers of `old` branches and all new ones, which are those from `next` on. -/
structure Share (old : List ℕ) (next : ℕ) (link : List (ℕ × ℕ)) (part whole : Path) : Prop where
  linked : Linked link part.nextId whole.nextId
  grows : next ≤ part.nextId
  numbers : ∀ n, n ∈ link.map Prod.fst ↔ n ∈ old ∨ next ≤ n ∧ n < part.nextId
  running : List.Forall₂ (AlikeRunning [] link) part.running
    (whole.running.filter fun b => b.id ∈ partOf link)
  finished : List.Forall₂ (AlikeFinished [] link) part.finished
    (whole.finished.filter fun f => f.id ∈ partOf link)

variable {S : Scope} {old : List ℕ} {next : ℕ} {link : List (ℕ × ℕ)} {part whole : Path}

theorem ofGroups_nil : OfGroups [] := fun _ h => nomatch h

namespace Share

/-- One event. -/
theorem onEvent (coherent : S.Coherent) (h : Share old next link part whole) (hpart : part.Orderly S)
    (hwhole : whole.Live S) (e : Record) :
    ∃ link', Share old next link' (part.onEvent e).1 (whole.onEvent e).1 ∧
      Descent link link' whole.nextId (Note.lineage (whole.onEvent e).2.notes) := by
  obtain ⟨left, -⟩ := hpart.onEvent_took_answered coherent e
  obtain ⟨right, lineage⟩ := hwhole.onEvent_took_answered coherent e
  obtain ⟨link', grown⟩ : ∃ link', Grown [] [] link ⟨part.nextId, 0, []⟩ ⟨whole.nextId, 0, []⟩
      (part.answered (Strand.react e 0)) (whole.answered (Strand.react e 0)) link' :=
    grown_of_all ofGroups_nil part.id whole.id h.linked (by simp)
      (fun b hb => ⟨hwhole.id_lt hb, by simp⟩) h.running
      fun b _ => @Strand.react_inside [] b.strand e 0
  have before := h.grows
  have now := grown.grows
  dsimp only at now
  refine ⟨link', ⟨?_, ?_, fun n => ?_, ?_, ?_⟩, grown.toExpands, fun q hq => ?_⟩
  · rw [left.nextId, right.nextId]
    exact grown.linked
  · rw [left.nextId]
    omega
  · rw [grown.first, List.mem_append, h.numbers, List.mem_range'_1, left.nextId, or_assoc]
    refine or_congr_right ?_
    dsimp only
    omega
  · exact forall₂_of_perm grown.linked grown.running left.running (right.running.filter _)
      left.ascending (right.ascending.filter _)
  · rw [left.finished, right.finished, List.filter_append]
    refine List.rel_append ?_ grown.finished
    rw [grown.filter_eq Finish.id fun f hf => hwhole.finished_id_lt hf]
    exact h.finished.imp fun _ _ => .mono grown.kept
  · rw [lineage] at hq
    simpa using grown.descent q hq

/-- Any run. -/
theorem onEvents (coherent : S.Coherent) (h : Share old next link part whole) (hpart : part.Orderly S)
    (hwhole : whole.Live S) (events : List Record) :
    ∃ link', Share old next link' (part.onEvents events).1 (whole.onEvents events).1 ∧
      Descent link link' whole.nextId (whole.lineage events) := by
  induction events generalizing part whole link with
  | nil =>
    have quiet : whole.lineage [] = [] := rfl
    exact ⟨link, h, .refl _ _, by simp [quiet]⟩
  | cons e rest ih =>
    obtain ⟨run, lineage⟩ := Path.onEvents_cons whole e rest
    rw [run, lineage, (Path.onEvents_cons part e rest).1]
    obtain ⟨link₁, h₁, first⟩ := h.onEvent coherent hpart hwhole e
    obtain ⟨link₂, h₂, others⟩ := ih h₁ (hpart.onEvent e) (hwhole.onEvent e)
    exact ⟨link₂, h₂, first.append others (hwhole.births_onEvent coherent e)⟩

end Share

/-! ### New numbers -/

/-- The number that is linked to a number; a number without link stands for itself. -/
def renumber (link : List (ℕ × ℕ)) (n : ℕ) : ℕ :=
  ((link.find? fun q => q.1 = n).map Prod.snd).getD n

theorem Linked.eq_of_fst {i j : ℕ} (h : Linked link i j) {p q : ℕ × ℕ} (hp : p ∈ link)
    (hq : q ∈ link) (same : p.1 = q.1) : p.2 = q.2 := by
  have up := h.order p hp q hq
  have down := h.order q hq p hp
  omega

theorem Linked.renumber_eq {i j m n : ℕ} (h : Linked link i j) (hmem : (m, n) ∈ link) :
    renumber link m = n := by
  unfold renumber
  cases hfind : link.find? fun q => q.1 = m with
  | none => simpa using List.find?_eq_none.1 hfind _ hmem
  | some q =>
    have hq : q.1 = m := by simpa using List.find?_some hfind
    exact h.eq_of_fst (List.mem_of_find?_eq_some hfind) hmem hq

theorem renumber_of_not_mem {n : ℕ} (h : n ∉ link.map Prod.fst) : renumber link n = n := by
  have : (link.find? fun q => q.1 = n) = none := by
    refine List.find?_eq_none.2 fun q hq => ?_
    simpa using fun hn => h (List.mem_map.2 ⟨q, hq, hn⟩)
  rw [renumber, this]
  rfl

/-- The links of branches that are on both sides. -/
def selfLinks (bs : List Branch) : List (ℕ × ℕ) := bs.map fun b => (b.id, b.id)

@[simp] theorem partOf_selfLinks (bs : List Branch) : partOf (selfLinks bs) = bs.map Branch.id := by
  simp [partOf, selfLinks]

theorem mem_selfLinks {bs : List Branch} {q : ℕ × ℕ} :
    q ∈ selfLinks bs ↔ ∃ b ∈ bs, q = (b.id, b.id) := by
  simp [selfLinks, eq_comm]

/-- Numbers from before keep standing for themselves, and all are renamed in their order. -/
theorem Share.renumber_strictMono {bs : List Branch}
    (h : Share (bs.map Branch.id) next link part whole)
    (grows : Expands next (selfLinks bs) link) (below : ∀ b ∈ bs, b.id < next) :
    (∀ n < next, renumber link n = n) ∧ StrictMonoOn (renumber link) (Set.Iio part.nextId) := by
  have kept : ∀ n < next, renumber link n = n := by
    intro n hn
    by_cases hmem : n ∈ link.map Prod.fst
    · have hold := ((h.numbers n).1 hmem).resolve_right fun hnew => by omega
      obtain ⟨b, hb, rfl⟩ := List.mem_map.1 hold
      exact h.linked.renumber_eq (grows.kept (mem_selfLinks.2 ⟨b, hb, rfl⟩))
    · exact renumber_of_not_mem hmem
  -- New numbers are linked to new ones.
  have new : ∀ n, next ≤ n → n < part.nextId →
      ∃ m, (n, m) ∈ link ∧ renumber link n = m ∧ next ≤ m := by
    intro n hn hlt
    obtain ⟨⟨_, m⟩, hq, rfl⟩ := List.mem_map.1 ((h.numbers n).2 (.inr ⟨hn, hlt⟩))
    refine ⟨m, hq, h.linked.renumber_eq hq, ?_⟩
    rcases grows.new m (List.mem_map.2 ⟨_, hq, rfl⟩) with hold | hnew
    · rw [partOf_selfLinks] at hold
      obtain ⟨b, hb, rfl⟩ := List.mem_map.1 hold
      have self := grows.kept (mem_selfLinks.2 ⟨b, hb, rfl⟩)
      have order := h.linked.order _ self _ hq
      have := below b hb
      dsimp only at hn order
      omega
    · exact hnew
  refine ⟨kept, fun m hm n hn hlt => ?_⟩
  simp only [Set.mem_Iio] at hm hn
  rcases Nat.lt_or_ge n next with hn' | hn'
  · rwa [kept m (hlt.trans hn'), kept n hn']
  · obtain ⟨n', hn_mem, hn_eq, hn_le⟩ := new n hn' hn
    rcases Nat.lt_or_ge m next with hm' | hm'
    · rw [kept m hm', hn_eq]
      omega
    · obtain ⟨m', hm_mem, hm_eq, -⟩ := new m hm' hm
      rw [hm_eq, hn_eq]
      exact (h.linked.order _ hm_mem _ hn_mem).1 hlt

/-! ### Parts of a path -/

/-- The numbers of a part are those that go back to its first ones. -/
theorem Descent.mem_iff_reaches {link' : List (ℕ × ℕ)} {i j : ℕ} {pairs : List (ℕ × ℕ)}
    (h : Descent link link' i pairs) (births : Births i j pairs)
    (below : ∀ n ∈ partOf link', n < j) (n : ℕ) :
    n ∈ partOf link' ↔
      ∃ m ∈ partOf link, Relation.ReflTransGen (fun a b => (a, b) ∈ pairs) m n := by
  constructor
  · intro hn
    induction n using Nat.strongRecOn with
    | ind n ih =>
      rcases h.new n hn with hold | hnew
      · exact ⟨n, hold, .refl⟩
      · obtain ⟨a, ha⟩ := births.noted n hnew (below n hn)
        obtain ⟨m, hm, way⟩ := ih a (births.later _ ha).1 ((h.closed _ ha).1 hn)
        exact ⟨m, hm, way.tail ha⟩
  · rintro ⟨m, hm, way⟩
    induction way with
    | refl => exact h.subset hm
    | tail _ hab ih => exact (h.closed _ hab).2 ih

namespace Path

/-- What comes of the branches `bs` in a run: the branches with the given numbers, running and ended
since. They are what comes of `bs` alone under other numbers, in the same order. Numbers from before
the run are kept, and the new ones are renamed in their order. -/
structure Apart (p : Path) (bs : List Branch) (events : List Record) (numbers : List ℕ) : Prop where
  descend : ∀ n, n ∈ numbers ↔
    ∃ b ∈ bs, Relation.ReflTransGen (fun a c => (a, c) ∈ p.lineage events) b.id n
  renamed : ∃ rename : ℕ → ℕ, (∀ n < p.nextId, rename n = n) ∧
    StrictMonoOn rename (Set.Iio ((p.only bs).onEvents events).1.nextId) ∧
    ((p.onEvents events).1.running.filter fun b => b.id ∈ numbers) =
      ((p.only bs).onEvents events).1.running.map (fun b => { b with id := rename b.id }) ∧
    (((p.onEvents events).1.finished.drop p.finished.length).filter fun f => f.id ∈ numbers) =
      ((p.only bs).onEvents events).1.finished.map fun f => { f with id := rename f.id }

variable {p : Path} {as bs : List Branch}

theorem onEvents_of_closed (h : p.closed = true) (events : List Record) :
    (p.onEvents events).1 = p ∧ p.lineage events = [] := by
  induction events with
  | nil => exact ⟨rfl, rfl⟩
  | cons e rest ih =>
    obtain ⟨run, lineage⟩ := onEvents_cons p e rest
    rw [run, lineage, onEvent_of_closed h]
    exact ih

/-- The new numbers of a run are noted, also if the path is closed. -/
theorem Ledger.births (coherent : S.Coherent) (h : p.Ledger) (within : ∀ b ∈ p.running, b.Within S)
    (events : List Record) :
    Births p.nextId (p.onEvents events).1.nextId (p.lineage events) := by
  cases closed : p.closed with
  | true =>
    obtain ⟨same, quiet⟩ := onEvents_of_closed closed events
    rw [same, quiet]
    exact .nil _
  | false => exact Live.births coherent ⟨within, h, closed⟩ events

/-- A list of branches is found in a longer one by its numbers. -/
theorem filter_of_sublist {cs : List Branch} (sub : bs.Sublist cs)
    (distinct : (cs.map Branch.id).Nodup) :
    (cs.filter fun b => b.id ∈ bs.map Branch.id) = bs := by
  induction sub with
  | slnil => rfl
  | @cons bs cs c sub ih =>
    obtain ⟨first, others⟩ := List.nodup_cons.1 distinct
    have outside : c.id ∉ bs.map Branch.id := fun hc => first ((sub.map Branch.id).subset hc)
    rw [List.filter_cons_of_neg (by simpa using outside)]
    exact ih others
  | @cons_cons bs cs c sub ih =>
    obtain ⟨first, others⟩ := List.nodup_cons.1 distinct
    rw [List.filter_cons_of_pos (by simp)]
    refine congrArg (c :: ·) (Eq.trans (List.filter_congr fun d hd => ?_) (ih others))
    have other : d.id ≠ c.id := fun same => first (same ▸ List.mem_map_of_mem hd)
    simp [other]

theorem Ledger.nodup_ids (h : p.Ledger) :
    (p.running.map Branch.id ++ p.finished.map Finish.id).Nodup :=
  h.numbers.nodup_iff.2 List.nodup_range

/-- Earlier results are of branches that do not run any more. -/
theorem Ledger.no_result (h : p.Ledger) (sub : bs.Sublist p.running) {numbers : List ℕ}
    (old : ∀ n < p.nextId, n ∈ numbers ↔ n ∈ bs.map Branch.id) :
    (p.finished.filter fun f => f.id ∈ numbers) = [] := by
  refine List.filter_eq_nil_iff.2 fun f hf => ?_
  have apart := (List.nodup_append.1 h.nodup_ids).2.2
  simp only [decide_eq_true_eq]
  rw [old f.id (h.finished_id_lt hf)]
  exact fun hmem => apart _ ((sub.map Branch.id).subset hmem) _ (List.mem_map_of_mem hf) rfl

/-- Before the run the branches `bs` are what comes of them. -/
theorem Ledger.share (h : p.Ledger) (sub : bs.Sublist p.running) :
    Share (bs.map Branch.id) p.nextId (selfLinks bs) (p.only bs) p := by
  have distinct := List.nodup_append.1 h.nodup_ids
  refine ⟨⟨fun q hq => ?_, fun q hq r hr => ?_⟩, le_rfl, fun n => ?_, ?_, ?_⟩
  · obtain ⟨b, hb, rfl⟩ := mem_selfLinks.1 hq
    exact ⟨h.id_lt (sub.subset hb), h.id_lt (sub.subset hb)⟩
  · obtain ⟨b, -, rfl⟩ := mem_selfLinks.1 hq
    obtain ⟨c, -, rfl⟩ := mem_selfLinks.1 hr
    exact Iff.rfl
  · have firsts : (selfLinks bs).map Prod.fst = bs.map Branch.id := by simp [selfLinks]
    have no_new : ¬(p.nextId ≤ n ∧ n < (p.only bs).nextId) := by
      show ¬(p.nextId ≤ n ∧ n < p.nextId)
      omega
    rw [firsts, or_iff_left no_new]
  · rw [partOf_selfLinks, filter_of_sublist sub distinct.1]
    exact List.forall₂_same.2 fun b hb => ⟨rfl, mem_selfLinks.2 ⟨b, hb, rfl⟩⟩
  · rw [h.no_result sub fun n _ => by rw [partOf_selfLinks]]
    exact .nil

/-- After the run it is those of a share. -/
theorem Ledger.share_onEvents (coherent : S.Coherent) (h : p.Ledger)
    (within : ∀ b ∈ p.running, b.Within S) (sub : bs.Sublist p.running) (events : List Record) :
    ∃ link, Share (bs.map Branch.id) p.nextId link ((p.only bs).onEvents events).1
        (p.onEvents events).1 ∧
      Descent (selfLinks bs) link p.nextId (p.lineage events) := by
  cases closed : p.closed with
  | true =>
    have alone : (p.only bs).closed = true := closed
    obtain ⟨same, quiet⟩ := onEvents_of_closed closed events
    rw [same, quiet, (onEvents_of_closed alone events).1]
    exact ⟨selfLinks bs, h.share sub, .refl _ _, by simp⟩
  | false =>
    have alone : (p.only bs).Orderly S :=
      ⟨fun b hb => within b (sub.subset hb), h.ascending.sublist sub,
        fun b hb => h.id_lt (sub.subset hb), closed⟩
    exact (h.share sub).onEvents coherent alone ⟨within, h, closed⟩ events

/-- Earlier results stay. -/
theorem finished_prefix_onEvents (p : Path) (events : List Record) :
    p.finished <+: (p.onEvents events).1.finished := by
  rw [onEvents_eq]
  induction events generalizing p with
  | nil => exact List.prefix_rfl
  | cons e rest ih => exact (finished_prefix_apply p (.event e)).trans (ih _)

/-- **What comes of some branches is what would come of them alone.** Whether a branch belongs to
them is handed down to those that follow from it, and the branches from before belong to them if
they are among them. -/
theorem Ledger.apart (coherent : S.Coherent) (h : p.Ledger) (within : ∀ b ∈ p.running, b.Within S)
    (sub : bs.Sublist p.running) (events : List Record) :
    ∃ numbers, p.Apart bs events numbers ∧
      (∀ q ∈ p.lineage events, q.2 ∈ numbers ↔ q.1 ∈ numbers) ∧
      ∀ n < p.nextId, n ∈ numbers ↔ n ∈ bs.map Branch.id := by
  obtain ⟨link, share, descent⟩ := h.share_onEvents coherent within sub events
  obtain ⟨kept, ascending⟩ :=
    share.renumber_strictMono descent.toExpands fun b hb => h.id_lt (sub.subset hb)
  have old : ∀ n < p.nextId, n ∈ partOf link ↔ n ∈ bs.map Branch.id := by
    intro n hn
    rw [descent.mem_iff hn, partOf_selfLinks]
  refine ⟨partOf link, ⟨fun n => ?_, renumber link, kept, ascending, ?_, ?_⟩, descent.closed, old⟩
  · rw [descent.mem_iff_reaches (h.births coherent within events)
      fun _ hn => share.linked.lt_of_mem_part hn]
    simp
  · refine eq_map_of_forall₂ (fun b c hbc => ?_) share.running
    obtain ⟨strand, hlink⟩ := hbc
    rw [share.linked.renumber_eq hlink]
    exact congrArg (Strand.branch · c.id) strand
  · obtain ⟨new, split⟩ := finished_prefix_onEvents p events
    have finished := share.finished
    rw [← split, List.filter_append, h.no_result sub old, List.nil_append] at finished
    rw [← split, List.drop_left]
    refine eq_map_of_forall₂ (fun f g hfg => ?_) finished
    obtain ⟨ending, hlink⟩ := hfg
    rw [share.linked.renumber_eq hlink]
    cases f
    cases g
    simp only [Finish.ending, Ending.inside, Ending.mk.injEq] at ending
    simp [ending, heading]

/-! ### Two parts -/

theorem Ledger.onEvents (h : p.Ledger) (within : ∀ b ∈ p.running, b.Within S)
    (events : List Record) : (p.onEvents events).1.Ledger := by
  cases closed : p.closed with
  | true =>
    rw [(onEvents_of_closed closed events).1]
    exact h
  | false => exact (Live.onEvents ⟨within, h, closed⟩ events).ledger

/-- The branches that run after a run, and those that have ended in it, ran before it or are new. -/
theorem Ledger.old_or_new (h : p.Ledger) (within : ∀ b ∈ p.running, b.Within S)
    (events : List Record) {n : ℕ} (hn : n ∈ (p.onEvents events).1.running.map Branch.id ++
      ((p.onEvents events).1.finished.drop p.finished.length).map Finish.id) :
    n ∈ p.running.map Branch.id ∨ p.nextId ≤ n ∧ n < (p.onEvents events).1.nextId := by
  obtain ⟨later, split⟩ := finished_prefix_onEvents p events
  have ledger := h.onEvents within events
  rw [← split, List.drop_left] at hn
  have distinct := ledger.nodup_ids
  have numbers := ledger.numbers.mem_iff (a := n)
  rw [← split, List.map_append] at distinct numbers
  have given : n < (p.onEvents events).1.nextId := by
    refine List.mem_range.1 (numbers.1 ?_)
    rcases List.mem_append.1 hn with hrun | hend
    · exact List.mem_append_left _ hrun
    · exact List.mem_append_right _ (List.mem_append_right _ hend)
  rcases Nat.lt_or_ge n p.nextId with hlt | hle
  · left
    rcases List.mem_append.1 (h.numbers.mem_iff.2 (List.mem_range.2 hlt)) with hrun | hend
    · exact hrun
    · -- A branch that had ended before does neither run nor end again.
      obtain ⟨-, ended, apart⟩ := List.nodup_append.1 distinct
      rcases List.mem_append.1 hn with hnow | hlater
      · exact absurd rfl (apart n hnow n (List.mem_append_left _ hend))
      · exact absurd rfl ((List.nodup_append.1 ended).2.2 n hend n hlater)
  · exact .inr ⟨hle, given⟩

/-- What holds of the branches that ran before, and is handed down, holds of all that come of them. -/
theorem Ledger.handed_down (coherent : S.Coherent) (h : p.Ledger)
    (within : ∀ b ∈ p.running, b.Within S) (events : List Record) (own : ℕ → Prop)
    (first : ∀ n ∈ p.running.map Branch.id, own n)
    (down : ∀ q ∈ p.lineage events, own q.1 → own q.2) {n : ℕ}
    (hn : n ∈ p.running.map Branch.id ∨ p.nextId ≤ n ∧ n < (p.onEvents events).1.nextId) :
    own n := by
  have births := h.births coherent within events
  have parents : ∀ q ∈ p.lineage events, q.1 ∈ p.running.map Branch.id ∨ p.nextId ≤ q.1 := by
    cases closed : p.closed with
    | true => simp [(onEvents_of_closed closed events).2]
    | false => exact Live.parents coherent ⟨within, h, closed⟩ events
  induction n using Nat.strongRecOn with
  | ind n ih =>
    rcases hn with hold | ⟨hle, hlt⟩
    · exact first n hold
    · obtain ⟨a, ha⟩ := births.noted n hle hlt
      have earlier := (births.later _ ha).1
      refine down _ ha (ih a earlier ((parents _ ha).imp_right fun hnew => ⟨hnew, ?_⟩))
      exact earlier.trans hlt

/-- **Running branches do not influence each other.** If those of a path are split into two parts,
what comes of them in a run is what comes of each part alone, up to the order of new numbers. In
particular the errors and crashes in one part do not touch the other one. -/
theorem split_apart {tree : Expr} (valid : tree.defect? = none) (coherent : tree.Coherent) (id : ℕ)
    (name : Option String) (initial : Captures) (acts : List Act) {as bs : List Branch}
    (left : as.Sublist ((start id name tree initial).after acts).running)
    (right : bs.Sublist ((start id name tree initial).after acts).running)
    (both : (as ++ bs).Perm ((start id name tree initial).after acts).running)
    (events : List Record) :
    let p := (start id name tree initial).after acts
    let whole := (p.onEvents events).1
    ∃ mine yours : List ℕ, p.Apart as events mine ∧ p.Apart bs events yours ∧
      mine.Disjoint yours ∧ (∀ b ∈ whole.running, b.id ∈ mine ∨ b.id ∈ yours) ∧
      ∀ f ∈ whole.finished.drop p.finished.length, f.id ∈ mine ∨ f.id ∈ yours := by
  intro p whole
  have tree_within : tree.Within (Scope.of tree) :=
    Expr.within_of_valid valid (fun _ h => h) fun _ h => h
  have coherent_scope := Scope.coherent_of coherent
  have within : ∀ b ∈ p.running, b.Within (Scope.of tree) := within_after tree_within acts
  have ledger : p.Ledger := ledger_of_within tree_within id name initial acts
  obtain ⟨mine, apart, down, old⟩ := ledger.apart coherent_scope within left events
  obtain ⟨yours, apart', down', old'⟩ := ledger.apart coherent_scope within right events
  have ids := both.map Branch.id
  rw [List.map_append] at ids
  have running_lt : ∀ n ∈ p.running.map Branch.id, n < p.nextId := by
    intro n hn
    obtain ⟨b, hb, rfl⟩ := List.mem_map.1 hn
    exact ledger.id_lt hb
  have cover : ∀ n ∈ whole.running.map Branch.id ++
      (whole.finished.drop p.finished.length).map Finish.id, n ∈ mine ∨ n ∈ yours := by
    intro n hn
    refine ledger.handed_down coherent_scope within events (fun n => n ∈ mine ∨ n ∈ yours)
      (fun n hn => ?_) (fun q hq => ?_) (ledger.old_or_new within events hn)
    · rw [old n (running_lt n hn), old' n (running_lt n hn)]
      exact List.mem_append.1 (ids.mem_iff.2 hn)
    · rw [down q hq, down' q hq]
      exact fun h => h
  have disjoint : mine.Disjoint yours := by
    intro n hmine hyours
    obtain ⟨b, hb, way⟩ := (apart.descend n).1 hmine
    -- Going back from the branch, both parts have the one in `as` that it comes from.
    induction way with
    | refl =>
      have hlt := ledger.id_lt (left.subset hb)
      have distinct := List.nodup_append.1 (ids.nodup_iff.2 (List.nodup_append.1 ledger.nodup_ids).1)
      exact distinct.2.2 _ (List.mem_map_of_mem hb) _ ((old' b.id hlt).1 hyours) rfl
    | tail way hab ih => exact ih ((down _ hab).1 hmine) ((down' _ hab).1 hyours)
  exact ⟨mine, yours, apart, apart', disjoint, fun b hb =>
    cover b.id (List.mem_append_left _ (List.mem_map_of_mem hb)), fun f hf =>
    cover f.id (List.mem_append_right _ (List.mem_map_of_mem hf))⟩

/-- Two routers, whose groups get numbers in turn. An error ends a group of the first one. -/
theorem split_apart_two_routers :
    let stops : Condition := .onEvent fun event =>
      if event.message = "stop" then .error (.evaluation "stopped") else .pure false
    let host : KeyExtractor := ⟨0, "host", .property "host"⟩
    let path : KeyExtractor := ⟨1, "path", .property "path"⟩
    let tree : Expr := .filter .always [.groupBy host (.event stops),
      .groupBy path (.sequence [.event .always, .event (.propertyEquals "n" .null)])]
    let event (host message : String) : Record :=
      ⟨"", "", message, .epoch, [.string "host" host, .string "path" ("/" ++ host)]⟩
    let p := (start 1 none tree .empty).after [.event (event "a" "")]
    let events := [event "b" "", event "a" "stop", event "c" ""]
    tree.defect? = none ∧ tree.Coherent ∧ (p.running.take 1).Sublist p.running ∧
      (p.running.drop 1).Sublist p.running ∧
      (p.running.take 1 ++ p.running.drop 1).Perm p.running ∧
      ∃ mine yours, p.Apart (p.running.take 1) events mine ∧
        p.Apart (p.running.drop 1) events yours ∧ mine.Disjoint yours := by
  intro stops host path tree event p events
  have valid : tree.defect? = none := by decide
  have coherent : tree.Coherent := by
    intro j hj k hk same
    have two : ∀ k, k ∈ tree.extractors → k = host ∨ k = path := by
      intro k hk
      simpa [tree, Expr.extractors, Expr.extractorsOf] using hk
    rcases two j hj with rfl | rfl <;> rcases two k hk with rfl | rfl <;> simp_all [host, path]
  have left : (p.running.take 1).Sublist p.running := List.take_sublist 1 _
  have right : (p.running.drop 1).Sublist p.running := List.drop_sublist 1 _
  have both : (p.running.take 1 ++ p.running.drop 1).Perm p.running := by
    rw [List.take_append_drop]
  obtain ⟨mine, yours, apart, apart', disjoint, -⟩ :=
    split_apart valid coherent 1 none .empty [.event (event "a" "")] left right both events
  exact ⟨valid, coherent, left, right, both, mine, yours, apart, apart', disjoint⟩

end Path

end TracePattern
