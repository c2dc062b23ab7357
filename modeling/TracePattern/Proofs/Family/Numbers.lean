import TracePattern.Proofs.Family.Inside

/-!
# Numbers of branches that correspond

What follows from a branch has its number or new ones, and each new number is noted with the branch
it is due to.  When branches of two paths correspond and react alike, what follows from them
corresponds too: further numbers are given in the same order on both sides.

* `Numbered`: where the numbers in the effects of a reaction come from;
* `Reaction.deliver_numbered`: it holds of all reactions;
* `Bounded`: effects whose numbers have been given;
* `extend`, `Mirrors`, `Tracks`: effects on two sides that correspond, through a list of pairs of
  numbers;
* `Reaction.deliver_tracks`: alike reactions have effects that correspond.
-/

namespace TracePattern

/-! ### Where numbers come from -/

/-- The effects are of branches with the given numbers and with new ones. A new number is noted
together with a smaller one. -/
structure Numbered (ids : List ℕ) (t : Tally) (y : Effects × Tally) : Prop where
  grows : t.nextId ≤ y.2.nextId
  running : ∀ b ∈ y.1.running, b.id ∈ ids ∨ t.nextId ≤ b.id ∧ b.id < y.2.nextId
  finished : ∀ f ∈ y.1.finished, f.id ∈ ids ∨ t.nextId ≤ f.id ∧ f.id < y.2.nextId
  parent : ∀ q ∈ Note.lineage y.1.notes,
    (q.1 ∈ ids ∨ t.nextId ≤ q.1) ∧ q.1 < q.2 ∧ t.nextId ≤ q.2 ∧ q.2 < y.2.nextId
  child : ∀ m, t.nextId ≤ m → m < y.2.nextId → ∃ a, (a, m) ∈ Note.lineage y.1.notes

/-- New branches are noted with the one that they follow from. -/
theorem lineage_noteNumbers {id next : ℕ} (h : id < next) (n : ℕ) :
    Note.lineage (noteNumbers id (List.range' next n)).notes =
      (List.range' next n).map (id, ·) := by
  have all_new : (List.range' next n).filter (fun i => i ≠ id) = List.range' next n := by
    refine List.filter_eq_self.2 fun i hi => ?_
    have := (List.mem_range'_1.1 hi).1
    simp only [ne_eq, decide_not, Bool.not_eq_true', decide_eq_false_iff_not]
    omega
  unfold noteNumbers Effects.note
  rw [all_new, Note.lineage, List.filterMap_map]
  show List.filterMap (some ∘ (id, ·)) _ = _
  rw [List.filterMap_eq_map]

theorem noteNumbers_cons (id : ℕ) (ids : List ℕ) :
    noteNumbers id (id :: ids) = noteNumbers id ids := by
  simp [noteNumbers]

namespace Numbered

variable {id : ℕ} {as bs : List ℕ} {t u : Tally} {e : Effects} {y : Effects × Tally}

theorem append (h : Numbered as t (e, u)) (h' : Numbered bs u y) :
    Numbered (as ++ bs) t (e ++ y.1, y.2) := by
  have first := h.grows
  have second := h'.grows
  dsimp only at first
  refine ⟨by dsimp only; omega, fun b hb => ?_, fun f hf => ?_, fun q hq => ?_, fun m hm hlt => ?_⟩
  · rcases List.mem_append.1 hb with hb | hb
    · rcases h.running b hb with hid | hid
      · exact .inl (List.mem_append_left _ hid)
      · exact .inr ⟨hid.1, Nat.lt_of_lt_of_le hid.2 second⟩
    · rcases h'.running b hb with hid | hid
      · exact .inl (List.mem_append_right _ hid)
      · exact .inr ⟨first.trans hid.1, hid.2⟩
  · rcases List.mem_append.1 hf with hf | hf
    · rcases h.finished f hf with hid | hid
      · exact .inl (List.mem_append_left _ hid)
      · exact .inr ⟨hid.1, Nat.lt_of_lt_of_le hid.2 second⟩
    · rcases h'.finished f hf with hid | hid
      · exact .inl (List.mem_append_right _ hid)
      · exact .inr ⟨first.trans hid.1, hid.2⟩
  · rw [Effects.notes_append, Note.lineage_append] at hq
    rcases List.mem_append.1 hq with hq | hq
    · obtain ⟨hp, hlt, hm, hu⟩ := h.parent q hq
      exact ⟨hp.imp_left (List.mem_append_left _), hlt, hm, Nat.lt_of_lt_of_le hu second⟩
    · obtain ⟨hp, hlt, hm, hu⟩ := h'.parent q hq
      refine ⟨?_, hlt, first.trans hm, hu⟩
      rcases hp with hp | hp
      · exact .inl (List.mem_append_right _ hp)
      · exact .inr (first.trans hp)
  · rw [Effects.notes_append, Note.lineage_append]
    rcases Nat.lt_or_ge m u.nextId with hu | hu
    · obtain ⟨a, ha⟩ := h.child m hm hu
      exact ⟨a, List.mem_append_left _ ha⟩
    · obtain ⟨a, ha⟩ := h'.child m hu hlt
      exact ⟨a, List.mem_append_right _ ha⟩

theorem none (ids : List ℕ) (t : Tally) : Numbered ids t (.none, t) := by
  refine ⟨le_rfl, by simp [Effects.none], by simp [Effects.none],
    by simp [Effects.none, Note.lineage], fun m hm hlt => ?_⟩
  dsimp only at hlt
  omega

/-- A branch that runs on or has ended. -/
theorem alone (running : ∀ b ∈ e.running, b.id = id) (finished : ∀ f ∈ e.finished, f.id = id)
    (quiet : Note.lineage e.notes = []) : Numbered [id] t (e, t) := by
  refine ⟨le_rfl, fun b hb => ?_, fun f hf => ?_, fun q hq => ?_, fun m hm hlt => ?_⟩
  · exact .inl (List.mem_singleton.2 (running b hb))
  · exact .inl (List.mem_singleton.2 (finished f hf))
  · rw [quiet] at hq
    cases hq
  · dsimp only at hlt
    omega

/-- New branches, noted with the one that they follow from, and what follows from them. -/
theorem noteNumbers_append {ids : List ℕ} (hid : id < t.nextId) (n : ℕ)
    (hids : ∀ i ∈ ids, i = id ∨ t.nextId ≤ i ∧ i < t.nextId + n)
    (h : Numbered ids (t.allocate n) y) :
    Numbered [id] t (noteNumbers id (List.range' t.nextId n) ++ y.1, y.2) := by
  have grows : t.nextId + n ≤ y.2.nextId := h.grows
  have own : ∀ i, i ∈ ids ∨ t.nextId + n ≤ i ∧ i < y.2.nextId →
      i ∈ [id] ∨ t.nextId ≤ i ∧ i < y.2.nextId := by
    intro i hi
    rcases hi with hi | hi
    · rcases hids i hi with rfl | hi
      · exact .inl (List.mem_singleton_self _)
      · exact .inr ⟨hi.1, by omega⟩
    · exact .inr ⟨by omega, hi.2⟩
  have notes : Note.lineage (noteNumbers id (List.range' t.nextId n) ++ y.1).notes =
      (List.range' t.nextId n).map (id, ·) ++ Note.lineage y.1.notes := by
    rw [Effects.notes_append, Note.lineage_append, lineage_noteNumbers hid]
  refine ⟨by dsimp only; omega, fun b hb => own _ (h.running b hb),
    fun f hf => own _ (h.finished f hf), fun q hq => ?_, fun m hm hlt => ?_⟩
  · dsimp only at hq
    rw [notes] at hq
    rcases List.mem_append.1 hq with hq | hq
    · obtain ⟨m, hm, rfl⟩ := List.mem_map.1 hq
      have := List.mem_range'_1.1 hm
      refine ⟨.inl (List.mem_singleton_self _), ?_, this.1, ?_⟩
      · dsimp only
        omega
      · dsimp only
        omega
    · obtain ⟨hp, hless, hm, hu⟩ := h.parent q hq
      simp only [Tally.allocate] at hp hm
      refine ⟨?_, hless, by omega, hu⟩
      rcases hp with hp | hp
      · rcases hids q.1 hp with hp | hp
        · exact .inl (List.mem_singleton.2 hp)
        · exact .inr hp.1
      · exact .inr (by omega)
  · dsimp only
    rw [notes]
    rcases Nat.lt_or_ge m (t.nextId + n) with hn | hn
    · exact ⟨id, List.mem_append_left _ (List.mem_map.2 ⟨m, List.mem_range'_1.2 ⟨hm, hn⟩, rfl⟩)⟩
    · obtain ⟨a, ha⟩ := h.child m hn hlt
      exact ⟨a, List.mem_append_right _ ha⟩

end Numbered

theorem complete_numbered {path : ℕ} {b : Branch} {t : Tally} (hid : b.id < t.nextId) :
    Numbered [b.id] t (b.complete path t) := by
  unfold Branch.complete
  dsimp only
  split
  · refine .alone (by simp) (fun f hf => ?_) rfl
    rw [List.mem_singleton.1 hf]
    rfl
  · rename_i outer children index hnext
    by_cases hs : startsAt children index = []
    · rw [hs]
      exact .alone (by simp [Branch.carryOn]) (by simp) rfl
    · -- The first of the branches that follow keeps the number, and the others are noted.
      have ids := Branch.ids_carryOn b outer t.nextId hs
      have noted : ∀ (running : List Branch) (finished : List Finish) (reports : List Report)
          (notes : List Note), (⟨running, finished, reports, notes⟩ : Effects) =
            .note notes ++ ⟨running, finished, reports, []⟩ := by
        intro running finished reports notes
        show _ = Effects.append _ _
        simp [Effects.append, Effects.note]
      rw [noted, noteNumbers_eq, ids, noteNumbers_cons, Branch.length_carryOn]
      have own : ∀ i ∈ b.id :: List.range' t.nextId ((startsAt children index).length - 1),
          i = b.id ∨ t.nextId ≤ i ∧ i < t.nextId + ((startsAt children index).length - 1) := by
        intro i hi
        rcases List.mem_cons.1 hi with rfl | hi
        · exact .inl rfl
        · exact .inr (List.mem_range'_1.1 hi)
      refine Numbered.noteNumbers_append (y := (_, t.allocate _)) hid _ own ?_
      refine ⟨le_rfl, fun c hc => .inl ?_, by simp, by simp [Note.lineage], fun m hm hlt => ?_⟩
      · rw [← ids]
        exact List.mem_map_of_mem hc
      · dsimp only at hlt
        omega

mutual
/-- **What follows from a branch has its number or new ones.** -/
theorem Reaction.deliver_numbered (path : ℕ) {id : ℕ} (r : Reaction) {t : Tally}
    (hid : id < t.nextId) : Numbered [id] t (r.deliver path id t) := by
  match r with
  | .stay s => exact .alone (by simp [Effects.run, Strand.branch]) (by simp [Effects.run]) rfl
  | .fail s e =>
    exact .alone (by simp [Branch.fail]) (by simp [Branch.fail, Branch.finish, Strand.branch]) rfl
  | .leave s => exact complete_numbered (b := s.branch id) hid
  | .descend followers =>
    have inner := deliverAll_numbered path (id :: List.range' t.nextId (followers.length - 1))
      followers (t := t.allocate (followers.length - 1)) (by
        intro i hi
        simp only [Tally.allocate]
        rcases List.mem_cons.1 hi with rfl | hi
        · omega
        · have := List.mem_range'_1.1 hi
          omega)
    rw [deliver, noteNumbers_cons]
    refine Numbered.noteNumbers_append hid _ (fun i hi => ?_) inner
    rcases List.mem_cons.1 hi with rfl | hi
    · exact .inl rfl
    · exact .inr (List.mem_range'_1.1 hi)
  | .group router members =>
    have inner := deliverAll_numbered path (List.range' t.nextId members.length)
      members (t := t.allocate members.length) (by
        intro i hi
        have := List.mem_range'_1.1 hi
        simp only [Tally.allocate]
        omega)
    have members_numbered :=
      Numbered.noteNumbers_append hid _ (fun i hi => .inr (List.mem_range'_1.1 hi)) inner
    -- The router keeps its number, and all members are new.
    have router_numbered : Numbered [id] t (.run (router.branch id), t) :=
      .alone (by simp [Effects.run, Strand.branch]) (by simp [Effects.run]) rfl
    have both := router_numbered.append members_numbered
    rw [deliver, Effects.append_assoc]
    refine ⟨both.grows, fun b hb => ?_, fun f hf => ?_, fun q hq => ?_, both.child⟩
    · simpa using both.running b hb
    · simpa using both.finished f hf
    · simpa using both.parent q hq

theorem Reaction.deliverAll_numbered (path : ℕ) (ids : List ℕ) (rs : List Reaction) {t : Tally}
    (hids : ∀ i ∈ ids, i < t.nextId) : Numbered ids t (deliverAll path ids rs t) := by
  match ids, rs with
  | [], rs =>
    rw [deliverAll]
    exact .none [] t
  | i :: ids, [] => exact .none _ t
  | i :: ids, r :: rest =>
    have first := deliver_numbered path r (hids i List.mem_cons_self)
    have others := deliverAll_numbered path ids rest (t := (r.deliver path i t).2) (by
      intro j hj
      exact Nat.lt_of_lt_of_le (hids j (List.mem_cons_of_mem _ hj)) first.grows)
    exact first.append others
end

/-- All numbers in the effects have been given, and new ones are noted with smaller ones. -/
structure Bounded (y : Effects × Tally) : Prop where
  running : ∀ b ∈ y.1.running, b.id < y.2.nextId
  finished : ∀ f ∈ y.1.finished, f.id < y.2.nextId
  parent : ∀ q ∈ Note.lineage y.1.notes, q.1 < q.2 ∧ q.2 < y.2.nextId

theorem Numbered.bounded {ids : List ℕ} {t : Tally} {y : Effects × Tally} (h : Numbered ids t y)
    (hids : ∀ i ∈ ids, i < t.nextId) : Bounded y := by
  have bound : ∀ n, n ∈ ids ∨ t.nextId ≤ n ∧ n < y.2.nextId → n < y.2.nextId := by
    intro n hn
    rcases hn with hn | hn
    · exact (hids n hn).trans_le h.grows
    · exact hn.2
  exact ⟨fun b hb => bound _ (h.running b hb), fun f hf => bound _ (h.finished f hf),
    fun q hq => ⟨(h.parent q hq).2.1, (h.parent q hq).2.2.2⟩⟩

theorem Bounded.append {e : Effects} {u : Tally} {y : Effects × Tally} (h : Bounded (e, u))
    (h' : Bounded y) (grows : u.nextId ≤ y.2.nextId) : Bounded (e ++ y.1, y.2) := by
  refine ⟨fun b hb => ?_, fun f hf => ?_, fun q hq => ?_⟩
  · rcases List.mem_append.1 hb with hb | hb
    · exact (h.running b hb).trans_le grows
    · exact h'.running b hb
  · rcases List.mem_append.1 hf with hf | hf
    · exact (h.finished f hf).trans_le grows
    · exact h'.finished f hf
  · rw [Effects.notes_append, Note.lineage_append] at hq
    rcases List.mem_append.1 hq with hq | hq
    · exact ⟨(h.parent q hq).1, (h.parent q hq).2.trans_le grows⟩
    · exact h'.parent q hq

/-! ### Effects that correspond -/

/-- Ranges of numbers, one after another. -/
theorem range'_append_range' {i j k : ℕ} (hij : i ≤ j) (hjk : j ≤ k) :
    List.range' i (j - i) ++ List.range' j (k - j) = List.range' i (k - i) := by
  have split := List.range'_append_1 (s := i) (m := j - i) (n := k - j)
  rw [Nat.add_sub_cancel' hij] at split
  rw [split]
  congr 1
  omega

/-- Pairs of numbers with `n` further ones, given in the same order on both sides. -/
def extend (link : List (ℕ × ℕ)) (i j n : ℕ) : List (ℕ × ℕ) :=
  link ++ (List.range' i n).zip (List.range' j n)

theorem extend_zero (link : List (ℕ × ℕ)) (i j : ℕ) : extend link i j 0 = link := by
  simp [extend]

theorem extend_add (link : List (ℕ × ℕ)) (i j m n : ℕ) :
    extend (extend link i j m) (i + m) (j + m) n = extend link i j (m + n) := by
  simp only [extend, ← List.range'_append_1, List.append_assoc]
  rw [List.zip_append (by simp)]

theorem mem_extend {link : List (ℕ × ℕ)} {q : ℕ × ℕ} (h : q ∈ link) (i j n : ℕ) :
    q ∈ extend link i j n := List.mem_append_left _ h

/-- New numbers correspond in their order. -/
theorem forall₂_extend (link : List (ℕ × ℕ)) (i j n : ℕ) :
    List.Forall₂ (fun a b => (a, b) ∈ extend link i j n) (List.range' i n) (List.range' j n) :=
  List.forall₂_iff_zip.2 ⟨by simp, fun h => List.mem_append_right _ h⟩

/-- A branch of one path and one of another, further in, with numbers that are linked. -/
def AlikeRunning (outer : List Frame) (link : List (ℕ × ℕ)) (b c : Branch) : Prop :=
  c.strand = b.strand.inside outer ∧ (b.id, c.id) ∈ link

/-- The same for ended branches. -/
def AlikeFinished (outer : List Frame) (link : List (ℕ × ℕ)) (f g : Finish) : Prop :=
  g.ending = f.ending.inside outer ∧ (f.id, g.id) ∈ link

/-- Effects on two sides that correspond. -/
structure Mirrors (outer : List Frame) (link : List (ℕ × ℕ)) (x y : Effects) : Prop where
  running : List.Forall₂ (AlikeRunning outer link) x.running y.running
  finished : List.Forall₂ (AlikeFinished outer link) x.finished y.finished

/-- Effects on two sides that correspond through linked numbers and the new ones. -/
def Tracks (outer : List Frame) (link : List (ℕ × ℕ)) (t u : Tally) (x y : Effects × Tally) :
    Prop :=
  ∃ n, x.2.nextId = t.nextId + n ∧ y.2.nextId = u.nextId + n ∧
    Mirrors outer (extend link t.nextId u.nextId n) x.1 y.1

section

variable {link link' : List (ℕ × ℕ)} {t u : Tally}

theorem AlikeRunning.mono (h : link ⊆ link') {b c : Branch} (hbc : AlikeRunning outer link b c) :
    AlikeRunning outer link' b c := ⟨hbc.1, h hbc.2⟩

theorem AlikeFinished.mono (h : link ⊆ link') {f g : Finish} (hfg : AlikeFinished outer link f g) :
    AlikeFinished outer link' f g := ⟨hfg.1, h hfg.2⟩

namespace Mirrors

variable {x x' y y' : Effects}

theorem mono (h : link ⊆ link') (hxy : Mirrors outer link x y) : Mirrors outer link' x y :=
  ⟨hxy.running.imp fun _ _ => .mono h, hxy.finished.imp fun _ _ => .mono h⟩

theorem append (h : Mirrors outer link x y) (h' : Mirrors outer link x' y') :
    Mirrors outer link (x ++ x') (y ++ y') :=
  ⟨List.rel_append h.running h'.running, List.rel_append h.finished h'.finished⟩

/-- Notes do not count. -/
theorem noted (h : Mirrors outer link x y) (notes notes' : List Note) :
    Mirrors outer link (.note notes ++ x) (.note notes' ++ y) := ⟨h.running, h.finished⟩

theorem none (outer : List Frame) (link : List (ℕ × ℕ)) : Mirrors outer link .none .none :=
  ⟨.nil, .nil⟩

theorem run {s : Strand} {id id' : ℕ} (h : (id, id') ∈ link) :
    Mirrors outer link (.run (s.branch id)) (.run ((s.inside outer).branch id')) :=
  ⟨.cons ⟨rfl, h⟩ .nil, .nil⟩

end Mirrors

/-- New branches at the same starts. -/
theorem alike_launch (captures : Captures) (frames : List Frame) (starts : List Start) {i j : ℕ}
    (h : List.Forall₂ (fun a b => (a, b) ∈ link) (List.range' i starts.length)
      (List.range' j starts.length)) :
    List.Forall₂ (AlikeRunning outer link) (Branch.launch captures frames starts i)
      (Branch.launch captures (outer ++ frames) starts j) := by
  induction starts generalizing i j with
  | nil => exact .nil
  | cons s rest ih =>
    simp only [List.length_cons, List.range'_succ, List.forall₂_cons] at h
    refine .cons ⟨?_, h.1⟩ (ih h.2)
    simp [Branch.strand, Strand.inside]

namespace Tracks

variable {x y : Effects × Tally}

/-- No new numbers. -/
theorem of_mirrors {e f : Effects} (h : Mirrors outer link e f) :
    Tracks outer link t u (e, t) (f, u) :=
  ⟨0, rfl, rfl, by rwa [extend_zero]⟩

/-- New numbers first. -/
theorem allocate {n : ℕ}
    (h : Tracks outer (extend link t.nextId u.nextId n) (t.allocate n) (u.allocate n) x y) :
    Tracks outer link t u x y := by
  obtain ⟨m, hx, hy, mirrors⟩ := h
  simp only [Tally.allocate] at hx hy mirrors
  refine ⟨n + m, by omega, by omega, ?_⟩
  rwa [extend_add] at mirrors

/-- Notes do not count. -/
theorem noted (h : Tracks outer link t u x y) (notes notes' : List Note) :
    Tracks outer link t u (.note notes ++ x.1, x.2) (.note notes' ++ y.1, y.2) := by
  obtain ⟨n, hx, hy, mirrors⟩ := h
  exact ⟨n, hx, hy, mirrors.noted notes notes'⟩

/-- Effects that correspond first. -/
theorem before {e f : Effects} (h : Mirrors outer link e f) (h' : Tracks outer link t u x y) :
    Tracks outer link t u (e ++ x.1, x.2) (f ++ y.1, y.2) := by
  obtain ⟨n, hx, hy, mirrors⟩ := h'
  exact ⟨n, hx, hy, (h.mono fun q hq => mem_extend hq _ _ _).append mirrors⟩

/-- One part after another. -/
theorem append {e f : Effects} {t' u' : Tally} (h : Tracks outer link t u (e, t') (f, u'))
    (h' : ∀ n, t'.nextId = t.nextId + n → u'.nextId = u.nextId + n →
      Tracks outer (extend link t.nextId u.nextId n) t' u' x y) :
    Tracks outer link t u (e ++ x.1, x.2) (f ++ y.1, y.2) := by
  obtain ⟨n, ht, hu, mirrors⟩ := h
  dsimp only at ht hu mirrors
  obtain ⟨m, hx, hy, mirrors'⟩ := h' n ht hu
  rw [ht, hu, extend_add] at mirrors'
  refine ⟨n + m, by dsimp only; omega, by dsimp only; omega, ?_⟩
  refine (mirrors.mono ?_).append mirrors'
  rw [← extend_add]
  exact fun q hq => mem_extend hq _ _ _

end Tracks

/-- A branch that leaves its node. -/
theorem complete_tracks (groups : OfGroups outer) {path path' id id' : ℕ} (h : (id, id') ∈ link)
    (s : Strand) :
    Tracks outer link t u ((s.branch id).complete path t)
      (((s.inside outer).branch id').complete path' u) := by
  have unwound : unwind ((s.inside outer).branch id').frames = _ := unwind_inside groups s.frames
  unfold Branch.complete
  dsimp only
  rw [unwound, show (s.branch id).frames = s.frames from rfl]
  cases (unwind s.frames).next with
  | none => exact .of_mirrors ⟨.nil, .cons ⟨s.ending_inside _ _, h⟩ .nil⟩
  | some next =>
    obtain ⟨frames, children, index⟩ := next
    dsimp only [Option.map_some]
    simp only [Branch.length_carryOn]
    refine Tracks.allocate (.of_mirrors ⟨?_, .nil⟩)
    cases startsAt children index with
    | nil => exact .nil
    | cons start rest =>
      refine .cons ⟨?_, mem_extend h _ _ _⟩ (alike_launch _ _ _ ?_)
      · simp [Branch.strand, Strand.inside, Strand.branch]
      · exact forall₂_extend link t.nextId u.nextId _

end

mutual
/-- **Alike reactions have effects that correspond.** -/
theorem Reaction.deliver_tracks {link : List (ℕ × ℕ)} (groups : OfGroups outer) (path path' : ℕ)
    {id id' : ℕ} (h : (id, id') ∈ link) (r : Reaction) (t u : Tally) :
    Tracks outer link t u (r.deliver path id t) ((r.inside outer).deliver path' id' u) := by
  match r with
  | .stay s => exact .of_mirrors (.run h)
  | .fail s e => exact .of_mirrors ⟨.nil, .cons ⟨s.ending_inside _ _, h⟩ .nil⟩
  | .leave s => exact complete_tracks groups h s
  | .descend followers =>
    rw [inside, deliver, deliver, length_insideAll]
    refine Tracks.noted (Tracks.allocate (n := followers.length - 1) ?_) _ _
    refine deliverAll_tracks groups path path' followers ?_ _ _
    exact .cons (mem_extend h _ _ _) (forall₂_extend link t.nextId u.nextId _)
  | .group router members =>
    rw [inside, deliver, deliver, length_insideAll, Effects.append_assoc, Effects.append_assoc]
    have inner := deliverAll_tracks groups path path' members
      (forall₂_extend link t.nextId u.nextId members.length) (t.allocate members.length)
      (u.allocate members.length)
    have noted := inner.allocate.noted
      ((List.range' t.nextId members.length).filter (fun i => i ≠ id) |>.map (.spawned id))
      ((List.range' u.nextId members.length).filter (fun i => i ≠ id') |>.map (.spawned id'))
    exact Tracks.before (.run h) noted

theorem Reaction.deliverAll_tracks {link : List (ℕ × ℕ)} (groups : OfGroups outer)
    (path path' : ℕ) {ids ids' : List ℕ} (rs : List Reaction)
    (h : List.Forall₂ (fun a b => (a, b) ∈ link) ids ids') (t u : Tally) :
    Tracks outer link t u (deliverAll path ids rs t)
      (deliverAll path' ids' (insideAll outer rs) u) := by
  match ids, ids', rs, h with
  | [], [], rs, _ =>
    rw [deliverAll, deliverAll]
    exact .of_mirrors (.none outer link)
  | _ :: _, _ :: _, [], _ => exact .of_mirrors (.none outer link)
  | id :: ids, id' :: ids', r :: rest, .cons hid hrest =>
    rw [insideAll, deliverAll, deliverAll]
    refine Tracks.append (deliver_tracks groups path path' hid r t u) fun n _ _ => ?_
    exact deliverAll_tracks groups path path' rest
      (hrest.imp fun _ _ h => mem_extend h t.nextId u.nextId n) _ _
end

end TracePattern
