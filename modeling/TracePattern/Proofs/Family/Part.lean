import TracePattern.Proofs.Family.Numbers

/-!
# A part of a path

Some of the branches of a path, together with all that follows from them, behave like the branches
of another path.  The turns of the other branches, in between, neither touch them nor add to them;
they only take some of the new numbers.

* `partOf`, `Linked`: the numbers of the part, in the same order on both sides;
* `Expands`: a part that grows by new numbers;
* `Grown`: what a part of a turn does to the branches of the part;
* `Grown.of_outside`, `Grown.of_tracks`, `Grown.run_root_append`: other branches, those of the part,
  and new ones;
* `Grown.append`: one after another;
* `grown_of_all`: the turn of all branches.
-/

namespace TracePattern

/-- The numbers of the part. -/
def partOf (link : List (ℕ × ℕ)) : List ℕ := link.map Prod.snd

/-- Linked numbers are below the next free ones, and in the same order on both sides. -/
structure Linked (link : List (ℕ × ℕ)) (i j : ℕ) : Prop where
  below : ∀ q ∈ link, q.1 < i ∧ q.2 < j
  order : ∀ p ∈ link, ∀ q ∈ link, p.1 < q.1 ↔ p.2 < q.2

theorem mem_zip_range' {i j n : ℕ} {q : ℕ × ℕ} :
    q ∈ (List.range' i n).zip (List.range' j n) ↔ ∃ k < n, q = (i + k, j + k) := by
  induction n generalizing i j with
  | zero => simp
  | succ n ih =>
    rw [List.range'_succ, List.range'_succ, List.zip_cons_cons, List.mem_cons, ih]
    constructor
    · rintro (rfl | ⟨k, hk, rfl⟩)
      · exact ⟨0, by omega, rfl⟩
      · exact ⟨k + 1, by omega, by ext <;> simp only [] <;> omega⟩
    · rintro ⟨k, hk, rfl⟩
      cases k with
      | zero => exact .inl rfl
      | succ k => exact .inr ⟨k, by omega, by ext <;> simp only [] <;> omega⟩

namespace Linked

variable {link : List (ℕ × ℕ)} {i j : ℕ}

theorem nil (i j : ℕ) : Linked [] i j := ⟨by simp, by simp⟩

theorem mono (h : Linked link i j) {i' j' : ℕ} (hi : i ≤ i') (hj : j ≤ j') : Linked link i' j' :=
  ⟨fun q hq => ⟨(h.below q hq).1.trans_le hi, (h.below q hq).2.trans_le hj⟩, h.order⟩

/-- Further numbers keep the order. -/
theorem extend (h : Linked link i j) (n : ℕ) : Linked (extend link i j n) (i + n) (j + n) := by
  refine ⟨fun q hq => ?_, fun p hp q hq => ?_⟩
  · rcases List.mem_append.1 hq with hq | hq
    · have := h.below q hq
      omega
    · obtain ⟨k, hk, rfl⟩ := mem_zip_range'.1 hq
      dsimp only
      omega
  · rcases List.mem_append.1 hp with hp | hp <;> rcases List.mem_append.1 hq with hq | hq
    · exact h.order p hp q hq
    · obtain ⟨k, hk, rfl⟩ := mem_zip_range'.1 hq
      have := h.below p hp
      dsimp only
      omega
    · obtain ⟨k, hk, rfl⟩ := mem_zip_range'.1 hp
      have := h.below q hq
      dsimp only
      omega
    · obtain ⟨k, hk, rfl⟩ := mem_zip_range'.1 hp
      obtain ⟨l, hl, rfl⟩ := mem_zip_range'.1 hq
      dsimp only
      omega

theorem lt_of_mem_part (h : Linked link i j) {n : ℕ} (hn : n ∈ partOf link) : n < j := by
  obtain ⟨q, hq, rfl⟩ := List.mem_map.1 hn
  exact (h.below q hq).2

end Linked

theorem partOf_extend (link : List (ℕ × ℕ)) (i j n : ℕ) :
    partOf (extend link i j n) = partOf link ++ List.range' j n := by
  simp [partOf, extend, List.map_snd_zip]

theorem fst_extend (link : List (ℕ × ℕ)) (i j n : ℕ) :
    (extend link i j n).map Prod.fst = link.map Prod.fst ++ List.range' i n := by
  simp [extend, List.map_fst_zip]

/-- A part grows only by numbers from `i` on. -/
structure Expands (i : ℕ) (link link' : List (ℕ × ℕ)) : Prop where
  kept : link ⊆ link'
  new : ∀ n ∈ partOf link', n ∈ partOf link ∨ i ≤ n

namespace Expands

variable {link link' link'' : List (ℕ × ℕ)} {i j : ℕ}

theorem refl (i : ℕ) (link : List (ℕ × ℕ)) : Expands i link link := ⟨fun _ h => h, fun _ => .inl⟩

theorem trans (h : Expands i link link') (h' : Expands j link' link'') (hij : i ≤ j) :
    Expands i link link'' := by
  refine ⟨fun q hq => h'.kept (h.kept hq), fun n hn => ?_⟩
  rcases h'.new n hn with hn | hn
  · exact h.new n hn
  · exact .inr (hij.trans hn)

/-- Further numbers are new. -/
theorem extend (link : List (ℕ × ℕ)) (i j n : ℕ) : Expands j link (extend link i j n) := by
  refine ⟨fun q hq => mem_extend hq _ _ _, fun m hm => ?_⟩
  rw [partOf_extend] at hm
  exact (List.mem_append.1 hm).imp_right fun h => (List.mem_range'_1.1 h).1

theorem subset (h : Expands i link link') : partOf link ⊆ partOf link' := List.map_subset _ h.kept

/-- Smaller numbers belong to the part if and only if they did before. -/
theorem mem_iff (h : Expands i link link') {n : ℕ} (hn : n < i) :
    n ∈ partOf link' ↔ n ∈ partOf link := by
  constructor
  · intro hmem
    rcases h.new n hmem with hmem | hle
    · exact hmem
    · omega
  · exact fun hmem => h.subset hmem

theorem filter_eq (h : Expands i link link') {α : Type} (number : α → ℕ) {l : List α}
    (old : ∀ a ∈ l, number a < i) :
    (l.filter fun a => number a ∈ partOf link') = l.filter fun a => number a ∈ partOf link :=
  List.filter_congr fun a ha => decide_eq_decide.2 (h.mem_iff (old a ha))

end Expands

/-! ### Parts of turns -/

/-- The effects `y` of some branches, as far as they concern the part, correspond to the effects
`x` of branches of the other path. Branches with numbers in `roots` do not belong to the part, but
what follows from them does. -/
structure Grown (outer : List Frame) (roots : List ℕ) (link : List (ℕ × ℕ)) (t u : Tally)
    (x y : Effects × Tally) (link' : List (ℕ × ℕ)) : Prop extends
    Expands u.nextId link link' where
  first : link'.map Prod.fst = link.map Prod.fst ++ List.range' t.nextId (x.2.nextId - t.nextId)
  grows : t.nextId ≤ x.2.nextId
  linked : Linked link' x.2.nextId y.2.nextId
  advances : u.nextId ≤ y.2.nextId
  bounded : Bounded y
  running : List.Forall₂ (AlikeRunning outer link') x.1.running
    (y.1.running.filter fun b => b.id ∈ partOf link')
  finished : List.Forall₂ (AlikeFinished outer link') x.1.finished
    (y.1.finished.filter fun f => f.id ∈ partOf link')
  descent : ∀ q ∈ Note.lineage y.1.notes,
    q.2 ∈ partOf link' ↔ q.1 ∈ partOf link' ∨ q.1 ∈ roots

section

variable {outer : List Frame} {roots : List ℕ} {link link' link'' : List (ℕ × ℕ)} {t u : Tally}

/-- Elements that correspond to others through links are in the part. -/
theorem filter_of_alike {α β : Type} {R : α → β → Prop} (number : β → ℕ) {l : List α} {m : List β}
    (h : List.Forall₂ R l m) (linked : ∀ a b, R a b → number b ∈ partOf link) :
    m.filter (fun b => number b ∈ partOf link) = m := by
  refine List.filter_eq_self.2 ?_
  induction h with
  | nil => simp
  | cons hab _ ih =>
    intro c hc
    rcases List.mem_cons.1 hc with rfl | hc
    · exact decide_eq_true (linked _ _ hab)
    · exact ih c hc

namespace Grown

/-- One part of a turn after another. -/
theorem append {e f : Effects} {t' u' : Tally} {x y : Effects × Tally}
    (h : Grown outer roots link t u (e, t') (f, u') link')
    (h' : Grown outer roots link' t' u' x y link'') :
    Grown outer roots link t u (e ++ x.1, x.2) (f ++ y.1, y.2) link'' := by
  have ht := h.grows
  have hu := h.advances
  refine ⟨h.toExpands.trans h'.toExpands hu, ?_, ht.trans h'.grows, h'.linked, hu.trans h'.advances,
    h.bounded.append h'.bounded h'.advances, ?_, ?_, fun q hq => ?_⟩
  · rw [h'.first, h.first, List.append_assoc, range'_append_range' ht h'.grows]
  · rw [Effects.running_append, Effects.running_append, List.filter_append]
    refine List.rel_append ?_ h'.running
    rw [h'.filter_eq Branch.id h.bounded.running]
    exact h.running.imp fun _ _ => .mono h'.kept
  · rw [Effects.finished_append, Effects.finished_append, List.filter_append]
    refine List.rel_append ?_ h'.finished
    rw [h'.filter_eq Finish.id h.bounded.finished]
    exact h.finished.imp fun _ _ => .mono h'.kept
  · rw [Effects.notes_append, Note.lineage_append] at hq
    rcases List.mem_append.1 hq with hq | hq
    · obtain ⟨hlt, hle⟩ := h.bounded.parent q hq
      rw [h'.mem_iff hle, h'.mem_iff (hlt.trans hle)]
      exact h.descent q hq
    · exact h'.descent q hq

/-- No branch at all. -/
theorem none (linked : Linked link t.nextId u.nextId) :
    Grown outer roots link t u (.none, t) (.none, u) link := by
  have no_notes : Note.lineage Effects.none.notes = [] := rfl
  have bounded : Bounded (.none, u) := (Numbered.none [] u).bounded (by simp)
  exact ⟨.refl _ _, by simp, le_rfl, linked, le_rfl, bounded, .nil, .nil, by simp [no_notes]⟩

/-- A branch that is not in the part. -/
theorem of_outside {path id : ℕ} (linked : Linked link t.nextId u.nextId) (hid : id < u.nextId)
    (outside : id ∉ partOf link) (no_root : id ∉ roots) (old_roots : ∀ n ∈ roots, n < u.nextId)
    (r : Reaction) :
    Grown outer roots link t u (.none, t) (r.deliver path id u) link := by
  have numbered := Reaction.deliver_numbered path r hid
  have grows := numbered.grows
  -- What follows from the branch has its number or a new one, and neither is in the part.
  have not_new : ∀ n, u.nextId ≤ n → n ∉ partOf link ∧ n ∉ roots := by
    intro n hn
    constructor
    · intro hmem
      have := linked.lt_of_mem_part hmem
      omega
    · intro hmem
      have := old_roots n hmem
      omega
  have apart : ∀ n, n ∈ [id] ∨ u.nextId ≤ n → n ∉ partOf link ∧ n ∉ roots := by
    intro n hn
    rcases hn with hn | hn
    · rw [List.mem_singleton.1 hn]
      exact ⟨outside, no_root⟩
    · exact not_new n hn
  have bounded := numbered.bounded fun i hi => List.mem_singleton.1 hi ▸ hid
  refine ⟨.refl _ _, by simp, le_rfl, linked.mono le_rfl grows, grows, bounded, ?_, ?_,
    fun q hq => ?_⟩
  · have nothing : ((r.deliver path id u).1.running.filter fun b => b.id ∈ partOf link) = [] := by
      refine List.filter_eq_nil_iff.2 fun b hb => ?_
      have := (apart b.id ((numbered.running b hb).imp_right And.left)).1
      simpa using this
    rw [nothing]
    exact .nil
  · have nothing : ((r.deliver path id u).1.finished.filter fun f => f.id ∈ partOf link) = [] := by
      refine List.filter_eq_nil_iff.2 fun f hf => ?_
      have := (apart f.id ((numbered.finished f hf).imp_right And.left)).1
      simpa using this
    rw [nothing]
    exact .nil
  · obtain ⟨hparent, -, hchild, -⟩ := numbered.parent q hq
    refine iff_of_false (not_new q.2 hchild).1 (not_or.2 ?_)
    exact apart q.1 hparent

/-- Branches of the part, which react like those of the other path. -/
theorem of_tracks (roots : List ℕ) {x y : Effects × Tally} (linked : Linked link t.nextId u.nextId)
    {ids : List ℕ} (part : ∀ i ∈ ids, i ∈ partOf link) (numbered : Numbered ids u y)
    (tracks : Tracks outer link t u x y) : ∃ link', Grown outer roots link t u x y link' := by
  obtain ⟨n, hx, hy, mirrors⟩ := tracks
  have hpart := partOf_extend link t.nextId u.nextId n
  have inside : ∀ m, m ∈ ids ∨ u.nextId ≤ m → m < u.nextId + n →
      m ∈ partOf (extend link t.nextId u.nextId n) := by
    intro m hm hlt
    rw [hpart]
    rcases hm with hm | hm
    · exact List.mem_append_left _ (part m hm)
    · exact List.mem_append_right _ (List.mem_range'_1.2 ⟨hm, hlt⟩)
  have bounded := numbered.bounded fun i hi => linked.lt_of_mem_part (part i hi)
  refine ⟨extend link t.nextId u.nextId n, .extend _ _ _ _, ?_, by omega,
    by rw [hx, hy]; exact linked.extend n, by omega, bounded, ?_, ?_, fun q hq => ?_⟩
  · rw [fst_extend, hx, Nat.add_sub_cancel_left]
  · rw [filter_of_alike Branch.id mirrors.running fun _ _ h => List.mem_map_of_mem h.2]
    exact mirrors.running
  · rw [filter_of_alike Finish.id mirrors.finished fun _ _ h => List.mem_map_of_mem h.2]
    exact mirrors.finished
  · obtain ⟨hparent, hlt, hchild, hle⟩ := numbered.parent q hq
    refine iff_of_true (inside q.2 (.inr hchild) (by omega)) (.inl (inside q.1 hparent (by omega)))

/-- New branches that follow from a root. -/
theorem run_root_append {root n : ℕ} {s : Strand} {t' u' : Tally} {x y : Effects × Tally}
    (hroot : root ∈ roots) (outside : root ∉ partOf link) (hid : root < u.nextId)
    (ht : t'.nextId = t.nextId + n) (hu : u'.nextId = u.nextId + n)
    (h : Grown outer roots (extend link t.nextId u.nextId n) t' u' x y link') :
    Grown outer roots link t u x
      (.run (s.branch root) ++ noteNumbers root (List.range' u.nextId n) ++ y.1, y.2) link' := by
  have grows := h.grows
  have advances := h.advances
  have first := h.first
  obtain ⟨hrunning, hfinished, hpairs⟩ := h.bounded
  rw [ht] at grows first
  rw [hu] at advances
  -- The root itself does not get into the part.
  have expands : Expands u.nextId link link' :=
    (Expands.extend link t.nextId u.nextId n).trans h.toExpands (by omega)
  have root_outside : root ∉ partOf link' := fun hmem => outside ((expands.mem_iff hid).1 hmem)
  have notes : Note.lineage (.run (s.branch root) ++ noteNumbers root (List.range' u.nextId n) ++
      y.1 : Effects).notes = (List.range' u.nextId n).map (root, ·) ++ Note.lineage y.1.notes := by
    rw [Effects.append_assoc, Effects.notes_append, Note.lineage_append, Effects.notes_append,
      Note.lineage_append, lineage_noteNumbers hid]
    rfl
  refine ⟨expands, ?_, by omega, h.linked, by dsimp only; omega,
    ⟨fun b hb => ?_, hfinished, fun q hq => ?_⟩, ?_, h.finished, fun q hq => ?_⟩
  · have split := range'_append_range' (Nat.le_add_right t.nextId n) grows
    rw [Nat.add_sub_cancel_left] at split
    rw [first, fst_extend, List.append_assoc, split]
  · rcases List.mem_cons.1 hb with rfl | hb
    · show root < _
      dsimp only
      omega
    · exact hrunning b hb
  · rw [notes] at hq
    rcases List.mem_append.1 hq with hq | hq
    · obtain ⟨m, hm, rfl⟩ := List.mem_map.1 hq
      have := List.mem_range'_1.1 hm
      dsimp only
      omega
    · exact hpairs q hq
  · show List.Forall₂ _ _ ((s.branch root :: y.1.running).filter _)
    rw [List.filter_cons_of_neg (p := fun b : Branch => b.id ∈ partOf link')
      fun h => root_outside (of_decide_eq_true h)]
    exact h.running
  · rw [notes] at hq
    rcases List.mem_append.1 hq with hq | hq
    · obtain ⟨m, hm, rfl⟩ := List.mem_map.1 hq
      refine iff_of_true (h.subset ?_) (.inr hroot)
      rw [partOf_extend]
      exact List.mem_append_right _ hm
    · exact h.descent q hq

end Grown

/-- **The turn of all branches, some of which are in the part.** Those react like the branches of
the other path, which take a turn of their own. -/
theorem grown_of_all (groups : OfGroups outer) (path path' : ℕ) {answer answer' : Strand → Reaction}
    {as bs : List Branch} (linked : Linked link t.nextId u.nextId)
    (old_roots : ∀ n ∈ roots, n < u.nextId) (old : ∀ b ∈ bs, b.id < u.nextId ∧ b.id ∉ roots)
    (alike : List.Forall₂ (AlikeRunning outer link) as (bs.filter fun b => b.id ∈ partOf link))
    (answers : ∀ a ∈ as, answer' (a.strand.inside outer) = (answer a.strand).inside outer) :
    ∃ link', Grown outer roots link t u
      (Reaction.deliverAll path (as.map Branch.id) ((as.map Branch.strand).map answer) t)
      (Reaction.deliverAll path' (bs.map Branch.id) ((bs.map Branch.strand).map answer') u)
      link' := by
  induction bs generalizing as link t u with
  | nil =>
    cases alike
    exact ⟨link, .none linked⟩
  | cons b rest ih =>
    obtain ⟨hid, no_root⟩ := old b List.mem_cons_self
    simp only [List.map_cons, Reaction.deliverAll]
    -- After its turn, the others are still old.
    have later : ∀ {v : Tally}, u.nextId ≤ v.nextId →
        (∀ n ∈ roots, n < v.nextId) ∧ ∀ c ∈ rest, c.id < v.nextId ∧ c.id ∉ roots := by
      intro v hv
      refine ⟨fun n hn => (old_roots n hn).trans_le hv, fun c hc => ?_⟩
      obtain ⟨hlt, hnot⟩ := old c (List.mem_cons_of_mem _ hc)
      exact ⟨hlt.trans_le hv, hnot⟩
    by_cases part : b.id ∈ partOf link
    · rw [List.filter_cons_of_pos (by simpa using part)] at alike
      cases as with
      | nil => cases alike
      | cons a as =>
        obtain ⟨⟨same, hlink⟩, alike⟩ := List.forall₂_cons.1 alike
        have tracks := Reaction.deliver_tracks groups path path' hlink (answer a.strand) t u
        rw [← answers a List.mem_cons_self, ← same] at tracks
        obtain ⟨link₁, first⟩ := Grown.of_tracks roots linked
          (fun i hi => List.mem_singleton.1 hi ▸ part)
          (Reaction.deliver_numbered path' (answer' b.strand) hid) tracks
        rw [← first.filter_eq Branch.id fun c hc => (old c (List.mem_cons_of_mem _ hc)).1] at alike
        obtain ⟨old_roots, old⟩ := later first.advances
        obtain ⟨link₂, others⟩ := ih first.linked old_roots old
          (alike.imp fun _ _ => .mono first.kept) fun c hc => answers c (List.mem_cons_of_mem _ hc)
        exact ⟨link₂, first.append others⟩
    · rw [List.filter_cons_of_neg (by simpa using part)] at alike
      have first : Grown outer roots link t u (.none, t)
          ((answer' b.strand).deliver path' b.id u) link :=
        .of_outside linked hid part no_root old_roots _
      obtain ⟨old_roots, old⟩ := later first.advances
      obtain ⟨link₂, others⟩ := ih first.linked old_roots old alike answers
      exact ⟨link₂, first.append others⟩

end

end TracePattern
