import TracePattern.Proofs.Ledger
import TracePattern.Proofs.Reaction
import TracePattern.Proofs.Thread.Bundle

/-!
# Threads and branches

Every branch stands for the threads before it.  An event splits them up: each thread that can be
embedded in the events from this one on either ends with the event, or goes on before exactly one of
the branches that follow.  So the branches that have ended are as many as the threads that can be
embedded.

* `letsAll_of_steady`: gates let through what the guard is open to;
* `Context.rest_of_unwind_none`, `Context.rest_of_unwind_some`: what comes after a completed node;
* `Strand.count`, `Strand.splits`: the threads before a branch, and what an event does to them.
-/

namespace TracePattern

/-- All conditions in the scope depend on the event alone, and its keys are equal to themselves. -/
structure Scope.Steady (S : Scope) (event : Record) : Prop where
  condition : ∀ c, S.condition c → c.Steady event
  key : ∀ k, S.key k → k.Clear event

variable {S : Scope} {event : Record} {events : List Record}

/-! ### Gates and guards -/

theorem Condition.Steady.guarded {c : Condition} (h : c.Steady event) (captures : Captures) :
    (c.evaluate event captures).2.guarded = .ok (c.holds event) := by
  rw [Answer.guarded, h captures]

/-- Whether a frame lets an event through, if conditions depend on the event alone. -/
def Frame.admits (event : Record) : Frame → Bool
  | .gate c _ => c.holds event
  | .route key value => (key.key? event).any fun v => v.equal value
  | .sequence _ _ => true
  | .record _ => true

theorem Frame.lets_of_steady (steady : S.Steady event) {f : Frame} (hf : f.Within S)
    (captures : Captures) : (f.lets event captures).2 = .ok (f.admits event) := by
  cases f with
  | gate c i => exact (steady.condition c hf).guarded captures
  | route key value => rfl
  | sequence children i => rfl
  | record sink => rfl

theorem letsAll_of_steady (steady : S.Steady event) {frames : List Frame}
    (hf : ∀ f ∈ frames, f.Within S) (captures : Captures) :
    (letsAll event captures frames).2 = .ok (frames.all (Frame.admits event)) := by
  induction frames generalizing captures with
  | nil => rfl
  | cons f rest ih =>
    have here := f.lets_of_steady steady (hf f List.mem_cons_self) captures
    have further := ih fun g hg => hf g (List.mem_cons_of_mem _ hg)
    unfold letsAll
    dsimp only
    rw [here, List.all_cons]
    generalize f.admits event = admitted at here ⊢
    cases admitted with
    | false => exact here
    | true => exact further _

theorem Context.guard_enter (C : Context) (f : Frame) (event : Record) :
    (C.enter f).guard event = (C.guard event && f.admits event) := by
  cases f with
  | gate c i => rfl
  | route key value => rfl
  | sequence children i => simp [enter, Frame.admits]
  | record sink => simp [enter, Frame.admits]

theorem Context.guard_within (C : Context) (frames : List Frame) (event : Record) :
    (C.within frames).guard event = (C.guard event && frames.all (Frame.admits event)) := by
  induction frames generalizing C with
  | nil => simp
  | cons f rest ih => rw [within_cons, ih, guard_enter, List.all_cons, Bool.and_assoc]

/-! ### What comes after a node -/

namespace Context

/-- When all sequences around a place are at their last child, nothing comes after it. -/
theorem rest_of_unwind_none {frames : List Frame} (h : (unwind frames).next = none) (C : Context) :
    (C.within frames).rest = C.rest := by
  induction frames generalizing C with
  | nil => rfl
  | cons f rest ih =>
    unfold unwind at h
    dsimp only at h
    split at h
    · cases h
    · rename_i hrest
      rw [within_cons, ih hrest]
      cases f with
      | gate c i => rfl
      | route key value => rfl
      | record sink => rfl
      | sequence children index =>
        dsimp only at h
        split at h
        · cases h
        · rename_i hlast
          rw [enter, List.drop_eq_nil_of_le (by omega)]
          rfl

/-- Otherwise the next child of the innermost sequence that has one comes after it. -/
theorem rest_of_unwind_some {frames outer : List Frame} {children : List Expr} {index : ℕ}
    (h : (unwind frames).next = some (outer, children, index)) (C : Context) :
    (C.within frames).rest = Expr.bundleOf (children.drop index) (C.within outer) .later := by
  induction frames generalizing outer C with
  | nil => cases h
  | cons f rest ih =>
    unfold unwind at h
    dsimp only at h
    split at h
    · rename_i hrest
      cases h
      rw [within_cons, ih hrest]
      rfl
    · rename_i hrest
      rw [within_cons, rest_of_unwind_none hrest]
      split at h
      · cases h
      · split at h
        · cases h
          rfl
        · cases h
      · cases h
      · cases h

end Context

/-! ### Counting with a further event -/

section Counting

variable {C : Context} {c : Condition} {link link' : Link} {K : Bundle}

namespace Bundle

/-- An event that meets no first obligation changes nothing. -/
theorem count_of_not_met (h : ∀ choices obligations, K choices obligations →
    ∃ o others, obligations = o :: others ∧ o.holds event = false) :
    count K (event :: events) = count K events := by
  refine count_congr fun choices => exists_congr fun obligations => and_congr_right fun hK => ?_
  obtain ⟨o, others, rfl, unmet⟩ := h choices obligations hK
  exact embeds_cons_of_not unmet

/-- No thread ends before the first event. -/
theorem count_nil (h : ∀ choices obligations, K choices obligations →
    ∃ o others, obligations = o :: others) : count K [] = 0 := by
  have : embedded K [] = ∅ := by
    refine Set.eq_empty_of_forall_notMem ?_
    rintro choices ⟨obligations, hK, embeds⟩
    obtain ⟨o, others, rfl⟩ := h choices obligations hK
    exact not_embeds_cons embeds
  rw [count, this, Set.encard_empty]

/-- The event meets the first obligation of threads that go on with a later event. -/
theorem count_of_met_later (met : C.guard.test c event = true)
    (h : ∀ choices others, K choices others → others.head?.map Obligation.link = some .later) :
    count (fun choices obligations => ∃ others, obligations = ⟨link, C.guard.test c⟩ :: others ∧
      K choices others) (event :: events) = count K events := by
  refine count_congr fun choices => ⟨?_, ?_⟩
  · rintro ⟨_, ⟨others, rfl, hK⟩, embeds⟩
    rw [embeds_cons_of_holds met, h choices others hK] at embeds
    exact ⟨others, hK, embeds⟩
  · rintro ⟨others, hK, embeds⟩
    refine ⟨_, ⟨others, rfl, hK⟩, ?_⟩
    rw [embeds_cons_of_holds met, h choices others hK]
    exact embeds

/-- The event meets the first obligation of threads that go on with the same event or a later
one. -/
theorem count_of_met_same (met : C.guard.test c event = true)
    (h : ∀ choices others, K choices others →
      others.head?.map Obligation.link = some .sameOrLater) :
    count (fun choices obligations => ∃ others, obligations = ⟨link, C.guard.test c⟩ :: others ∧
      K choices others) (event :: events) = count K (event :: events) := by
  refine count_congr fun choices => ⟨?_, ?_⟩
  · rintro ⟨_, ⟨others, rfl, hK⟩, embeds⟩
    rw [embeds_cons_of_holds met, h choices others hK] at embeds
    exact ⟨others, hK, embeds⟩
  · rintro ⟨others, hK, embeds⟩
    refine ⟨_, ⟨others, rfl, hK⟩, ?_⟩
    rw [embeds_cons_of_holds met, h choices others hK]
    exact embeds

/-- The event meets the only obligation. -/
theorem count_of_met_last (met : C.guard.test c event = true) (last : C.rest = Context.top.rest) :
    count ((Expr.event c).bundle C link) (event :: events) = 1 := by
  have : embedded ((Expr.event c).bundle C link) (event :: events) = {[]} := by
    ext choices
    simp only [embedded, Expr.bundle, last, Context.top]
    constructor
    · rintro ⟨_, ⟨others, rfl, rfl, rfl⟩, -⟩
      rfl
    · rintro rfl
      exact ⟨_, ⟨[], rfl, rfl, rfl⟩, (embeds_cons_of_holds met).2 trivial⟩
  rw [count, this, Set.encard_singleton]

end Bundle

variable {guard : Guard} {B : Link → Bundle}

/-- The link of the first obligation does not count. -/
theorem Headed.count_relink (h : Headed guard link B) (h' : Headed guard link' B) :
    Bundle.count (B link) events = Bundle.count (B link') events := by
  refine Bundle.count_congr fun choices => ⟨?_, ?_⟩
  · rintro ⟨obligations, hB, embeds⟩
    obtain ⟨holds, others, rfl, -, relink⟩ := h choices obligations hB
    exact ⟨_, relink link', embeds_relink.1 embeds⟩
  · rintro ⟨obligations, hB, embeds⟩
    obtain ⟨holds, others, rfl, -, relink⟩ := h' choices obligations hB
    exact ⟨_, relink link, embeds_relink.1 embeds⟩

/-- An event that the guard is closed to changes nothing. -/
theorem Headed.count_of_closed (h : Headed guard link B) (closed : guard event = false) :
    Bundle.count (B link) (event :: events) = Bundle.count (B link) events := by
  refine Bundle.count_of_not_met fun choices obligations hB => ?_
  obtain ⟨holds, others, rfl, guarded, -⟩ := h choices obligations hB
  refine ⟨_, others, rfl, ?_⟩
  cases hh : holds event with
  | false => exact hh
  | true => exact absurd (guarded event hh) (by simp [closed])

/-- The link of the first obligation is the given one. -/
theorem Headed.link_eq (h : Headed guard link B) {choices : List Choice}
    {obligations : List Obligation} (hB : B link choices obligations) :
    obligations.head?.map Obligation.link = some link := by
  obtain ⟨holds, others, rfl, -⟩ := h choices obligations hB
  rfl

theorem Headed.count_nil (h : Headed guard link B) : Bundle.count (B link) [] = 0 := by
  refine Bundle.count_nil fun choices obligations hB => ?_
  obtain ⟨holds, others, rfl, -⟩ := h choices obligations hB
  exact ⟨_, others, rfl⟩

end Counting

/-! ### Strands -/

/-- The number of threads before a strand that can be embedded in some events. -/
noncomputable def Strand.count (s : Strand) (events : List Record) : ℕ∞ :=
  Bundle.count (s.cursor.bundle (Context.top.within s.frames) .later) events

/-- The number of threads before some strands. -/
noncomputable def countAll (strands : List Strand) (events : List Record) : ℕ∞ :=
  (strands.map fun s => s.count events).sum

@[simp] theorem countAll_nil (events : List Record) : countAll [] events = 0 := rfl

@[simp] theorem countAll_cons (s : Strand) (rest : List Strand) (events : List Record) :
    countAll (s :: rest) events = s.count events + countAll rest events := by simp [countAll]

theorem countAll_append (ss ts : List Strand) (events : List Record) :
    countAll (ss ++ ts) events = countAll ss events + countAll ts events := by simp [countAll]

theorem countAll_perm {ss ts : List Strand} (h : ss.Perm ts) (events : List Record) :
    countAll ss events = countAll ts events := (h.map _).sum_eq

theorem countAll_strandsAt (captures : Captures) (outer : List Frame) (starts : List Start)
    (events : List Record) :
    countAll (strandsAt captures outer starts) events =
      countStarts (Context.top.within outer) .later events starts := by
  simp [countAll, strandsAt, countStarts, Strand.count, Function.comp_def, Context.within_append]

theorem countStarts_relink {starts : List Start} (h : ∀ s ∈ starts, s.cursor.Within S) (C : Context)
    (link link' : Link) (events : List Record) :
    countStarts C link events starts = countStarts C link' events starts := by
  unfold countStarts
  congr 1
  refine List.map_congr_left fun s hs => ?_
  exact Headed.count_relink (Cursor.headed (h s hs)) (Cursor.headed (h s hs))

/-- The threads of the children of a sequence from one on are those of the starts of this child. -/
theorem count_startsAt {children : List Expr} (h : Expr.AllWithin S children) {index : ℕ}
    (hi : index < children.length) (C : Context) (link : Link) (events : List Record) :
    Bundle.count (Expr.bundleOf (children.drop index) C link) events =
      countStarts C .later events (startsAt children index) := by
  have hchild := List.getElem?_eq_getElem hi
  have inside := h.mem (List.mem_of_getElem? hchild)
  rw [Expr.bundleOf_drop hchild, Expr.count_bundle inside, startsAt, hchild]
  dsimp only
  rw [countStarts_under]
  exact countStarts_relink (fun s hs => (Expr.within_starts inside hs).2) _ _ _ _

/-- The threads of a child of a sequence start with an obligation. -/
theorem headed_drop {children : List Expr} (h : Expr.AllWithin S children) {index : ℕ}
    (hi : index < children.length) (C : Context) (link : Link) :
    Headed C.guard link fun link => Expr.bundleOf (children.drop index) C link := by
  have hchild := List.getElem?_eq_getElem hi
  simp only [Expr.bundleOf_drop hchild]
  exact Expr.headed (C := C.enter (.sequence children index)) (h.mem (List.mem_of_getElem? hchild))

/-! ### Reactions -/

/-- Some threads end, all with success, and the others go on before one strand each. -/
structure Splits (before : ℕ∞) (endings : List Ending) (strands : List Strand)
    (events : List Record) : Prop where
  count : before = endings.length + countAll strands events
  successful : ∀ f ∈ endings, f.outcome = .successful

/-- The reactions of several strands. -/
theorem splits_of_all {passed : ℕ} {ts : List Strand}
    (h : ∀ t ∈ ts, Splits (t.count (event :: events)) (t.react event passed).endings
      (t.react event passed).strands events) :
    Splits (countAll ts (event :: events)) (Reaction.endingsOf (ts.map (Strand.react event passed)))
      (Reaction.strandsOf (ts.map (Strand.react event passed))) events := by
  induction ts with
  | nil => exact ⟨by simp [Reaction.endingsOf, Reaction.strandsOf], by simp [Reaction.endingsOf]⟩
  | cons t rest ih =>
    have first := h t List.mem_cons_self
    have others := ih fun u hu => h u (List.mem_cons_of_mem _ hu)
    refine ⟨?_, ?_⟩
    · simp only [List.map_cons, Reaction.endingsOf, Reaction.strandsOf, countAll_cons,
        countAll_append, List.length_append, Nat.cast_add, first.count, others.count]
      exact add_add_add_comm _ _ _ _
    · intro f hf
      rcases List.mem_append.1 hf with hf | hf
      · exact first.successful f hf
      · exact others.successful f hf

/-- A strand that stays where it is. -/
theorem splits_of_stay {s : Strand} (captures : Captures)
    (h : s.count (event :: events) = s.count events) :
    Splits (s.count (event :: events)) [] [{ s with captures }] events := by
  refine ⟨?_, by simp⟩
  rw [h]
  simp [Strand.count]

/-- A strand that leaves its node. -/
theorem splits_of_leave {s : Strand} (hs : s.Within S) {c : Condition}
    (hc : s.cursor = .event c none)
    (met : (Context.top.within s.frames).guard.test c event = true) (captures : Captures) :
    Splits (s.count (event :: events)) (Reaction.leave { s with captures }).endings
      (Reaction.leave { s with captures }).strands events := by
  unfold Strand.count
  rw [hc]
  simp only [Reaction.endings, Reaction.strands]
  cases hnext : (unwind s.frames).next with
  | none =>
    have last := Context.rest_of_unwind_none hnext Context.top
    refine ⟨?_, ?_⟩
    · show Bundle.count ((Expr.event c).bundle _ _) _ = _
      rw [Bundle.count_of_met_last met last]
      simp
    · intro f hf
      rw [List.mem_singleton.1 hf]
      rfl
  | some next =>
    -- What is left to do are the children of a sequence further out, from the next one on.
    obtain ⟨outer, children, index⟩ := next
    obtain ⟨-, hchildren, hlt⟩ := within_unwind hs.1 hnext
    have rest := Context.rest_of_unwind_some hnext Context.top
    refine ⟨?_, by simp⟩
    have headed := headed_drop hchildren hlt (Context.top.within outer) .later
    calc Bundle.count (Cursor.bundle (.event c none) (Context.top.within s.frames) .later)
          (event :: events)
      _ = Bundle.count (Context.top.within s.frames).rest events := by
        refine Bundle.count_of_met_later met fun choices others h => ?_
        rw [rest] at h
        exact headed.link_eq h
      _ = countStarts (Context.top.within outer) .later events (startsAt children index) := by
        rw [rest, count_startsAt hchildren hlt]
      _ = _ := by simp [countAll_strandsAt]

/-- A strand that goes on to children with the same event. -/
theorem count_of_descend {s : Strand} (hs : s.Within S) {c : Condition} {children : List Expr}
    (hc : s.cursor = .event c (some children))
    (met : (Context.top.within s.frames).guard.test c event = true) (captures : Captures) :
    s.count (event :: events) =
      countAll (strandsAt captures s.frames (startsAt children 0)) (event :: events) := by
  have cursor_within := hs.2
  rw [hc] at cursor_within
  obtain ⟨-, hne, hchildren⟩ := cursor_within
  have hlt := List.length_pos_iff.2 hne
  have headed := headed_drop hchildren hlt (Context.top.within s.frames) .sameOrLater
  rw [countAll_strandsAt, ← count_startsAt hchildren hlt _ .sameOrLater, List.drop_zero]
  unfold Strand.count
  rw [hc]
  exact Bundle.count_of_met_same met fun choices others h => headed.link_eq h

/-- The guard of a group is open to the events with its key only. -/
theorem Guard.key_of_keyed {g : Guard} {key : KeyExtractor} {value : Value}
    (h : g.keyed key value event = true) : key.key? event = some value := by
  obtain ⟨-, hkey⟩ := Bool.and_eq_true_iff.1 h
  obtain ⟨v, hv, equal⟩ := (Option.any_eq_true _ _).1 hkey
  rw [hv, (Value.equal_iff.1 equal).2]

/-- A router, when the event has no key, or one that it knows. -/
theorem count_of_known {template : Expr} (ht : template.Within S) {key : KeyExtractor}
    {seen : KeySet} (known : ∀ value, key.key? event = some value → seen.has value = true)
    (C : Context) (link : Link) :
    Bundle.count (Cursor.bundle (.router key template seen) C link) (event :: events) =
      Bundle.count (Cursor.bundle (.router key template seen) C link) events := by
  refine Bundle.count_of_not_met ?_
  rintro choices obligations ⟨value, others, rfl, unseen, h⟩
  obtain ⟨holds, rest, rfl, guarded, -⟩ := Expr.headed ht _ _ h
  refine ⟨_, rest, rfl, ?_⟩
  cases hh : holds event with
  | false => exact hh
  | true =>
    rw [known value (Guard.key_of_keyed (guarded event hh))] at unseen
    cases unseen

/-- A router splits into the group of a further key and the router that knows the key. -/
theorem count_of_insert {template : Expr} {key : KeyExtractor} {seen known : KeySet} {value : Value}
    (clear : value.tag ≠ .foreign) (h : seen.insert? value = some known) (C : Context) (link : Link)
    (events : List Record) :
    Bundle.count (Cursor.bundle (.router key template seen) C link) events =
      Bundle.count (template.bundle (C.enter (.route key value)) link) events +
        Bundle.count (Cursor.bundle (.router key template known) C link) events := by
  have itself : value.equal value = true := Value.equal_iff.2 ⟨clear, rfl⟩
  have unseen : seen.has value = false := by
    rw [Bool.eq_false_iff, ne_eq, ← KeySet.insert?_eq_none, h]
    simp
  -- The threads before the router are those of the new group and those still before it.
  have split : ∀ v, seen.has v = false ↔ v = value ∨ known.has v = false := by
    intro v
    have grown := KeySet.has_insert? h v
    rw [Bool.eq_false_iff, Bool.eq_false_iff, ne_eq, ne_eq, grown, not_or, Value.equal_iff]
    constructor
    · intro hv
      by_cases he : v = value
      · exact .inl he
      · exact .inr ⟨hv, fun hval => he hval.2.symm⟩
    · rintro (rfl | hv)
      · simp [unseen]
      · exact hv.1
  have disjoint : ∀ choices obligations obligations',
      (∃ others, choices = .key value :: others ∧
        template.bundle (C.enter (.route key value)) link others obligations) →
      Cursor.bundle (.router key template known) C link choices obligations' → False := by
    rintro choices obligations obligations' ⟨others, rfl, -⟩ ⟨v, others', heq, hv, -⟩
    cases heq
    rw [(KeySet.has_insert? h value).2 (.inr itself)] at hv
    cases hv
  rw [← Bundle.count_cons (K := template.bundle (C.enter (.route key value)) link) (.key value),
    ← Bundle.count_or disjoint]
  refine Bundle.count_congr fun choices => exists_congr fun obligations =>
    and_congr_left fun _ => ?_
  constructor
  · rintro ⟨v, others, rfl, hv, hbundle⟩
    rcases (split v).1 hv with rfl | hv
    · exact .inl ⟨others, rfl, hbundle⟩
    · exact .inr ⟨v, others, rfl, hv, hbundle⟩
  · rintro (⟨others, rfl, hbundle⟩ | ⟨v, others, rfl, hv, hbundle⟩)
    · exact ⟨value, others, rfl, unseen, hbundle⟩
    · exact ⟨v, others, rfl, (split v).2 (.inr hv), hbundle⟩

/-- What a look at a strand tells about its guard and its cursor, if conditions depend on the event
alone. -/
inductive Strand.Sees (s : Strand) (event : Record) : Move → Prop
  | closed (guard : (Context.top.within s.frames).guard event = false) : s.Sees event .stay
  | unmet {c : Condition} {children : Option (List Expr)} (cursor : s.cursor = .event c children)
    (unmet : (Context.top.within s.frames).guard.test c event = false) : s.Sees event .stay
  | leave {c : Condition} (cursor : s.cursor = .event c none)
    (met : (Context.top.within s.frames).guard.test c event = true) : s.Sees event .leave
  | descend {c : Condition} {children : List Expr} (cursor : s.cursor = .event c (some children))
    (met : (Context.top.within s.frames).guard.test c event = true) :
    s.Sees event (.descend children)
  | known {key : KeyExtractor} {template : Expr} {seen : KeySet}
    (cursor : s.cursor = .router key template seen)
    (known : ∀ value, key.key? event = some value → seen.has value = true) : s.Sees event .stay
  | group {key : KeyExtractor} {template : Expr} {seen known : KeySet} {value : Value}
    (cursor : s.cursor = .router key template seen)
    (guard : (Context.top.within s.frames).guard event = true)
    (found : key.key? event = some value) (inserted : seen.insert? value = some known) :
    s.Sees event (.group key template value known)

theorem Strand.meet_sees (steady : S.Steady event) {s : Strand} (hs : s.Within S)
    (guard : (Context.top.within s.frames).guard event = true) (captures : Captures) :
    s.Sees event (({ s with captures } : Strand).meet event).2 := by
  unfold meet
  dsimp only
  split
  · rename_i c children hc
    have hsteady : c.Steady event := by
      have cursor_within := hs.2
      rw [hc] at cursor_within
      cases children with
      | none => exact steady.condition c cursor_within
      | some children => exact steady.condition c cursor_within.1
    rw [hsteady.guarded]
    have test : (Context.top.within s.frames).guard.test c event = c.holds event := by
      rw [Guard.test, guard, Bool.true_and]
    cases hholds : c.holds event with
    | false => exact .unmet hc (test.trans hholds)
    | true =>
      cases children with
      | none => exact .leave hc (test.trans hholds)
      | some children => exact .descend hc (test.trans hholds)
  · rename_i key template seen hc
    split
    · rename_i absent
      exact .known hc (by simp [absent])
    · rename_i value found
      split
      · rename_i old
        refine .known hc fun v hv => ?_
        rw [found] at hv
        cases hv
        exact KeySet.insert?_eq_none.1 old
      · rename_i known inserted
        exact .group hc guard found inserted

theorem Strand.look_sees (steady : S.Steady event) {s : Strand} (hs : s.Within S) {passed : ℕ}
    (before : (Context.top.within (s.frames.take passed)).guard event = true) :
    s.Sees event (s.look event passed).2 := by
  have way := letsAll_of_steady steady
    (fun f hf => hs.1 f (List.mem_of_mem_drop hf) : ∀ f ∈ s.frames.drop passed, f.Within S)
    s.captures
  have guarded : (Context.top.within s.frames).guard event =
      (s.frames.drop passed).all (Frame.admits event) := by
    conv_lhs => rw [← List.take_append_drop passed s.frames, Context.within_append,
      Context.guard_within, before]
    rfl
  rw [← guarded] at way
  unfold look
  dsimp only
  rw [way]
  cases hguard : (Context.top.within s.frames).guard event with
  | false => exact .closed hguard
  | true => exact meet_sees steady hs hguard _

/-- A router that forms a group, whose members get the event. -/
theorem splits_of_group {s : Strand} {key : KeyExtractor} {template : Expr} (ht : template.Within S)
    {seen known : KeySet} (hc : s.cursor = .router key template seen) {value : Value}
    (clear : value.tag ≠ .foreign) (found : key.key? event = some value)
    (inserted : seen.insert? value = some known) (captures captures' : Captures)
    {endings : List Ending} {strands : List Strand}
    (members : Splits (countAll (strandsAt captures (s.frames ++ [.route key value])
      template.starts) (event :: events)) endings strands events) :
    Splits (s.count (event :: events)) endings
      (⟨captures', s.frames, .router key template known⟩ :: strands) events := by
  refine ⟨?_, members.successful⟩
  have knows : ∀ v, key.key? event = some v → known.has v = true := by
    intro v hv
    rw [found] at hv
    cases hv
    exact (KeySet.has_insert? inserted value).2 (.inr (Value.equal_iff.2 ⟨clear, rfl⟩))
  calc s.count (event :: events)
    _ = Bundle.count (template.bundle ((Context.top.within s.frames).enter (.route key value))
          .later) (event :: events) +
        Bundle.count (Cursor.bundle (.router key template known) (Context.top.within s.frames)
          .later) (event :: events) := by
      rw [Strand.count, hc, count_of_insert clear inserted]
    _ = (endings.length + countAll strands events) +
        Bundle.count (Cursor.bundle (.router key template known) (Context.top.within s.frames)
          .later) events := by
      rw [← members.count, count_of_known ht knows, countAll_strandsAt, Expr.count_bundle ht,
        Context.within_append]
      rfl
    _ = _ := by
      rw [countAll_cons, add_assoc]
      exact congrArg _ (add_comm _ _)

/-- The strands that follow from one stand inside a further frame, and get the event if it is open
to them. -/
theorem splits_of_followers (f : Frame) {outer : List Frame}
    (guard : (Context.top.within (outer ++ [f])).guard event = true) {ts : List Strand}
    (inside : ∀ t ∈ ts, ∃ inner, t.frames = outer ++ f :: inner)
    (each : ∀ t ∈ ts, (Context.top.within (t.frames.take (outer.length + 1))).guard event = true →
      Splits (t.count (event :: events)) (t.react event (outer.length + 1)).endings
        (t.react event (outer.length + 1)).strands events) :
    Splits (countAll ts (event :: events))
      (Reaction.endingsOf (ts.map (Strand.react event (outer.length + 1))))
      (Reaction.strandsOf (ts.map (Strand.react event (outer.length + 1)))) events := by
  refine splits_of_all fun t ht => each t ht ?_
  obtain ⟨inner, hinner⟩ := inside t ht
  have taken : t.frames.take (outer.length + 1) = outer ++ [f] := by
    rw [hinner, List.append_cons]
    exact List.take_left' (by simp)
  rw [taken]
  exact guard

/-- **An event splits up the threads before a strand.** Those that can be embedded from this event
on either end with it, or go on before one of the strands that follow. -/
theorem Strand.splits (steady : S.Steady event) {passed : ℕ} {s : Strand} (hs : s.Within S)
    (before : (Context.top.within (s.frames.take passed)).guard event = true) :
    Splits (s.count (event :: events)) (s.react event passed).endings
      (s.react event passed).strands events := by
  induction hn : s.cursor.size using Nat.strongRecOn generalizing passed s with
  | ind n ih =>
    subst hn
    -- The followers of a strand stand on smaller expressions and inside the same frames.
    have sees := look_sees steady hs before
    have same := s.look_strand event passed
    rw [react_eq]
    dsimp only
    generalize s.look event passed = seen at sees same ⊢
    obtain ⟨t, move⟩ := seen
    dsimp only at sees same ⊢
    rw [same]
    cases sees with
    | closed guard =>
      exact splits_of_stay _ (Headed.count_of_closed (Cursor.headed hs.2) guard)
    | @unmet c children hc unmet =>
      refine splits_of_stay _ (Bundle.count_of_not_met fun choices obligations h => ?_)
      rw [hc] at h
      cases children with
      | none =>
        obtain ⟨others, rfl, -⟩ := h
        exact ⟨_, others, rfl, unmet⟩
      | some children =>
        obtain ⟨others, rfl, -⟩ := h
        exact ⟨_, others, rfl, unmet⟩
    | leave hc met => exact splits_of_leave hs hc met _
    | @descend c children hc met =>
      have cursor_within := hs.2
      rw [hc] at cursor_within
      obtain ⟨-, -, hchildren⟩ := cursor_within
      rw [count_of_descend hs hc met]
      refine splits_of_followers (.sequence children 0) ?_ ?_ ?_
      · rw [Context.within_append]
        exact (Bool.and_eq_true_iff.1 met).1
      · intro u hu
        obtain ⟨start, hstart, rfl⟩ := List.mem_map.1 hu
        obtain ⟨inner, hinner⟩ := frames_of_mem_startsAt hstart
        exact ⟨inner, congrArg (s.frames ++ ·) hinner⟩
      · intro u hu guard
        refine ih _ (smaller_strandsAt_children hc u hu) ?_ guard rfl
        obtain ⟨start, hstart, rfl⟩ := List.mem_map.1 hu
        exact (within_startsAt hchildren hstart).under hs.1
    | @known key template seen hc known =>
      have cursor_within := hs.2
      rw [hc] at cursor_within
      refine splits_of_stay _ ?_
      unfold count
      rw [hc]
      exact count_of_known cursor_within.2 known _ _
    | @group key template seen known value hc guard found inserted =>
      have cursor_within := hs.2
      rw [hc] at cursor_within
      obtain ⟨hkey, htemplate⟩ := cursor_within
      have clear := steady.key key hkey value found
      have itself : value.equal value = true := Value.equal_iff.2 ⟨clear, rfl⟩
      have inner_guard :
          (Context.top.within (s.frames ++ [.route key value])).guard event = true := by
        rw [Context.within_append]
        simp [Context.enter, Guard.keyed, guard, found, itself]
      refine splits_of_group htemplate hc clear found inserted _ _
        (splits_of_followers (.route key value) inner_guard ?_ ?_)
      · intro u hu
        obtain ⟨start, hstart, rfl⟩ := List.mem_map.1 hu
        exact ⟨start.frames, by simp⟩
      · intro u hu guard
        refine ih _ (smaller_strandsAt_template hc u hu) ?_ guard rfl
        obtain ⟨start, hstart, rfl⟩ := List.mem_map.1 hu
        refine (Expr.within_starts htemplate hstart).under ?_
        exact Frame.within_append hs.1 (by simpa [Frame.Within] using hkey)

end TracePattern
