import TracePattern.Proofs.Report.Ends

/-!
# No recorded node hears of a branch twice

A branch moves on through the expression in the order of its nodes.  Once it has left a recorded
node, or has failed inside it, it does not come back.

* `Past`: a node that a place has left behind;
* `Expr.Leads.listenersLeft_inside`: recorded nodes that are left lie in the completed child;
* `Moves`: branches before and after some reactions, and the ends in between;
* `Path.visits`: which branches are reported to which nodes in a run; `Path.nodup_visits`.
-/

namespace TracePattern

/-! ### Order of nodes -/

/-- The node at `r` lies before the place at `w` in the order of the expression, and not above
it. -/
def Past (r w : List ℕ) : Prop :=
  ∃ common i j, i < j ∧ common ++ [i] <+: r ∧ common ++ [j] <+: w

namespace Past

variable {r w : List ℕ}

theorem further {v : List ℕ} (h : Past r w) (further : w <+: v) : Past r v := by
  obtain ⟨common, i, j, lt, left, right⟩ := h
  exact ⟨common, i, j, lt, left, right.trans further⟩

theorem not_prefix (h : Past r w) : ¬ r <+: w := by
  obtain ⟨common, i, j, lt, left, right⟩ := h
  intro above
  have same : common ++ [i] = common ++ [j] :=
    (List.prefix_of_prefix_length_le (left.trans above) right (by simp)).eq_of_length (by simp)
  have : i = j := by simpa using same
  omega

/-- What a place has left behind stays behind when the branch goes on to a later sibling. -/
theorem carry {outer inner more : List ℕ} {i k : ℕ} (h : Past r (outer ++ i :: inner))
    (lt : i < k) : Past r (outer ++ k :: more) := by
  obtain ⟨common, a, b, ab, left, right⟩ := h
  have here : outer ++ [i] <+: outer ++ i :: inner := ⟨inner, by simp⟩
  have next : outer ++ [k] <+: outer ++ k :: more := ⟨more, by simp⟩
  -- The parting of the ways is in the node of the siblings, or further out, or further in.
  by_cases parting : common = outer
  · subst parting
    have same : common ++ [b] = common ++ [i] :=
      (List.prefix_of_prefix_length_le right here (by simp)).eq_of_length (by simp)
    have : b = i := by simpa using same
    exact ⟨common, a, k, by omega, left, next⟩
  · rcases List.prefix_or_prefix_of_prefix right here with out | into
    · rcases List.prefix_concat_iff.1 out with same | out
      · exact absurd (List.append_inj_left' same rfl) parting
      · exact ⟨common, a, b, ab, left, out.trans (List.prefix_append outer _)⟩
    · rcases List.prefix_concat_iff.1 into with same | into
      · exact absurd (List.append_inj_left' same rfl).symm parting
      · exact ⟨outer, i, k, lt, (into.trans (List.prefix_append common _)).trans left, next⟩

end Past

/-! ### Where listeners are -/

namespace Expr

variable {e n : Expr} {way : List ℕ} {l : Listener}

theorem ancestor_of_listener? {a : Ancestor} (found : a.listener? = some l) :
    l.node = a.address := by
  unfold Ancestor.listener? at found
  split at found
  · cases found
    rfl
  · cases found

/-- Recorded nodes around a place lie above it. -/
theorem prefix_of_mem_listenersAround (mem : l ∈ e.listenersAround way) : l.node <+: way := by
  obtain ⟨a, ha, found⟩ := List.mem_filterMap.1 mem
  rw [ancestor_of_listener? found]
  have below := (address_of_mem_ancestorsFrom (List.mem_reverse.1 ha)).2
  exact (List.prefix_append _ _).trans below

/-- No node is around a place twice. -/
theorem nodup_listenersAround (e : Expr) (way : List ℕ) :
    ((e.listenersAround way).map Listener.node).Nodup := by
  have longer := List.pairwise_reverse.2 (e.pairwise_ancestorsFrom [] way)
  refine List.pairwise_map.2 (longer.filterMap _ ?_)
  intro a b shorter l left m right same
  rw [ancestor_of_listener? left, ancestor_of_listener? right] at same
  rw [same] at shorter
  exact absurd shorter (lt_irrefl _)

theorem listenersLeft_sublist (e : Expr) (way : List ℕ) :
    (e.listenersLeft way).Sublist (e.listenersAround way) :=
  (List.takeWhile_sublist _).filterMap _

theorem mem_of_mem_takeWhile {α : Type} {p : α → Bool} {as bs : List α} {a x : α}
    (stops : p a = false) (mem : x ∈ (as ++ a :: bs).takeWhile p) : x ∈ as := by
  induction as with
  | nil => simp [stops] at mem
  | cons b as ih =>
    rw [List.cons_append, List.takeWhile_cons] at mem
    split at mem
    · rcases List.mem_cons.1 mem with rfl | mem
      · exact List.mem_cons_self
      · exact List.mem_cons_of_mem _ (ih mem)
    · cases mem

/-- **Recorded nodes that are left lie inside the child that is completed** of the node that has a
next child. -/
theorem Leads.listenersLeft_inside {frames outer : List Frame} {children : List Expr} {index : ℕ}
    (leads : e.Leads frames n) (next : (unwind frames).next = some (outer, children, index)) :
    ∃ i inner, index = i + 1 ∧ address frames = address outer ++ i :: inner ∧
      ∀ l ∈ e.listenersLeft (address frames), address outer ++ [i] <+: l.node := by
  obtain ⟨i, inner, rfl, rfl, more⟩ := unwind_next next
  obtain ⟨d, first, second⟩ := leads.split
  cases second with
  | @cons _ child _ _ _ into second =>
    refine ⟨i, address inner, rfl, by simp [address, Frame.child], fun l mem => ?_⟩
    have way : address (outer ++ .sequence children i :: inner) =
        address outer ++ i :: address inner := by simp [address, Frame.child]
    -- The ancestors further out, the one that has a next child, and those further in.
    have ancestors : e.ancestors (address outer ++ i :: address inner) = e.ancestors (address outer) ++
        ⟨d, address outer, i⟩ :: child.ancestorsFrom (address outer ++ [i]) (address inner) := by
      have into := into.child?
      rw [Frame.child] at into
      rw [Expr.ancestors, ancestorsFrom_append [] first.node?, List.nil_append, ancestorsFrom, into]
      rfl
    have hasNext : (!Ancestor.hasNext ⟨d, address outer, i⟩) = false := by
      cases into <;> simp [Ancestor.hasNext, more]
    obtain ⟨a, ha, found⟩ := List.mem_filterMap.1 mem
    rw [way, ancestors, List.reverse_append, List.reverse_cons, List.append_assoc] at ha
    have inside := List.mem_reverse.1
      (mem_of_mem_takeWhile (p := fun a : Ancestor => !a.hasNext) hasNext ha)
    rw [ancestor_of_listener? found]
    exact (address_of_mem_ancestorsFrom inside).1

end Expr

/-! ### Ends and listeners -/

namespace End

variable {x : End} {tree : Expr} {l : Listener}

theorem listeners_sublist (x : End) (tree : Expr) :
    (x.listeners tree).Sublist (tree.listenersAround x.address) := by
  unfold listeners
  split
  · exact .refl _
  · exact Expr.listenersLeft_sublist _ _

theorem prefix_of_mem_listeners (mem : l ∈ x.listeners tree) : l.node <+: x.address :=
  Expr.prefix_of_mem_listenersAround ((x.listeners_sublist tree).subset mem)

/-- Which recorded nodes hear of the branch. -/
def visits (x : End) (tree : Expr) : List (ℕ × List ℕ) :=
  (x.listeners tree).map fun l => (x.id, l.node)

theorem nodup_visits (x : End) (tree : Expr) : (x.visits tree).Nodup := by
  have nodes := ((x.listeners_sublist tree).map Listener.node).nodup
    (tree.nodup_listenersAround x.address)
  have tagged := nodes.map (f := fun node => (x.id, node)) fun a b same => (Prod.mk.inj same).2
  rwa [List.map_map] at tagged

theorem of_mem_visits {q : ℕ × List ℕ} (mem : q ∈ x.visits tree) :
    q.1 = x.id ∧ ∃ l ∈ x.listeners tree, l.node = q.2 := by
  obtain ⟨l, hl, rfl⟩ := List.mem_map.1 mem
  exact ⟨rfl, l, hl, rfl⟩

end End

/-! ### Moves -/

/-- A branch of number `id`, now at `place`, is one of those before, which are given with their
addresses, and has not gone back; or it is new. -/
def Heir (before : List (ℕ × List ℕ)) (t u : Tally) (id : ℕ) (place : List ℕ) : Prop :=
  (∃ q ∈ before, q.1 = id ∧ ∀ r, Past r q.2 → Past r place) ∨ t.nextId ≤ id ∧ id < u.nextId

/-- What reactions make of the branches before them. -/
structure Moves (tree : Expr) (before : List (ℕ × List ℕ)) (t : Tally) (xs : List End)
    (done : Effects × Tally) : Prop where
  grows : t.nextId ≤ done.2.nextId
  /-- No branch ends twice. -/
  distinct : (xs.map End.id).Nodup
  ends : ∀ x ∈ xs, Heir before t done.2 x.id x.address
  runs : ∀ b ∈ done.1.running, Heir before t done.2 b.id (address b.frames)
  /-- A branch that goes on after an end has left behind the nodes that heard of it. -/
  left : ∀ b ∈ done.1.running, ∀ x ∈ xs, x.id = b.id → ∀ l ∈ x.listeners tree,
    Past l.node (address b.frames)

theorem Heir.self (id : ℕ) (place : List ℕ) (t u : Tally) : Heir [(id, place)] t u id place :=
  .inl ⟨_, List.mem_singleton_self _, rfl, fun _ past => past⟩

/-- The only branch that ends is the one that was there. -/
theorem End.heir (x : End) (t u : Tally) :
    ∀ y ∈ [x], Heir [(x.id, x.address)] t u y.id y.address := by
  intro y mem
  obtain rfl := List.mem_singleton.1 mem
  exact .self ..

theorem Heir.mono {before : List (ℕ × List ℕ)} {t u v w : Tally} {id : ℕ} {place : List ℕ}
    (h : Heir before t u id place) (down : v.nextId ≤ t.nextId) (up : u.nextId ≤ w.nextId) :
    Heir before v w id place := by
  rcases h with old | new
  · exact .inl old
  · exact .inr ⟨down.trans new.1, new.2.trans_le up⟩

theorem Heir.sub {before more : List (ℕ × List ℕ)} {t u : Tally} {id : ℕ} {place : List ℕ}
    (h : Heir before t u id place) (sub : before ⊆ more) : Heir more t u id place :=
  h.imp_left fun ⟨q, mem, h⟩ => ⟨q, sub mem, h⟩

/-- Branches that come from different ones, or at different times, have different numbers. -/
theorem Heir.id_ne {as bs : List (ℕ × List ℕ)} {t u v : Tally} {i j : ℕ} {p q : List ℕ}
    (first : Heir as t u i p) (second : Heir bs u v j q) (grows : t.nextId ≤ u.nextId)
    (given : ∀ q ∈ as ++ bs, q.1 < t.nextId) (distinct : ((as ++ bs).map Prod.fst).Nodup) :
    i ≠ j := by
  rintro rfl
  rcases first with ⟨a, ha, rfl, -⟩ | ⟨low, high⟩ <;> rcases second with ⟨b, hb, same, -⟩ | ⟨low', high'⟩
  · rw [List.map_append] at distinct
    exact (List.nodup_append.1 distinct).2.2 _ (List.mem_map_of_mem ha) _ (List.mem_map_of_mem hb)
      same.symm
  · have := given a (List.mem_append_left _ ha)
    omega
  · have := given b (List.mem_append_right _ hb)
    omega
  · omega

namespace Moves

variable {tree : Expr} {before as bs : List (ℕ × List ℕ)} {t u : Tally}

theorem nil (tree : Expr) (before : List (ℕ × List ℕ)) (t : Tally) :
    Moves tree before t [] (.none, t) where
  grows := le_rfl
  distinct := List.nodup_nil
  ends := by simp
  runs := by simp [Effects.none]
  left := by simp

/-- One after another. -/
theorem append {xs ys : List End} {e : Effects} {y : Effects × Tally}
    (first : Moves tree as t xs (e, u)) (second : Moves tree bs u ys y)
    (given : ∀ q ∈ as ++ bs, q.1 < t.nextId) (distinct : ((as ++ bs).map Prod.fst).Nodup) :
    Moves tree (as ++ bs) t (xs ++ ys) (e ++ y.1, y.2) := by
  have grows : t.nextId ≤ u.nextId := first.grows
  have apart : ∀ {i j p q}, Heir as t u i p → Heir bs u y.2 j q → i ≠ j :=
    fun hi hj => hi.id_ne hj grows given distinct
  have early : ∀ {i p}, Heir as t u i p → Heir (as ++ bs) t y.2 i p :=
    fun h => (h.mono le_rfl second.grows).sub (List.subset_append_left _ _)
  have late : ∀ {i p}, Heir bs u y.2 i p → Heir (as ++ bs) t y.2 i p :=
    fun h => (h.mono grows le_rfl).sub (List.subset_append_right _ _)
  refine ⟨grows.trans second.grows, ?distinct, ?ends, ?runs, ?left⟩
  case distinct =>
    rw [List.map_append]
    refine List.nodup_append.2 ⟨first.distinct, second.distinct, fun i hi j hj => ?_⟩
    obtain ⟨x, hx, rfl⟩ := List.mem_map.1 hi
    obtain ⟨z, hz, rfl⟩ := List.mem_map.1 hj
    exact apart (first.ends x hx) (second.ends z hz)
  case ends =>
    intro x mem
    rcases List.mem_append.1 mem with mem | mem
    · exact early (first.ends x mem)
    · exact late (second.ends x mem)
  case runs =>
    intro b mem
    rcases List.mem_append.1 mem with mem | mem
    · exact early (first.runs b mem)
    · exact late (second.runs b mem)
  case left =>
    intro b hb x hx same
    rcases List.mem_append.1 hb with hb | hb <;> rcases List.mem_append.1 hx with hx | hx
    · exact first.left b hb x hx same
    · exact absurd same.symm (apart (first.runs b hb) (second.ends x hx))
    · exact absurd same (apart (first.ends x hx) (second.runs b hb))
    · exact second.left b hb x hx same

/-- The branches in between are those before, perhaps further in, and ones that got new numbers. -/
theorem inherit {more : List (ℕ × List ℕ)} {n : ℕ} {xs : List End} {y : Effects × Tally}
    (inner : Moves tree more (t.allocate n) xs y)
    (known : ∀ q ∈ more, (∃ a ∈ before, a.1 = q.1 ∧ a.2 <+: q.2) ∨
      t.nextId ≤ q.1 ∧ q.1 < t.nextId + n) : Moves tree before t xs y := by
  have grows : t.nextId + n ≤ y.2.nextId := inner.grows
  have heir : ∀ {i p}, Heir more (t.allocate n) y.2 i p → Heir before t y.2 i p := by
    rintro i p (⟨q, hq, rfl, past⟩ | ⟨low, high⟩)
    · rcases known q hq with ⟨a, ha, same, further⟩ | ⟨low, high⟩
      · exact .inl ⟨a, ha, same, fun r hr => past r (hr.further further)⟩
      · exact .inr ⟨low, by omega⟩
    · exact .inr ⟨by simp only [Tally.allocate] at low; omega, high⟩
  exact ⟨by omega, inner.distinct, fun x hx => heir (inner.ends x hx),
    fun b hb => heir (inner.runs b hb), inner.left⟩

/-- A branch that goes on running where it is. -/
theorem run (tree : Expr) (b : Branch) (t : Tally) (notes : List Note) :
    Moves tree [(b.id, address b.frames)] t [] (.run b ++ .note notes, t) where
  grows := le_rfl
  distinct := List.nodup_nil
  ends := by simp
  runs := by
    intro c mem
    obtain rfl : c = b := by simpa [Effects.run, Effects.note] using mem
    exact .self ..
  left := by simp

theorem fail (tree : Expr) (path : ℕ) (b : Branch) (e : EvalError) (t : Tally) :
    Moves tree [(b.id, address b.frames)] t [⟨b, some e⟩] (b.fail path e, t) where
  grows := le_rfl
  distinct := List.nodup_singleton _
  ends := End.heir ⟨b, some e⟩ t t
  runs := by simp [Branch.fail]
  left := by simp [Branch.fail]

/-- **A branch that is done with its node** goes on behind the recorded nodes that heard of it. -/
theorem complete {b : Branch} (stands : b.strand.Stands tree) (path : ℕ) (t : Tally) :
    Moves tree [(b.id, address b.frames)] t [⟨b, none⟩] (b.complete path t) := by
  obtain ⟨n, leads, -⟩ := stands
  unfold Branch.complete
  dsimp only
  split
  · exact ⟨le_rfl, List.nodup_singleton _, End.heir ⟨b, none⟩ _ _, by simp, by simp⟩
  · rename_i outer children index next
    obtain ⟨i, inner, rfl, way, inside⟩ := leads.listenersLeft_inside next
    have way : address b.frames = address outer ++ i :: inner := way
    have place : ∀ c ∈ b.carryOn outer (startsAt children (i + 1)) t.nextId,
        ∃ more, address c.frames = address outer ++ (i + 1) :: more := by
      intro c mem
      obtain ⟨s, hs, frames, -⟩ := Branch.place_of_mem_carryOn mem
      obtain ⟨further, starts⟩ := frames_of_mem_startsAt hs
      exact ⟨address further, by simp [frames, starts, address, Frame.child]⟩
    refine ⟨by simp [Tally.allocate], List.nodup_singleton _, ?ends, ?runs, ?left⟩
    case ends => exact End.heir ⟨b, none⟩ _ _
    case runs =>
      intro c mem
      obtain ⟨more, at_c⟩ := place c mem
      obtain ⟨s, hs, -, -⟩ := Branch.place_of_mem_carryOn mem
      have numbers := Branch.ids_carryOn b outer t.nextId (List.ne_nil_of_mem hs)
      have number := numbers ▸ List.mem_map_of_mem (f := Branch.id) mem
      rcases List.mem_cons.1 number with same | new
      · refine .inl ⟨_, List.mem_singleton_self _, same.symm, fun r past => ?_⟩
        rw [way] at past
        rw [at_c]
        exact past.carry (Nat.lt_succ_self i)
      · rw [List.mem_range'_1] at new
        simpa [Heir, Tally.allocate, Branch.length_carryOn] using Or.inr new
    case left =>
      intro c mem x hx same l hl
      obtain ⟨more, at_c⟩ := place c mem
      obtain rfl := List.mem_singleton.1 hx
      rw [at_c]
      exact ⟨address outer, i, i + 1, Nat.lt_succ_self i, inside l hl, ⟨more, by simp⟩⟩

/-- Notes do not move branches. -/
theorem noted {xs : List End} {y : Effects × Tally} (h : Moves tree before t xs y)
    (notes : List Note) : Moves tree before t xs (.note notes ++ y.1, y.2) :=
  ⟨h.grows, h.distinct, h.ends, h.runs, h.left⟩

end Moves

namespace Reaction

variable {tree : Expr} {event : Record}

theorem fst_tagged (ids : List ℕ) (w : List ℕ) : (ids.map fun i => (i, w)).map Prod.fst = ids := by
  simp [Function.comp_def]

/-- Sound reactions under the given numbers, all of them inside the same frames. -/
theorem forall₂_of_soundAll {frames : List Frame} {rs : List Reaction}
    (sound : SoundAll tree event frames rs) {ids : List ℕ} (len : ids.length = rs.length) :
    List.Forall₂ (fun q r => ∃ frames, q.2 <+: address frames ∧ r.Sound tree event frames)
      (ids.map fun i => (i, address frames)) rs := by
  induction rs generalizing ids with
  | nil =>
    obtain rfl := List.length_eq_zero_iff.1 len
    exact .nil
  | cons r rest ih =>
    obtain ⟨⟨inner, here⟩, others⟩ := sound
    cases ids with
    | nil => cases len
    | cons i ids =>
      refine .cons ⟨frames ++ inner, ?_, here⟩ (ih others (Nat.succ.inj len))
      rw [address, address, List.map_append]
      exact List.prefix_append _ _

mutual
/-- The reaction of a branch moves it and the branches that follow from it. -/
theorem deliver_moves {frames : List Frame} {r : Reaction} (sound : r.Sound tree event frames)
    (path id : ℕ) {t : Tally} (given : id < t.nextId) :
    Moves tree [(id, address frames)] t (r.ends path id t) (r.deliver path id t) := by
  match r with
  | .stay s =>
    obtain ⟨rfl, -⟩ := sound
    exact Moves.run tree (s.branch id) t []
  | .fail s e =>
    obtain ⟨rfl, -⟩ := sound
    exact Moves.fail tree path (s.branch id) e t
  | .leave s =>
    obtain ⟨rfl, stands, -⟩ := sound
    exact Moves.complete (b := s.branch id) stands path t
  | .descend [] =>
    refine Moves.noted (y := (.none, t.allocate 0)) ?_ _
    exact Moves.inherit (Moves.nil tree [] (t.allocate 0)) nofun
  | .descend (r :: rest) =>
    -- The first branch that follows keeps the number.
    let ids := id :: List.range' t.nextId rest.length
    have below : ∀ i ∈ ids, i < t.nextId + rest.length := by
      intro i mem
      rcases List.mem_cons.1 mem with rfl | new
      · omega
      · exact (List.mem_range'_1.1 new).2
    have distinct : ids.Nodup := by
      refine List.nodup_cons.2 ⟨fun mem => ?_, List.nodup_range'⟩
      have := (List.mem_range'_1.1 mem).1
      omega
    have followers_sound : SoundAll tree event frames (r :: rest) := sound
    have inner := deliverAll_moves (forall₂_of_soundAll followers_sound
      (show ids.length = (r :: rest).length by simp [ids])) path
      (t := t.allocate rest.length) (List.forall_mem_map.2 below)
      ((fst_tagged ids (address frames)).symm ▸ distinct)
    rw [fst_tagged] at inner
    refine Moves.noted (inner.inherit ?_) _
    intro q mem
    obtain ⟨i, hi, rfl⟩ := List.mem_map.1 mem
    rcases List.mem_cons.1 hi with rfl | new
    · exact .inl ⟨_, List.mem_singleton_self _, rfl, List.prefix_rfl⟩
    · exact .inr (List.mem_range'_1.1 new)
  | .group router members =>
    obtain ⟨rfl, -, sound⟩ := sound
    let ids := List.range' t.nextId members.length
    have inner := deliverAll_moves (forall₂_of_soundAll sound
      (show ids.length = members.length by simp [ids])) path
      (t := t.allocate members.length)
      (List.forall_mem_map.2 fun i mem => (List.mem_range'_1.1 mem).2)
      ((fst_tagged ids (address router.frames)).symm ▸ List.nodup_range')
    rw [fst_tagged] at inner
    have members_new : Moves tree [] t _ _ := inner.inherit fun q mem => by
      obtain ⟨i, hi, rfl⟩ := List.mem_map.1 mem
      exact .inr (List.mem_range'_1.1 hi)
    exact (Moves.run tree (router.branch id) t _).append members_new
      (List.forall_mem_singleton.2 given) (List.nodup_singleton _)

theorem deliverAll_moves {before : List (ℕ × List ℕ)} {rs : List Reaction}
    (sound : List.Forall₂ (fun q r => ∃ frames, q.2 <+: address frames ∧
      r.Sound tree event frames) before rs) (path : ℕ) {t : Tally}
    (given : ∀ q ∈ before, q.1 < t.nextId) (distinct : (before.map Prod.fst).Nodup) :
    Moves tree before t (endsAll path (before.map Prod.fst) rs t)
      (deliverAll path (before.map Prod.fst) rs t) := by
  match rs, before, sound with
  | [], _, .nil => exact Moves.nil tree [] t
  | r :: rest, q :: before, .cons here others =>
    obtain ⟨frames, further, here⟩ := here
    have first : Moves tree [q] t (r.ends path q.1 t) (r.deliver path q.1 t) := by
      refine Moves.inherit (n := 0) (deliver_moves here path q.1 (given q List.mem_cons_self)) ?_
      intro a mem
      obtain rfl := List.mem_singleton.1 mem
      exact .inl ⟨q, List.mem_singleton_self _, rfl, further⟩
    have second := deliverAll_moves others path (t := (r.deliver path q.1 t).2)
      (fun a mem => (given a (List.mem_cons_of_mem _ mem)).trans_le first.grows)
      (List.nodup_cons.1 distinct).2
    exact first.append second given distinct
end

end Reaction

/-! ### Runs -/

namespace Path

variable {S : Scope} {tree : Expr} {p : Path}

/-- Which branches are reported to which recorded nodes in a run, in the order of time. -/
def visits (tree : Expr) : Path → List Act → List (ℕ × List ℕ)
  | _, [] => []
  | p, .event e :: rest =>
    (p.ends e).flatMap (·.visits tree) ++ visits tree (p.onEvent e).1 rest
  | p, .close :: rest => visits tree p.close rest

/-- What an event does to the running branches. -/
theorem Placed.moves (coherent : S.Coherent) (h : p.Placed S tree) (ledger : p.Ledger)
    (opened : p.closed = false) (e : Record) :
    ∃ done, (∀ b ∈ (p.onEvent e).1.running, b ∈ done.1.running) ∧
      (p.onEvent e).1.nextId = done.2.nextId ∧
      Moves tree (p.running.map fun b => (b.id, address b.frames)) ⟨p.nextId, 0, []⟩ (p.ends e)
        done := by
  have matched : Matches S e (p.turn e) _ := turn_matches coherent h.within
  have numbers : (p.running.map fun b => (b.id, address b.frames)).map Prod.fst =
      p.running.map Branch.id := by simp [Function.comp_def]
  have sound : List.Forall₂ (fun q r => ∃ frames, q.2 <+: address frames ∧ r.Sound tree e frames)
      (p.running.map fun b => (b.id, address b.frames))
      ((p.running.map Branch.strand).map (Strand.react e 0)) := by
    rw [List.map_map, List.forall₂_map_left_iff, List.forall₂_map_right_iff, List.forall₂_same]
    exact fun b mem => ⟨b.frames, List.prefix_rfl, Strand.sound_react (h.stands b mem)⟩
  have distinct : (p.running.map Branch.id).Nodup :=
    List.pairwise_map.2 (ledger.ascending.imp Nat.ne_of_lt)
  have moves := Reaction.deliverAll_moves sound p.id (t := ⟨p.nextId, 0, []⟩)
    (List.forall_mem_map.2 fun b mem => ledger.id_lt mem) (numbers.symm ▸ distinct)
  rw [numbers] at moves
  refine ⟨_, ?_, ?_, ends_of_open opened e ▸ moves⟩
  · intro b mem
    rw [← matched.running]
    exact (perm_running_onEvent opened e).mem_iff.1 mem
  · rw [nextId_onEvent opened, matched.tally]
    rfl

/-- The reports so far were to different nodes or about different branches, and the running branches
have left behind the nodes that heard of them. -/
structure Behind (p : Path) (visited : List (ℕ × List ℕ)) : Prop where
  nodup : visited.Nodup
  given : ∀ q ∈ visited, q.1 < p.nextId
  past : ∀ q ∈ visited, ∀ b ∈ p.running, b.id = q.1 → Past q.2 (address b.frames)

/-- **An event brings no report a second time.** -/
theorem Behind.onEvent (coherent : S.Coherent) (placed : p.Placed S tree) (ledger : p.Ledger)
    (opened : p.closed = false) {visited : List (ℕ × List ℕ)} (h : p.Behind visited) (e : Record) :
    (p.onEvent e).1.Behind (visited ++ (p.ends e).flatMap (·.visits tree)) := by
  obtain ⟨done, running, next, moves⟩ := placed.moves coherent ledger opened e
  have grows : p.nextId ≤ done.2.nextId := moves.grows
  -- A branch that heard of before has left the nodes behind, whatever happens.
  have stays : ∀ q ∈ visited, ∀ {place}, Heir (p.running.map fun b => (b.id, address b.frames))
      ⟨p.nextId, 0, []⟩ done.2 q.1 place → Past q.2 place := by
    rintro q hq place (⟨a, ha, same, further⟩ | ⟨low, -⟩)
    · obtain ⟨b, hb, rfl⟩ := List.mem_map.1 ha
      exact further _ (h.past q hq b hb same)
    · exact absurd (h.given q hq) (Nat.not_lt.2 low)
  have below : ∀ {i place}, Heir (p.running.map fun b => (b.id, address b.frames))
      ⟨p.nextId, 0, []⟩ done.2 i place → i < done.2.nextId := by
    rintro i place (⟨a, ha, rfl, -⟩ | ⟨-, high⟩)
    · obtain ⟨b, hb, rfl⟩ := List.mem_map.1 ha
      exact (ledger.id_lt hb).trans_le grows
    · exact high
  refine ⟨List.nodup_append.2 ⟨h.nodup, ?fresh, ?disjoint⟩, ?given, ?past⟩
  case fresh =>
    refine List.nodup_flatMap.2 ⟨fun x _ => x.nodup_visits tree, ?_⟩
    refine (List.pairwise_map.1 moves.distinct).imp fun {x y} other q hx hy => ?_
    exact other ((End.of_mem_visits hx).1.symm.trans (End.of_mem_visits hy).1)
  case disjoint =>
    rintro q hq _ hx rfl
    obtain ⟨x, mem, hx⟩ := List.mem_flatMap.1 hx
    obtain ⟨same, l, hl, node⟩ := End.of_mem_visits hx
    have past := stays q hq (same ▸ moves.ends x mem)
    exact past.not_prefix (node ▸ End.prefix_of_mem_listeners hl)
  case given =>
    intro q hq
    rw [next]
    rcases List.mem_append.1 hq with hq | hq
    · exact (h.given q hq).trans_le grows
    · obtain ⟨x, mem, hx⟩ := List.mem_flatMap.1 hq
      exact (End.of_mem_visits hx).1 ▸ below (moves.ends x mem)
  case past =>
    intro q hq b hb same
    rcases List.mem_append.1 hq with hq | hq
    · exact stays q hq (same ▸ moves.runs b (running b hb))
    · obtain ⟨x, mem, hx⟩ := List.mem_flatMap.1 hq
      obtain ⟨same', l, hl, node⟩ := End.of_mem_visits hx
      exact node ▸ moves.left b (running b hb) x mem (same'.symm.trans same.symm) l hl

/-- **No recorded node hears of a branch twice** in a whole run. -/
theorem Behind.nodup_visits (coherent : S.Coherent) (placed : p.Placed S tree) (ledger : p.Ledger)
    {visited : List (ℕ × List ℕ)} (h : p.Behind visited) (acts : List Act) :
    (visited ++ visits tree p acts).Nodup := by
  induction acts generalizing p visited with
  | nil => simpa [visits] using h.nodup
  | cons act rest ih =>
    cases act with
    | close =>
      exact ih (p := p.close) ⟨placed.within, placed.stands⟩ { ledger with }
        ⟨h.nodup, h.given, h.past⟩
    | event e =>
      rw [visits, ← List.append_assoc]
      cases opened : p.closed with
      | true =>
        rw [ends_of_closed opened, onEvent_of_closed opened]
        simpa using ih placed ledger h
      | false =>
        exact ih (placed.onEvent coherent e) (ledger.onEvent placed.within opened e)
          (h.onEvent coherent placed ledger opened e)

theorem behind_nil (p : Path) : p.Behind [] := ⟨List.nodup_nil, nofun, nofun⟩

end Path

end TracePattern
