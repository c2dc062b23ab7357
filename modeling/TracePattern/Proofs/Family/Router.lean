import TracePattern.Proofs.Family.Run
import Mathlib.Data.List.Induction

/-!
# Routers

A path that groups its events starts with a router, which goes on running all the time.  An event
whose key the router does not know yet makes it form a group, and this group is a path of its own,
which starts with this event.

* `KeyExtractor.finds`: the key of an event equals a value;
* `Strand.react_known`, `Strand.react_new`: what an event does to a router;
* `Path.router_after`: the router of a path, and the keys that it knows;
* `Grown.run_root_append`: new branches that start a part;
* `Path.Live.founded`: the event that founds a group.
-/

namespace TracePattern

/-- The key of the event equals the value. -/
def KeyExtractor.finds (k : KeyExtractor) (event : Record) (value : Value) : Bool :=
  (k.key? event).any fun v => v.equal value

variable {S : Scope} {event : Record} {key : KeyExtractor} {template : Expr} {known next : KeySet}
  {value : Value} {captures : Captures}

theorem KeyExtractor.finds_of_key? {v : Value} (h : key.key? event = some v) (other : Value) :
    key.finds event other = v.equal other := by
  unfold finds
  rw [h]
  rfl

theorem KeyExtractor.key?_of_finds (h : key.finds event value = true) :
    key.key? event = some value := by
  unfold finds at h
  cases hk : key.key? event with
  | none => simp [hk] at h
  | some v =>
    rw [hk] at h
    rw [(Value.equal_iff.1 h).2]

/-- No key equals an opaque value. -/
theorem KeyExtractor.finds_foreign (h : value.tag = .foreign) : key.finds event value = false := by
  unfold finds
  cases hk : key.key? event with
  | none => rfl
  | some v =>
    show v.equal value = false
    by_contra he
    obtain ⟨htag, rfl⟩ := Value.equal_iff.1 (by simpa using he)
    exact htag h

/-! ### Reactions of routers -/

/-- What an event does to the matches that start on an expression. -/
def Expr.reactions (e : Expr) (captures : Captures) (event : Record) : List Reaction :=
  (strandsAt captures [] e.starts).map (Strand.react event 0)

/-- A router on its own. -/
def Strand.router (captures : Captures) (key : KeyExtractor) (template : Expr) (known : KeySet) :
    Strand := ⟨captures, [], .router key template known⟩

namespace Strand

/-- An event without a key, or with a key that is known, leaves a router as it is. -/
theorem react_known (h : ∀ v, key.key? event = some v → known.has v = true) :
    (router captures key template known).react event 0 =
      .stay (router captures key template known) := by
  have seen : (router captures key template known).look event 0 =
      (router captures key template known, .stay) := by
    unfold look meet router
    cases hk : key.key? event with
    | none => simp [letsAll, hk]
    | some v =>
      have := KeySet.insert?_eq_none.2 (h v hk)
      simp [letsAll, hk, this]
  rw [react_eq, seen]

/-- An event with a new key makes a router form a group. The strands of the group get the event as
if they were on their own. -/
theorem react_new (h : key.key? event = some value) (new : known.insert? value = some next) :
    (router captures key template known).react event 0 =
      .group (router captures key template next) (Reaction.insideAll [.route key value]
        (template.reactions (captures.insert key.name value) event)) := by
  have seen : (router captures key template known).look event 0 =
      (router captures key template known, .group key template value next) := by
    unfold look meet router
    simp [letsAll, h, new]
  have members : ∀ s : Strand, (s.inside [.route key value]).react event 1 =
      (s.react event 0).inside [.route key value] := fun s =>
    @react_inside [.route key value] s event 0
  rw [react_eq, seen, Reaction.insideAll_eq, Expr.reactions, List.map_map]
  have places : strandsAt (captures.insert key.name value) [.route key value] template.starts =
      (strandsAt (captures.insert key.name value) [] template.starts).map
        (inside [.route key value]) := strandsAt_inside _ [.route key value] [] _
  show Reaction.group (router captures key template next) ((strandsAt
    (captures.insert key.name value) [.route key value] template.starts).map (react event 1)) = _
  rw [places, List.map_map]
  congr 1
  exact List.map_congr_left fun s _ => members s

end Strand

/-! ### The router of a path -/

namespace Path

variable (coherent : S.Coherent) (within : (Expr.groupBy key template).Within S)
include coherent within

/-- **The router of a path goes on running**, and it knows the keys of the events so far. -/
theorem router_after (id : ℕ) (name : Option String) (initial : Captures) (events : List Record) :
    ∃ known, (Strand.router initial key template known).branch 0 ∈
        ((start id name (.groupBy key template) initial).onEvents events).1.running ∧
      ∀ v, known.has v = true ↔ ∃ e ∈ events, key.finds e v = true := by
  induction events using List.reverseRecOn with
  | nil =>
    refine ⟨.empty, ?_, fun v => by simp⟩
    simp [onEvents, start, Expr.starts, Branch.launch, Strand.router, Strand.branch]
  | append_singleton before e ih =>
    obtain ⟨known, hrouter, hknown⟩ := ih
    have live : ((start id name (.groupBy key template) initial).onEvents before).1.Live S :=
      (live_start within id name initial).onEvents before
    rw [(onEvents_append _ before [e]).1]
    obtain ⟨u, running, -⟩ := onEvent_of_mem coherent live.within live.opened hrouter e
    rw [Strand.branch_strand] at running
    have further : ∀ v, (∃ d ∈ before ++ [e], key.finds d v = true) ↔
        known.has v = true ∨ key.finds e v = true := by
      intro v
      simp [hknown, or_and_right, exists_or]
    by_cases stays : ∀ v, key.key? e = some v → known.has v = true
    · rw [Strand.react_known stays] at running
      refine ⟨known, running (List.mem_singleton_self _), fun v => ?_⟩
      rw [further]
      refine ⟨.inl, fun h => ?_⟩
      rcases h with h | h
      · exact h
      · exact stays v (KeyExtractor.key?_of_finds h)
    · push Not at stays
      obtain ⟨w, hk, fresh⟩ := stays
      obtain ⟨next, hnext⟩ := KeySet.exists_insert? (Bool.eq_false_iff.2 fresh)
      rw [Strand.react_new hk hnext] at running
      refine ⟨next, running ?_, fun v => ?_⟩
      · exact List.mem_append_left _ (List.mem_append_left _ (List.mem_singleton_self _))
      · rw [further, KeySet.has_insert? hnext, KeyExtractor.finds_of_key? hk]

omit coherent within in
/-- The branch with the smallest number comes first. -/
theorem Ledger.running_eq_cons {p : Path} (h : p.Ledger) {b : Branch} (hb : b ∈ p.running)
    (hid : b.id = 0) : ∃ rest, p.running = b :: rest ∧ ∀ c ∈ rest, 0 < c.id := by
  have ascending := h.ascending
  cases hr : p.running with
  | nil =>
    rw [hr] at hb
    cases hb
  | cons first rest =>
    rw [hr] at hb ascending
    have later := (List.pairwise_cons.1 ascending).1
    rcases List.mem_cons.1 hb with rfl | hb
    · exact ⟨rest, rfl, fun c hc => hid ▸ later c hc⟩
    · have := later b hb
      omega

/-! ### The founding of a group -/

omit coherent within in
/-- The first event of a path. -/
theorem answered_start (id : ℕ) (name : Option String) (e : Expr) (initial : Captures)
    (event : Record) :
    (start id name e initial).answered (Strand.react event 0) =
      Reaction.deliverAll id (List.range' 0 (e.reactions initial event).length)
        (e.reactions initial event) ⟨(e.reactions initial event).length, 0, []⟩ := by
  have count : (e.reactions initial event).length = e.starts.length := by
    simp [Expr.reactions, strandsAt]
  simp only [answered, start, Branch.ids_launch, strands_launch, Branch.length_launch, count]
  rfl

omit coherent within in
/-- New branches that a router starts are those of a path of the template. -/
theorem grown_of_group (path id : ℕ) (name : Option String) (template : Expr)
    (initial : Captures) (event : Record) {u : Tally} (hid : 0 < u.nextId) (router : Strand) :
    let members := template.reactions (initial.insert key.name value) event
    ∃ link, Grown [.route key value] [0] [] ⟨0, 0, []⟩ u
      ((start id name template (initial.insert key.name value)).answered (Strand.react event 0))
      ((Reaction.group router (Reaction.insideAll [.route key value] members)).deliver path 0 u)
      link := by
  intro members
  have groups : OfGroups [Frame.route key value] := by
    intro f hf
    exact ⟨key, value, List.mem_singleton.1 hf⟩
  -- The new branches get their numbers together.
  have linked : Linked (extend [] 0 u.nextId members.length) members.length
      (u.nextId + members.length) := by
    have := (Linked.nil 0 u.nextId).extend members.length
    rwa [Nat.zero_add] at this
  have tracks := Reaction.deliverAll_tracks groups id path members
    (forall₂_extend [] 0 u.nextId members.length) ⟨members.length, 0, []⟩
    (u.allocate members.length)
  have numbered := Reaction.deliverAll_numbered path (List.range' u.nextId members.length)
    (Reaction.insideAll [.route key value] members) (t := u.allocate members.length)
    fun i hi => (List.mem_range'_1.1 hi).2
  obtain ⟨link, grown⟩ := Grown.of_tracks [0] linked (fun i hi => by
    rw [partOf_extend]
    exact List.mem_append_right _ hi) numbered tracks
  have not_part : 0 ∉ partOf [] := by simp [partOf]
  rw [answered_start, Reaction.deliver, Reaction.length_insideAll]
  refine ⟨link, ?_⟩
  exact .run_root_append (List.mem_singleton_self 0) not_part hid (Nat.zero_add _).symm rfl grown

/-- **The event that founds a group.** The new branches, and what follows from them in the same
event, are those of a path of the template after this event. -/
theorem Live.founded {whole : Path} (live : whole.Live S) {initial : Captures}
    (hrouter : (Strand.router initial key template known).branch 0 ∈ whole.running)
    (hk : key.key? event = some value) (fresh : known.has value = false) (id : ℕ)
    (name : Option String) :
    ∃ link, Family [.route key value] link
        ((start id name template (initial.insert key.name value)).onEvent event).1
        (whole.onEvent event).1 ∧
      (∀ n ∈ partOf link, whole.nextId ≤ n) ∧
      ∀ q ∈ Note.lineage (whole.onEvent event).2.notes,
        q.2 ∈ partOf link ↔ q.1 ∈ partOf link ∨ q.1 = 0 := by
  obtain ⟨next, hnext⟩ := KeySet.exists_insert? fresh
  obtain ⟨rest, running, later⟩ := live.ledger.running_eq_cons hrouter rfl
  have hid : 0 < whole.nextId := live.id_lt hrouter
  have old : ∀ b ∈ rest, b.id < whole.nextId := fun b hb =>
    live.id_lt (running ▸ List.mem_cons_of_mem _ hb)
  have groups : OfGroups [Frame.route key value] := by
    intro f hf
    exact ⟨key, value, List.mem_singleton.1 hf⟩
  -- The group is the first part of the turn, and the others do not belong to it.
  let template_path := start id name template (initial.insert key.name value)
  let x := template_path.answered (Strand.react event 0)
  let group := ((Strand.router initial key template known).react event 0).deliver whole.id 0
    ⟨whole.nextId, 0, []⟩
  let others := Reaction.deliverAll whole.id (rest.map Branch.id)
    ((rest.map Branch.strand).map (Strand.react event 0)) group.2
  have whole_eq : whole.answered (Strand.react event 0) = (group.1 ++ others.1, others.2) := by
    rw [answered, running]
    rfl
  obtain ⟨link₁, first⟩ : ∃ link, Grown [.route key value] [0] [] ⟨0, 0, []⟩ ⟨whole.nextId, 0, []⟩
      x group link := by
    simp only [group, Strand.react_new hk hnext]
    exact grown_of_group whole.id id name template initial event hid _
  have advances : whole.nextId ≤ group.2.nextId := first.advances
  have apart : (rest.filter fun b => b.id ∈ partOf link₁) = [] := by
    refine List.filter_eq_nil_iff.2 fun b hb hmem => ?_
    rcases first.new b.id (of_decide_eq_true hmem) with hnew | hnew
    · simp [partOf] at hnew
    · exact absurd (old b hb) (Nat.not_lt.2 hnew)
  obtain ⟨link, second⟩ : ∃ link, Grown [.route key value] [0] link₁ x.2 group.2
      (.none, x.2) others link := by
    refine @grown_of_all _ _ _ _ _ groups id whole.id .stay (Strand.react event 0) [] rest
      first.linked ?_ ?_ ?_ (by simp)
    · intro n hn
      rw [List.mem_singleton.1 hn]
      omega
    · intro b hb
      have := old b hb
      have := later b hb
      refine ⟨by omega, fun hmem => ?_⟩
      have := List.mem_singleton.1 hmem
      omega
    · rw [apart]
      exact .nil
  have grown := first.append second
  rw [Effects.append_none, ← whole_eq] at grown
  obtain ⟨right, lineage⟩ := live.onEvent_took_answered coherent event
  have new := live_start within.2 id name (initial.insert key.name value)
  have left := (new.onEvent_took_answered coherent event).1
  refine ⟨link, family_of_grown grown rfl ?_ (fun f hf => live.finished_id_lt hf) left right,
    fun n hn => ?_, fun q hq => ?_⟩
  · have nothing : (whole.finished.filter fun f => f.id ∈ partOf []) = [] :=
      List.filter_eq_nil_iff.2 fun f _ => by simp [partOf]
    rw [nothing]
    exact .nil
  · exact (grown.new n hn).resolve_left (by simp [partOf])
  · rw [lineage] at hq
    simpa using grown.descent q hq

omit within in
/-- A router only starts new branches for a key that it does not know. -/
theorem Live.new_of_birth {whole : Path} (live : whole.Live S) {initial : Captures}
    (hrouter : (Strand.router initial key template known).branch 0 ∈ whole.running) {n : ℕ}
    (birth : (0, n) ∈ Note.lineage (whole.onEvent event).2.notes) :
    ∃ v, key.key? event = some v ∧ known.has v = false := by
  by_contra all_known
  push Not at all_known
  have stays : ∀ v, key.key? event = some v → known.has v = true := fun v hv => by
    simpa using all_known v hv
  obtain ⟨rest, running, later⟩ := live.ledger.running_eq_cons hrouter rfl
  have hid : 0 < whole.nextId := live.id_lt hrouter
  -- Then all notes come from the other branches, and these have greater numbers.
  let others := Reaction.deliverAll whole.id (rest.map Branch.id)
    ((rest.map Branch.strand).map (Strand.react event 0)) ⟨whole.nextId, 0, []⟩
  have whole_eq : whole.answered (Strand.react event 0) =
      (.run ((Strand.router initial key template known).branch 0) ++ others.1, others.2) := by
    rw [answered, running]
    simp only [List.map_cons, Reaction.deliverAll, Strand.branch_strand, Strand.react_known stays]
    rfl
  have numbered : Numbered _ _ others := Reaction.deliverAll_numbered whole.id _ _ fun i hi => by
    refine live.orderly.ids_lt i ?_
    rw [running]
    exact List.mem_cons_of_mem _ hi
  rw [(live.onEvent_took_answered coherent event).2, whole_eq, Effects.notes_append,
    Note.lineage_append] at birth
  obtain ⟨parent, -⟩ := numbered.parent (0, n) birth
  rcases parent with parent | parent
  · obtain ⟨b, hb, hb0⟩ := List.mem_map.1 parent
    have := later b hb
    omega
  · exact absurd parent (Nat.not_le.2 hid)

end Path

end TracePattern
