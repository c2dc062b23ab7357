import Mathlib.Data.List.Nodup
import TracePattern.Proofs.Pool.Archive
import TracePattern.Proofs.Run
import TracePattern.Registry

/-!
# What a path hears

A registry hands events to all its open paths, in an order of its own.  A path cannot tell that
there are others: it is as if it had been started alone and had got the events of its time.

* `Registry.broadcastIn_eq`: what a broadcast does, whatever its order;
* `Station`: a registry, the desk of the pool its records come from, and the handles of its paths;
* `Station.Does`, `Station.Runs`: what is done at a station;
* `Station.Does.registry_eq`: what one act does to all paths;
* `Station.Act.heard`: the events for a path, from its start to its disposal;
* `Station.delivered`: every path is what it would be alone.
-/

namespace TracePattern

/-! ### Broadcasts -/

namespace Registry

variable {r : Registry} {e : Record} {order : List ℕ}

theorem add_eq_ok {name : Option String} {tree : Expr} {initial : Captures}
    {added : Path × Registry} (h : r.add name tree initial = .ok added) :
    tree.defect? = none ∧ added = (.start r.nextId name tree initial,
      { r with
        nextId := r.nextId + 1
        paths := r.paths ++ [.start r.nextId name tree initial] }) := by
  unfold add at h
  split at h
  · cases h
  · rename_i valid
    exact ⟨valid, (Except.ok.inj h).symm⟩

theorem add_eq_error {name : Option String} {tree : Expr} {initial : Captures} {d : Defect}
    (h : r.add name tree initial = .error d) : tree.defect? = some d := by
  unfold add at h
  split at h
  · rename_i found
    exact found.trans (congrArg some (Except.error.inj h))
  · cases h

/-- With the numbers of the paths apart, a delivery changes the path of its number only. -/
theorem deliver_eq (apart : (r.paths.map Path.id).Nodup) (e : Record) (id : ℕ) :
    (r.deliver e id).1 = r.update id fun p => (p.onEvent e).1 := by
  unfold deliver path?
  cases found : r.paths.find? fun p => p.id = id with
  | none =>
    have absent : ∀ p ∈ r.paths, p.id ≠ id := by simpa using found
    have same : r.paths.map (fun p => if p.id = id then (p.onEvent e).1 else p) = r.paths :=
      (List.map_congr_left fun p mem => if_neg (absent p mem)).trans (List.map_id _)
    simp only [update, same]
  | some p =>
    obtain ⟨mem, at_id⟩ : p ∈ r.paths ∧ p.id = id :=
      ⟨List.mem_of_find?_eq_some found, by simpa using List.find?_some found⟩
    simp only [update]
    congr 1
    refine List.map_congr_left fun q hq => ?_
    by_cases here : q.id = id
    · rw [if_pos here, if_pos here,
        List.inj_on_of_nodup_map apart hq mem (here.trans at_id.symm)]
    · rw [if_neg here, if_neg here]

theorem ids_update (r : Registry) (id : ℕ) {f : Path → Path} (keeps : ∀ p, (f p).id = p.id) :
    (r.update id f).paths.map Path.id = r.paths.map Path.id := by
  simp only [update, List.map_map]
  refine List.map_congr_left fun p _ => ?_
  by_cases here : p.id = id <;> simp [here, keeps]

/-- **Deliveries to different paths do not depend on their order.** -/
theorem deliverAll_eq (apart : (r.paths.map Path.id).Nodup) (distinct : order.Nodup) (e : Record) :
    order.foldl (fun r id => (r.deliver e id).1) r =
      { r with paths := r.paths.map fun p => if p.id ∈ order then (p.onEvent e).1 else p } := by
  induction order generalizing r with
  | nil => simp
  | cons id rest ih =>
    obtain ⟨new, distinct⟩ := List.nodup_cons.1 distinct
    have ids := r.ids_update id (f := fun p => (p.onEvent e).1) fun p => Path.id_onEvent p e
    rw [List.foldl_cons, deliver_eq apart, ih (ids ▸ apart) distinct]
    simp only [update, List.map_map]
    congr 1
    refine List.map_congr_left fun p _ => ?_
    by_cases here : p.id = id
    · subst here
      simp [new]
    · simp [here]

/-- **A broadcast that is accepted gets to all open paths**, in whatever order it visits them. -/
theorem broadcastIn_eq (apart : (r.paths.map Path.id).Nodup)
    (visits : order.Perm (r.live.map Path.id)) (isPublic : Bool) (e : Record) :
    (r.broadcastIn order isPublic e).1 =
      if r.accepts isPublic then { r with paths := r.paths.map fun p => (p.onEvent e).1 }
      else r := by
  -- What the paths say on the way does not matter for what becomes of them.
  have fold : ∀ (f : Registry × Output → ℕ → Registry × Output) (s : Registry × Output),
      (∀ s id, (s.1.deliver e id).1 = (f s id).1) →
        (order.foldl f s).1 = order.foldl (fun r id => (r.deliver e id).1) s.1 :=
    fun f s step => (List.foldl_hom Prod.fst step).symm
  have distinct : order.Nodup := by
    refine visits.nodup_iff.2 (apart.sublist ?_)
    exact (List.filter_sublist (l := r.paths)).map _
  unfold broadcastIn
  split
  · rw [fold, deliverAll_eq apart distinct]
    · congr 1
      refine List.map_congr_left fun p mem => ?_
      -- A path that is not visited is closed, and takes no events anyway.
      cases closed : p.closed with
      | true => simp [Path.onEvent_of_closed closed]
      | false =>
        have live : p.id ∈ order := by
          refine visits.mem_iff.2 (List.mem_map_of_mem (List.mem_filter.2 ⟨mem, ?_⟩))
          simp [closed]
        rw [if_pos live]
    · exact fun _ _ => rfl
  · rfl

end Registry

/-! ### Stations -/

/-- A registry, the desk of the pool that its records come from, and the numbers of the paths whose
handles are held. -/
structure Station where
  registry : Registry
  desk : Desk
  handles : List ℕ

namespace Station

/-- No paths, and a pool without slots. -/
def empty (config : RegistryConfig) (pool : PoolConfig) : Station :=
  ⟨.empty config, .empty pool, []⟩

/-- What is done at a station. -/
inductive Act
  | add (name : Option String) (tree : Expr) (initial : Captures)
  /-- The handle of a path is given up. -/
  | dispose (id : ℕ)
  | event (isPublic : Bool) (e : Record)
  /-- The pooled record under a name is broadcast. -/
  | trace (isPublic : Bool) (name : String)
  /-- Something is done with the handles of the pool. -/
  | lend (act : Desk.Act)

/-- One act. Only a handle that is held can be given up, and only a record that is held can be
broadcast; a broadcast visits the open paths in any order. -/
inductive Does : Station → Act → Station → Prop
  | added {s : Station} {name : Option String} {tree : Expr} {initial : Captures} {path : Path}
    {registry : Registry} (added : s.registry.add name tree initial = .ok (path, registry)) :
    Does s (.add name tree initial) { s with registry, handles := s.handles ++ [path.id] }
  | refused {s : Station} {name : Option String} {tree : Expr} {initial : Captures} {d : Defect}
    (refused : s.registry.add name tree initial = .error d) : Does s (.add name tree initial) s
  | disposed {s : Station} {id : ℕ} (held : id ∈ s.handles) :
    Does s (.dispose id)
      { s with registry := s.registry.dispose id, handles := s.handles.erase id }
  | told {s : Station} {order : List ℕ} (visits : order.Perm (s.registry.live.map Path.id))
    {isPublic : Bool} {e : Record} :
    Does s (.event isPublic e) { s with registry := (s.registry.broadcastIn order isPublic e).1 }
  | traced {s : Station} {order : List ℕ} (visits : order.Perm (s.registry.live.map Path.id))
    {isPublic : Bool} {name : String} {e : Record} (read : s.desk.read? name = some e) :
    Does s (.trace isPublic name) { s with registry := (s.registry.broadcastIn order isPublic e).1 }
  | lent {s : Station} {act : Desk.Act} : Does s (.lend act) { s with desk := s.desk.apply act }

/-- Several acts, one after another. -/
inductive Runs : Station → List Act → Station → Prop
  | nil {s : Station} : Runs s [] s
  | cons {s t u : Station} {act : Act} {acts : List Act} (does : Does s act t)
    (runs : Runs t acts u) : Runs s (act :: acts) u

/-! ### Acts and paths -/

namespace Act

/-- The act gives up the handle of a path. -/
def disposes (id : ℕ) : Act → Bool
  | .dispose i => i = id
  | _ => false

/-- The desk after the act. -/
def onDesk (d : Desk) : Act → Desk
  | .lend act => d.apply act
  | _ => d

/-- The event that the act brings to open paths. -/
def told? (config : RegistryConfig) (d : Desk) : Act → Option Record
  | .event isPublic e => if isPublic || config.acceptPrivate then some e else none
  | .trace isPublic name => if isPublic || config.acceptPrivate then d.read? name else none
  | _ => none

/-- The path that the act starts under a number. -/
def start? (id : ℕ) : Act → Option Path
  | .add name tree initial =>
    if tree.defect?.isNone then some (.start id name tree initial) else none
  | _ => none

/-- The number of paths that some acts start. -/
def added (acts : List Act) : ℕ := acts.countP fun act => (act.start? 0).isSome

/-- What is done at the desk. -/
def atDesk (acts : List Act) : List Desk.Act :=
  acts.filterMap fun
    | .lend act => some act
    | _ => none

/-- The events that some acts bring to the path of a number before its handle is given up. -/
def heard (config : RegistryConfig) (id : ℕ) : Desk → List Act → List Record
  | _, [] => []
  | d, act :: rest =>
    if act.disposes id then []
    else (act.told? config d).toList ++ heard config id (act.onDesk d) rest

/-- What the act makes of a path that was there before. -/
def onPath (config : RegistryConfig) (d : Desk) (act : Act) (p : Path) : Path :=
  if act.disposes p.id then p.close
  else match act.told? config d with
    | some e => (p.onEvent e).1
    | none => p

variable {config : RegistryConfig} {d : Desk} {act : Act} {p : Path}

@[simp] theorem id_onPath : (act.onPath config d p).id = p.id := by
  unfold onPath
  split
  · rfl
  · split
    · exact Path.id_onEvent p _
    · rfl

/-- Nothing is made of a closed path. -/
theorem onPath_of_closed (closed : p.closed = true) : act.onPath config d p = p := by
  unfold onPath
  split
  · exact congrArg (fun c => { p with closed := c }) closed.symm
  · split
    · rw [Path.onEvent_of_closed closed]
    · rfl

/-- An act without an event for open paths, and which disposes of none, leaves all paths. -/
theorem map_onPath_of_quiet (act : Act) (config : RegistryConfig) (d : Desk)
    (keeps : ∀ i, act.disposes i = false) (silent : act.told? config d = none) (paths : List Path) :
    paths.map (act.onPath config d) = paths := by
  refine (List.map_congr_left fun p _ => ?_).trans (List.map_id _)
  simp [onPath, keeps, silent]

theorem closed_onPath : (act.onPath config d p).closed = (p.closed || act.disposes p.id) := by
  unfold onPath
  split
  · rename_i here
    simp [Path.close, here]
  · rename_i other
    split <;> simp [other]

end Act

/-! ### What one act does -/

variable {config : RegistryConfig} {s t : Station} {act : Act} {acts : List Act}

/-- Paths are numbered from 1 on, and the open ones are those whose handles are held. -/
structure Orderly (config : RegistryConfig) (s : Station) : Prop where
  config : s.registry.config = config
  numbers : s.registry.paths.map Path.id = List.range' 1 s.registry.paths.length
  next : s.registry.nextId = s.registry.paths.length + 1
  handles : s.handles = s.registry.live.map Path.id

theorem orderly_empty (config : RegistryConfig) (pool : PoolConfig) :
    (empty config pool).Orderly config := ⟨rfl, rfl, rfl, rfl⟩

theorem Orderly.apart (o : s.Orderly config) : (s.registry.paths.map Path.id).Nodup :=
  o.numbers ▸ List.nodup_range'

/-- The open paths are those that were open and are not disposed of. -/
theorem live_map_onPath (paths : List Path) (d : Desk) (act : Act) :
    ((paths.map (act.onPath config d)).filter fun p => !p.closed).map Path.id =
      ((paths.filter fun p => !p.closed).map Path.id).filter fun id => !act.disposes id := by
  induction paths with
  | nil => rfl
  | cons p rest ih =>
    rw [List.map_cons, List.filter_cons, List.filter_cons, Act.closed_onPath]
    cases closed : p.closed with
    | true => simpa using ih
    | false =>
      cases here : act.disposes p.id with
      | true => simpa [here] using ih
      | false => simpa [here] using ih

/-- **What an act does to the paths**, whatever the order of a broadcast: each of them changes by
itself, and a new one may come. -/
theorem Does.registry_eq (o : s.Orderly config) (does : s.Does act t) :
    t.registry =
      { s.registry with
        nextId := s.registry.nextId + (act.start? s.registry.nextId).toList.length
        paths := s.registry.paths.map (act.onPath config s.desk) ++
          (act.start? s.registry.nextId).toList } := by
  have accepts : ∀ isPublic, s.registry.accepts isPublic = (isPublic || config.acceptPrivate) :=
    fun isPublic => by rw [Registry.accepts, o.config]
  cases does with
  | added added =>
    obtain ⟨valid, same⟩ := Registry.add_eq_ok added
    obtain ⟨rfl, rfl⟩ := Prod.mk.inj same
    rw [Act.map_onPath_of_quiet _ config s.desk (fun _ => rfl) rfl]
    simp [Act.start?, valid]
  | refused refused =>
    rw [Act.map_onPath_of_quiet _ config s.desk (fun _ => rfl) rfl]
    simp [Act.start?, Registry.add_eq_error refused]
  | @disposed id held =>
    simp [Registry.dispose, Registry.update, Act.start?, Act.onPath, Act.disposes, Act.told?, eq_comm]
  | @told order visits isPublic e =>
    rw [Registry.broadcastIn_eq o.apart visits, accepts]
    by_cases accepted : (isPublic || config.acceptPrivate) = true
    · simp [Act.start?, Act.onPath, Act.disposes, Act.told?, accepted]
    · rw [if_neg accepted, Act.map_onPath_of_quiet (.event isPublic e) config s.desk
        (fun _ => rfl) (if_neg accepted)]
      simp [Act.start?]
  | @traced order visits isPublic name e read =>
    rw [Registry.broadcastIn_eq o.apart visits, accepts]
    by_cases accepted : (isPublic || config.acceptPrivate) = true
    · simp [Act.start?, Act.onPath, Act.disposes, Act.told?, accepted, read]
    · rw [if_neg accepted, Act.map_onPath_of_quiet (.trace isPublic name) config s.desk
        (fun _ => rfl) (if_neg accepted)]
      simp [Act.start?]
  | lent =>
    rw [Act.map_onPath_of_quiet _ config s.desk (fun _ => rfl) rfl]
    simp [Act.start?]

theorem Does.desk_eq (does : s.Does act t) : t.desk = act.onDesk s.desk := by
  cases does <;> rfl

/-- The handles that are held are those of the open paths. -/
theorem Does.handles_eq (o : s.Orderly config) (does : s.Does act t) :
    t.handles = t.registry.live.map Path.id := by
  -- Only a path whose handle is given up is closed, and only a new one is opened.
  have live : t.registry.live.map Path.id =
      (s.handles.filter fun id => !act.disposes id) ++
        (act.start? s.registry.nextId).toList.map Path.id := by
    rw [Registry.live, does.registry_eq o, List.filter_append, List.map_append, live_map_onPath,
      o.handles]
    congr 2
    cases act with
    | add name tree initial =>
      by_cases valid : tree.defect?.isNone <;> simp [Act.start?, valid, Path.start]
    | _ => rfl
  have distinct : s.handles.Nodup := by
    rw [o.handles]
    exact o.apart.sublist (List.filter_sublist.map _)
  rw [live]
  cases does with
  | added added =>
    obtain ⟨valid, same⟩ := Registry.add_eq_ok added
    obtain ⟨rfl, rfl⟩ := Prod.mk.inj same
    simp [Act.start?, valid, Act.disposes]
  | refused refused => simp [Act.start?, Registry.add_eq_error refused, Act.disposes]
  | @disposed id held =>
    have other : (fun i => i != id) = fun i => !decide (id = i) := by
      funext i
      exact congrArg not (decide_eq_decide.2 eq_comm)
    simp [Act.start?, Act.disposes, distinct.erase_eq_filter, other]
  | told _ => simp [Act.start?, Act.disposes]
  | traced _ _ => simp [Act.start?, Act.disposes]
  | lent => simp [Act.start?, Act.disposes]

theorem Act.id_of_start? {id : ℕ} {p : Path} (h : act.start? id = some p) : p.id = id := by
  cases act with
  | add name tree initial =>
    simp only [start?, Option.ite_none_right_eq_some, Option.some.injEq] at h
    exact h.2 ▸ rfl
  | _ => cases h

theorem Orderly.does (o : s.Orderly config) (does : s.Does act t) : t.Orderly config := by
  have same := does.registry_eq o
  have ids : (s.registry.paths.map (act.onPath config s.desk)).map Path.id =
      List.range' 1 s.registry.paths.length := by
    rw [List.map_map, ← o.numbers]
    exact List.map_congr_left fun p _ => Act.id_onPath
  refine ⟨by rw [same]; exact o.config, ?_, ?_, does.handles_eq o⟩
  · rw [same]
    cases new : act.start? s.registry.nextId with
    | none => simpa [new] using ids
    | some p =>
      have id : p.id = 1 + s.registry.paths.length := by
        rw [Act.id_of_start? new, o.next, Nat.add_comm]
      rw [List.map_append, ids, List.length_append, List.length_map, Option.toList_some,
        List.map_singleton, id, List.length_singleton, List.range'_1_concat]
  · rw [same]
    simp [o.next]
    omega

/-- **What an act makes of a path** that was there before. -/
theorem Does.path?_of_mem (o : s.Orderly config) (does : s.Does act t) {id : ℕ} {p : Path}
    (found : s.registry.path? id = some p) :
    t.registry.path? id = some (act.onPath config s.desk p) := by
  rw [Registry.path?, does.registry_eq o, List.find?_append, List.find?_map]
  have same : ((fun p : Path => decide (p.id = id)) ∘ act.onPath config s.desk) =
      fun p => decide (p.id = id) := by
    funext p
    simp
  rw [same, show s.registry.paths.find? (fun p => p.id = id) = some p from found]
  rfl

/-! ### Runs -/

theorem Runs.append_inv {before later : List Act} {u : Station}
    (runs : s.Runs (before ++ later) u) : ∃ t, s.Runs before t ∧ t.Runs later u := by
  induction before generalizing s with
  | nil => exact ⟨s, .nil, runs⟩
  | cons act before ih =>
    cases runs with
    | cons does runs =>
      obtain ⟨t, first, second⟩ := ih runs
      exact ⟨t, .cons does first, second⟩

theorem Orderly.runs (o : s.Orderly config) (runs : s.Runs acts t) : t.Orderly config := by
  induction runs with
  | nil => exact o
  | cons does _ ih => exact ih (o.does does)

/-- Only what is done at the desk changes the pool. -/
theorem Runs.desk_eq (runs : s.Runs acts t) : t.desk = s.desk.after (Act.atDesk acts) := by
  induction runs with
  | nil => rfl
  | @cons s t u act acts does _ ih =>
    rw [ih, does.desk_eq]
    cases act <;> rfl

theorem Runs.length_paths (o : s.Orderly config) (runs : s.Runs acts t) :
    t.registry.paths.length = s.registry.paths.length + Act.added acts := by
  induction runs with
  | nil => rfl
  | @cons s t u act acts does _ ih =>
    have one : (act.start? s.registry.nextId).isSome = (act.start? 0).isSome := by
      cases act with
      | add name tree initial => by_cases valid : tree.defect?.isNone <;> simp [Act.start?, valid]
      | _ => rfl
    have length : (act.start? s.registry.nextId).toList.length =
        if (act.start? 0).isSome then 1 else 0 := by
      rw [← one]
      cases act.start? s.registry.nextId <;> rfl
    rw [ih (o.does does), does.registry_eq o, Act.added, Act.added, List.countP_cons]
    simp only [List.length_append, List.length_map, length]
    omega

theorem id_of_path? {r : Registry} {id : ℕ} {p : Path} (found : r.path? id = some p) :
    p.id = id := by
  simpa using List.find?_some found

/-- A closed path stays as it is. -/
theorem Runs.path?_of_closed (o : s.Orderly config) (runs : s.Runs acts t) {id : ℕ} {p : Path}
    (found : s.registry.path? id = some p) (closed : p.closed = true) :
    t.registry.path? id = some p := by
  induction runs with
  | nil => exact found
  | cons does _ ih =>
    have after := does.path?_of_mem o found
    rw [Act.onPath_of_closed closed] at after
    exact ih (o.does does) after

/-- **An open path gets the events that are for it**, and is closed with its disposal. -/
theorem Runs.path?_of_open (o : s.Orderly config) (runs : s.Runs acts t) {id : ℕ} {p : Path}
    (found : s.registry.path? id = some p) (opened : p.closed = false) :
    let alone := (p.onEvents (Act.heard config id s.desk acts)).1
    t.registry.path? id = some (if acts.any (Act.disposes id) then alone.close else alone) := by
  induction runs generalizing p with
  | nil => exact found
  | @cons s u t act acts does runs ih =>
    have after := does.path?_of_mem o found
    have at_id := id_of_path? found
    rw [Act.heard, List.any_cons]
    cases last : act.disposes id with
    | true =>
      have closes : act.onPath config s.desk p = p.close := if_pos (at_id ▸ last)
      exact runs.path?_of_closed (o.does does) (closes ▸ after) rfl
    | false =>
      have stays : (act.onPath config s.desk p).closed = false := by
        rw [Act.closed_onPath, opened, at_id, last, Bool.false_or]
      have later := ih (o.does does) after stays
      rw [does.desk_eq] at later
      have onward : act.onPath config s.desk p =
          (p.onEvents (act.told? config s.desk).toList).1 := by
        rw [Act.onPath, at_id, last, if_neg Bool.false_ne_true]
        cases act.told? config s.desk <;> rfl
      rw [onward] at later
      simp only [Bool.false_or, Bool.false_eq_true, if_false, Path.onEvents_append_eq]
      exact later

/-- A path starts under the next number. -/
theorem Does.path?_of_add (o : s.Orderly config) {name : Option String} {tree : Expr}
    {initial : Captures} (valid : tree.defect? = none) (does : s.Does (.add name tree initial) t) :
    t.registry.path? (s.registry.paths.length + 1) =
      some (.start (s.registry.paths.length + 1) name tree initial) := by
  have absent : s.registry.paths.find? (fun p => p.id = s.registry.paths.length + 1) = none := by
    refine List.find?_eq_none.2 fun p mem => ?_
    have number : p.id ∈ List.range' 1 s.registry.paths.length :=
      o.numbers ▸ List.mem_map_of_mem mem
    have := List.mem_range'_1.1 number
    simp only [decide_eq_true_eq]
    omega
  have quiet := Act.map_onPath_of_quiet (.add name tree initial) config s.desk (fun _ => rfl) rfl
    s.registry.paths
  rw [Registry.path?, does.registry_eq o, quiet, List.find?_append, absent, o.next]
  simp [Act.start?, valid, Path.start]

/-- **Every path is what it would be alone.** Whatever is done at a station, in whatever order the
broadcasts visit the paths:

* a path that was ever started is, also after its disposal, the path that its expression and first
  captures make alone of the events between its start and its disposal that were public, or that the
  configuration admits; the record of a handle is broadcast as it is at that time;
* paths are numbered from 1 on in the order of their starts; a malformed expression changes nothing;
* the open paths are as many as the handles that are held;
* the desk is what the acts at the desk alone make of it, so that no broadcast changes a pooled
  record or the count of its holders;
* an event, and the record of every handle, can be broadcast, in the order of the paths for one. -/
theorem delivered {config : RegistryConfig} {pool : PoolConfig} {acts : List Act} {s : Station}
    (runs : (empty config pool).Runs acts s) :
    (∀ before name tree initial later, acts = before ++ .add name tree initial :: later →
      tree.defect? = none →
        let id := Act.added before + 1
        let heard := Act.heard config id ((Desk.empty pool).after (Act.atDesk before)) later
        let alone := ((Path.start id name tree initial).onEvents heard).1
        s.registry.path? id = some (if later.any (Act.disposes id) then alone.close else alone)) ∧
    s.registry.paths.map Path.id = List.range' 1 (Act.added acts) ∧
    (∀ name tree initial d t, tree.defect? = some d → s.Does (.add name tree initial) t → t = s) ∧
    s.registry.pathCount = s.handles.length ∧
    s.desk = (Desk.empty pool).after (Act.atDesk acts) ∧
    (∀ isPublic e,
      s.Does (.event isPublic e) { s with registry := (s.registry.broadcast isPublic e).1 }) ∧
    ∀ isPublic name h, s.desk.handle? name = some h →
      s.Does (.trace isPublic name)
        { s with registry := (s.registry.broadcastPooled s.desk.pool h isPublic).1 } := by
  have orderly := orderly_empty config pool
  have reached := orderly.runs runs
  have desk : s.desk = (Desk.empty pool).after (Act.atDesk acts) := runs.desk_eq
  refine ⟨?alone, ?numbers, ?malformed, ?handles, desk, fun _ _ => .told (.refl _), ?traces⟩
  case alone =>
    rintro before name tree initial later rfl valid id heard alone
    obtain ⟨t, first, rest⟩ := runs.append_inv
    have there := orderly.runs first
    have length := first.length_paths orderly
    rw [show (empty config pool).registry.paths.length = 0 from rfl, Nat.zero_add] at length
    cases rest with
    | cons does rest =>
      have started := does.path?_of_add there valid
      rw [length] at started
      have later_on := rest.path?_of_open (there.does does) started rfl
      rw [does.desk_eq, show Act.onDesk t.desk (.add name tree initial) = t.desk from rfl,
        first.desk_eq] at later_on
      exact later_on
  case numbers =>
    rw [reached.numbers, runs.length_paths orderly]
    simp [empty, Registry.empty]
  case malformed =>
    intro name tree initial d t malformed does
    cases does with
    | added added =>
      have valid := (Registry.add_eq_ok added).1
      rw [malformed] at valid
      cases valid
    | refused _ => rfl
  case handles => rw [reached.handles, List.length_map, Registry.pathCount]
  case traces =>
    intro isPublic name h held
    obtain ⟨ts, refines⟩ : ∃ ts, s.desk.Refines (Archive.empty.after (Act.atDesk acts)) ts [] :=
      desk ▸ (Desk.refines_empty pool).after _
    obtain ⟨rent, record, -, -, read⟩ := refines.live held
    rw [Registry.broadcastPooled, read]
    exact .traced (.refl _) (by rw [Desk.read?, held, Option.bind_some, read])

/-- A path that gets a public event and a pooled record, but no private event and none after its
disposal; and one that comes after a malformed expression and those events. -/
theorem delivered_two_paths :
    let config : RegistryConfig := ⟨false, 5000⟩
    let tree : Expr := .event (.propertyEquals "path" (.string "/2"))
    let event (message : String) : Record := ⟨"", "", message, .epoch, []⟩
    let acts : List Act := [.add none tree .empty, .event false (event "private"),
      .event true (event "public"), .lend (.rentCopy "r" (event "pooled")), .trace true "r",
      .dispose 1, .add none (.sequence []) .empty, .add (some "late") tree .empty,
      .event true (event "last")]
    ∃ s, (empty config .default).Runs acts s ∧
      s.registry.path? 1 =
        some ((Path.start 1 none tree .empty).onEvents [event "public", event "pooled"]).1.close ∧
      s.registry.path? 2 =
        some ((Path.start 2 (some "late") tree .empty).onEvents [event "last"]).1 := by
  intro config tree event acts
  obtain ⟨s, runs⟩ : ∃ s, (empty config .default).Runs acts s :=
    ⟨_, .cons (.added rfl) <| .cons (.told (.refl _)) <| .cons (.told (.refl _)) <|
      .cons .lent <| .cons (.traced (.refl _) rfl) <| .cons (.disposed (by decide)) <|
      .cons (.refused rfl) <| .cons (.added rfl) <| .cons (.told (.refl _)) .nil⟩
  obtain ⟨alone, -⟩ := delivered runs
  refine ⟨s, runs, ?_, ?_⟩
  · exact alone [] none tree .empty acts.tail rfl (by decide)
  · exact alone (acts.take 7) (some "late") tree .empty (acts.drop 8) rfl (by decide)

end Station

end TracePattern
