import TracePattern.Pool.Desk
import TracePattern.Proofs.Pool.Lending

/-!
# Pools and archives

An archive has a record of its own for every rent and never uses it for another one.  Nobody who
holds handles can tell a pool, which uses its slots again and again, from an archive.

* `Write`, `Desk.Act`, `Desk.after`: what is done with the handles of a pool, and where it leads;
* `Archive`, `Archive.after`: the same with an archive;
* `Pool.Mirrors`: the slots of a pool hold what the archive holds for the rents that are live;
* `Desk.Refines`: the same by name, preserved by everything that is done;
* `Desk.archive_after`: the result.
-/

namespace TracePattern

/-! ### What is done with handles -/

/-- A write through a handle. -/
inductive Write
  | push (p : Property)
  | copyFrom (source : Record)
  /-- A change of identity, message or timestamp. -/
  | edit (f : Record → Record)

namespace Write

/-- The write, in storage. -/
def onStorage : Write → Storage → Storage
  | push p => .push p
  | copyFrom source => .copyFrom source
  | edit f => .edit f

/-- The write, on a mere record. -/
def onRecord : Write → Record → Record
  | push p, r => r.push p
  | copyFrom source, _ => source
  | edit f, r => { f r with properties := r.properties }

@[simp] theorem record_onStorage (w : Write) (s : Storage) :
    (w.onStorage s).record = w.onRecord s.record := by
  cases w <;> rfl

end Write

namespace Desk

/-- What is done at a desk: a name gets a new record, a copy, or a share in the record of another
name; it is given up in one of two ways; or its record is written. -/
inductive Act
  | rent (name : String)
  | rentCopy (name : String) (source : Record)
  | increment (original name : String)
  | dispose (name : String)
  | drop (name : String)
  | write (name : String) (w : Write)

/-- The desk after something was done. What fails, or is done with a name that holds nothing,
changes nothing. -/
def apply (d : Desk) : Act → Desk
  | .rent name => (d.rent name).2
  | .rentCopy name source => (d.rentCopy name source).2
  | .increment original name =>
    match d.handle? original with
    | some h =>
      match d.increment h name with
      | .ok granted => granted.2
      | .error _ => d
    | none => d
  | .dispose name =>
    match d.release name with
    | .ok d' => d'
    | .error _ => d
  | .drop name => d.drop name
  | .write name w =>
    match d.handle? name with
    | some h => d.write h w.onStorage
    | none => d

/-- The desk after several things were done. -/
def after (d : Desk) (acts : List Act) : Desk := acts.foldl apply d

end Desk

/-- The records of all rents, by number, and the rents of the names. -/
structure Archive where
  records : List Record
  held : List (String × ℕ)

namespace Archive

/-- No rents. -/
def empty : Archive := ⟨[], []⟩

/-- The rent of a name. -/
def rent? (a : Archive) (name : String) : Option ℕ :=
  (a.held.find? fun h => h.1 = name).map Prod.snd

/-- The record of a name. -/
def read? (a : Archive) (name : String) : Option Record := (a.rent? name).bind (a.records[·]?)

/-- The number of names of a rent. -/
def holders (a : Archive) (rent : ℕ) : ℕ := a.held.countP (·.2 = rent)

/-- Forgets a name. The record stays. -/
def forget (a : Archive) (name : String) : Archive :=
  { a with held := a.held.filter fun h => h.1 ≠ name }

/-- Gives a name a rent in place of the one it had. -/
def keep (a : Archive) (name : String) (rent : ℕ) : Archive :=
  { a with held := (name, rent) :: (a.forget name).held }

/-- A new rent, with a record of its own. -/
def add (a : Archive) (name : String) (record : Record) : Archive :=
  { a with records := a.records ++ [record] }.keep name a.records.length

/-- The archive after something was done. A rent with all the holders that a pool can count gets no
further one. -/
def apply (a : Archive) : Desk.Act → Archive
  | .rent name => a.add name .empty
  | .rentCopy name source => a.add name source
  | .increment original name =>
    match a.rent? original with
    | some rent => if Pool.maxHolders ≤ a.holders rent then a else a.keep name rent
    | none => a
  | .dispose name => a.forget name
  | .drop name => a.forget name
  | .write name w =>
    match a.rent? name with
    | some rent => { a with records := a.records.modify rent w.onRecord }
    | none => a

/-- The archive after several things were done. -/
def after (a : Archive) (acts : List Desk.Act) : Archive := acts.foldl apply a

end Archive

/-! ### The slots of a pool and the records of an archive -/

/-- A live handle and the number of the rent that it stems from. -/
structure Tenancy where
  handle : Handle
  rent : ℕ

namespace Pool

variable {p : Pool} {records : List Record} {ts : List Tenancy} {t : Tenancy}

/-- The slots of the live handles hold the records of their rents, and handles of one slot are of
one rent. -/
structure Mirrors (p : Pool) (records : List Record) (ts : List Tenancy) : Prop where
  lends : p.Lends (ts.map Tenancy.handle)
  content : ∀ t ∈ ts, ∃ slot : Slot, p.slots[t.handle.slot]? = some slot ∧
    records[t.rent]? = some slot.storage.record
  apart : ∀ t ∈ ts, ∀ u ∈ ts, t.handle.slot = u.handle.slot ↔ t.rent = u.rent

namespace Mirrors

theorem perm {us : List Tenancy} (m : p.Mirrors records ts) (same : ts.Perm us) :
    p.Mirrors records us where
  lends := m.lends.perm (same.map _)
  content t mem := m.content t (same.mem_iff.2 mem)
  apart t tm u um := m.apart t (same.mem_iff.2 tm) u (same.mem_iff.2 um)

/-- What is read through a live handle. -/
theorem read (m : p.Mirrors records ts) (mem : t ∈ ts) : p.read? t.handle = records[t.rent]? := by
  obtain ⟨slot, found, content⟩ := m.content t mem
  obtain ⟨slot', found', ok, -⟩ := m.lends.slot_of_mem (List.mem_map_of_mem mem)
  cases found.symm.trans found'
  rw [content, read?, ok]

/-- A slot counts the handles of its rent. -/
theorem onSlot_eq (m : p.Mirrors records ts) (mem : t ∈ ts) :
    onSlot (ts.map Tenancy.handle) t.handle.slot = ts.countP (·.rent = t.rent) := by
  rw [onSlot, List.countP_map]
  refine List.countP_congr fun u um => ?_
  simpa using m.apart u um t mem

/-- Handles go or are doubled, and the records in the slots of those that stay are the same. -/
theorem of_storage {q : Pool} {us : List Tenancy} (m : p.Mirrors records ts)
    (lends : q.Lends (us.map Tenancy.handle)) (sub : us ⊆ ts)
    (same : ∀ u ∈ us, (q.slots[u.handle.slot]?).map Slot.storage =
      (p.slots[u.handle.slot]?).map Slot.storage) : q.Mirrors records us where
  lends := lends
  content u mem := by
    obtain ⟨slot, found, content⟩ := m.content u (sub mem)
    have storage := same u mem
    rw [found, Option.map_some, Option.map_eq_some_iff] at storage
    obtain ⟨slot', found', storage⟩ := storage
    exact ⟨slot', found', storage ▸ content⟩
  apart t tm u um := m.apart t (sub tm) u (sub um)

theorem rent (m : p.Mirrors records ts) :
    p.rent.2.Mirrors (records ++ [.empty]) (⟨p.rent.1, records.length⟩ :: ts) := by
  obtain ⟨storage, changed, empty, apart, -⟩ := m.lends.rent_alters
  have other : ∀ t ∈ ts, t.handle.slot ≠ p.rent.1.slot ∧ t.rent < records.length := by
    intro t mem
    obtain ⟨slot, -, content⟩ := m.content t mem
    exact ⟨apart _ (List.mem_map_of_mem mem), (List.getElem?_eq_some_iff.1 content).1⟩
  refine ⟨m.lends.rent, ?content, ?apart⟩
  case content =>
    intro t mem
    rcases List.mem_cons.1 mem with rfl | mem
    · exact ⟨_, changed.here, by simp [empty]⟩
    · obtain ⟨slot, found, content⟩ := m.content t mem
      obtain ⟨away, old⟩ := other t mem
      refine ⟨slot, (changed.elsewhere _ away).trans found, ?_⟩
      rw [List.getElem?_append_left old, content]
  case apart =>
    intro t tm u um
    rcases List.mem_cons.1 tm with rfl | tm <;> rcases List.mem_cons.1 um with rfl | um
    · simp
    · obtain ⟨away, old⟩ := other u um
      exact iff_of_false away.symm (Nat.ne_of_gt old)
    · obtain ⟨away, old⟩ := other t tm
      exact iff_of_false away (Nat.ne_of_lt old)
    · exact m.apart t tm u um

theorem write (m : p.Mirrors records ts) (mem : t ∈ ts) (w : Write) :
    (p.write t.handle w.onStorage).Mirrors (records.modify t.rent w.onRecord) ts := by
  have mem' := List.mem_map_of_mem (f := Tenancy.handle) mem
  obtain ⟨slot, found, -, eq⟩ := m.lends.write_eq mem' w.onStorage
  have changed : p.Alters (p.write t.handle w.onStorage) t.handle.slot _ :=
    alters_set found _ (congrArg Pool.slots eq)
  refine ⟨m.lends.write mem' _, ?content, m.apart⟩
  intro u um
  obtain ⟨slot', found', content⟩ := m.content u um
  by_cases here : u.handle.slot = t.handle.slot
  · rw [here, found] at found'
    cases found'
    refine ⟨_, here ▸ changed.here, ?_⟩
    rw [(m.apart u um t mem).1 here] at content ⊢
    simp [content]
  · refine ⟨slot', (changed.elsewhere _ here).trans found', ?_⟩
    have other : t.rent ≠ u.rent := fun same => here ((m.apart u um t mem).2 same.symm)
    rw [List.getElem?_modify_ne _ _ other, content]

theorem rentCopy (m : p.Mirrors records ts) (source : Record) :
    (p.rentCopy source).2.Mirrors (records ++ [source])
      (⟨(p.rentCopy source).1, records.length⟩ :: ts) := by
  have written := m.rent.write (List.mem_cons_self ..) (.copyFrom source)
  have content : (records ++ [Record.empty]).modify records.length
      (Write.copyFrom source).onRecord = records ++ [source] := by
    simp [List.modify_eq_take_cons_drop, Write.onRecord]
  rwa [content] at written

theorem increment (m : p.Mirrors records ts) (mem : t ∈ ts) {given : Handle × Pool}
    (ok : p.increment t.handle = .ok given) :
    given.1 = t.handle ∧ given.2.Mirrors records (t :: ts) := by
  have mem' := List.mem_map_of_mem (f := Tenancy.handle) mem
  obtain ⟨same, lends⟩ := m.lends.increment mem' ok
  obtain ⟨slot, found, -, eq⟩ := m.lends.increment_eq mem'
  rw [eq] at ok
  split at ok
  · cases ok
  cases ok
  refine ⟨same, m.of_storage lends (List.cons_subset.2 ⟨mem, List.Subset.refl _⟩) ?_⟩
  intro u _
  exact Alters.storage (alters_set found { slot with holders := slot.holders + 1 } rfl) found rfl _

theorem release (m : p.Mirrors records (t :: ts)) :
    ∃ q, p.release t.handle = .ok q ∧ q.Mirrors records ts := by
  obtain ⟨q, ok, lends⟩ := Lends.release m.lends
  obtain ⟨slot, found, -, eq⟩ := Lends.release_eq m.lends
  rw [ok] at eq
  refine ⟨q, ok, m.of_storage lends (List.subset_cons_self _ _) ?_⟩
  intro u um
  split at eq
  case isTrue last =>
    have other := onSlot_eq_zero.1 last _ (List.mem_map_of_mem um)
    obtain ⟨storage, -, changed⟩ := Lends.giveBack_alters found
    rw [Except.ok.inj eq, changed.elsewhere _ other]
  case isFalse more =>
    cases eq
    exact Alters.storage (alters_set found { slot with holders := slot.holders - 1 } rfl) found rfl _

end Mirrors

end Pool

/-! ### By name -/

section Names

variable {V W : Type} {ts : List (String × V)} {name : String}

/-- A name that is found comes with the first of its values. -/
theorem find?_map_snd (f : V → W) (ts : List (String × V)) (name : String) :
    ((ts.map fun t => (t.1, f t.2)).find? fun t => t.1 = name).map Prod.snd =
      ((ts.find? fun t => t.1 = name).map Prod.snd).map f := by
  simp [List.find?_map, Function.comp_def]

/-- If no name is used twice, the list is the pair of one name and the pairs of the other names. -/
theorem perm_filter_ne (nodup : (ts.map Prod.fst).Nodup) {v : V} (mem : (name, v) ∈ ts) :
    ts.Perm ((name, v) :: ts.filter fun t => t.1 ≠ name) := by
  induction ts with
  | nil => simp at mem
  | cons u rest ih =>
    obtain ⟨new, nodup⟩ := List.nodup_cons.1 nodup
    rcases List.mem_cons.1 mem with rfl | old
    · have others : rest.filter (fun t => t.1 ≠ name) = rest :=
        List.filter_eq_self.2 fun t tm => by
          simpa using fun same => new (List.mem_map.2 ⟨t, tm, same⟩)
      rw [List.filter_cons_of_neg (by simp), others]
    · have other : u.1 ≠ name := fun same => new (List.mem_map.2 ⟨_, old, same.symm⟩)
      rw [List.filter_cons_of_pos (by simpa using other)]
      exact ((ih nodup old).cons u).trans (.swap _ _ _)

end Names

namespace Desk

variable {d : Desk} {a : Archive} {ts : List (String × Tenancy)} {hand : List Tenancy}

/-- A desk and an archive with the same tenancies by name. The tenancies in `hand` have no name. -/
structure Refines (d : Desk) (a : Archive) (ts : List (String × Tenancy)) (hand : List Tenancy) :
    Prop where
  nodup : (ts.map Prod.fst).Nodup
  desk : d.held = ts.map fun t => (t.1, t.2.handle)
  archive : a.held = ts.map fun t => (t.1, t.2.rent)
  mirrors : d.pool.Mirrors a.records (hand ++ ts.map Prod.snd)

/-- The tenancy of a name. -/
def tenancy? (ts : List (String × Tenancy)) (name : String) : Option Tenancy :=
  (ts.find? fun t => t.1 = name).map Prod.snd

theorem mem_of_tenancy? {name : String} {t : Tenancy} (found : tenancy? ts name = some t) :
    (name, t) ∈ ts := by
  obtain ⟨⟨n, u⟩, first, rfl⟩ := Option.map_eq_some_iff.1 found
  have same : n = name := by simpa using List.find?_some first
  exact same ▸ List.mem_of_find?_eq_some first

/-- The tenancies that are left when a name is forgotten. -/
def without (ts : List (String × Tenancy)) (name : String) : List (String × Tenancy) :=
  ts.filter fun t => t.1 ≠ name

theorem name_not_mem_without (ts : List (String × Tenancy)) (name : String) :
    name ∉ (without ts name).map Prod.fst := by
  simp [without]

theorem refines_empty (config : PoolConfig) : (empty config).Refines .empty [] [] where
  nodup := List.nodup_nil
  desk := rfl
  archive := rfl
  mirrors := ⟨Pool.lends_empty config, by simp, by simp⟩

namespace Refines

theorem handle? (r : d.Refines a ts hand) (name : String) :
    d.handle? name = (tenancy? ts name).map Tenancy.handle := by
  rw [Desk.handle?, r.desk, find?_map_snd]
  rfl

theorem rent? (r : d.Refines a ts hand) (name : String) :
    a.rent? name = (tenancy? ts name).map Tenancy.rent := by
  rw [Archive.rent?, r.archive, find?_map_snd]
  rfl

/-- **What is read under a name is the same.** -/
theorem read? (r : d.Refines a ts hand) (name : String) : d.read? name = a.read? name := by
  rw [Desk.read?, Archive.read?, r.handle?, r.rent?]
  cases found : tenancy? ts name with
  | none => rfl
  | some t =>
    exact r.mirrors.read (List.mem_append_right _ (List.mem_map_of_mem (mem_of_tenancy? found)))

/-- **A name is given up**: releasing its handle succeeds, and only its own tenancy ends. -/
theorem release (r : d.Refines a ts hand) (name : String) : ∃ e, d.release name = .ok e ∧
    d.drop name = e ∧ e.Refines (a.forget name) (without ts name) hand := by
  have nodup : ((without ts name).map Prod.fst).Nodup := r.nodup.sublist (List.filter_sublist.map _)
  have archive : (a.forget name).held = (without ts name).map fun t => (t.1, t.2.rent) := by
    simp [Archive.forget, r.archive, without, List.filter_map, Function.comp_def]
  cases found : tenancy? ts name with
  | none =>
    have vacant : d.release name = .ok d := by simp [Desk.release, r.handle?, found]
    have all : without ts name = ts := by
      refine List.filter_eq_self.2 fun t mem => ?_
      have other := List.find?_eq_none.1 (Option.map_eq_none_iff.1 found) t mem
      simpa using other
    refine ⟨d, vacant, by simp [drop, vacant], ⟨nodup, by rw [all, r.desk], archive, ?_⟩⟩
    rw [all]
    exact r.mirrors
  | some t =>
    have split : (hand ++ ts.map Prod.snd).Perm (t :: (hand ++ (without ts name).map Prod.snd)) :=
      (((perm_filter_ne r.nodup (mem_of_tenancy? found)).map Prod.snd).append_left hand).trans
        List.perm_middle
    obtain ⟨q, ok, mirrors⟩ := (r.mirrors.perm split).release
    have released : d.release name = .ok { d.forget name with pool := q } := by
      simp [Desk.release, r.handle?, found, ok, Except.map]
    refine ⟨_, released, by simp [drop, released], ⟨nodup, ?_, archive, mirrors⟩⟩
    simp [Desk.forget, r.desk, without, List.filter_map, Function.comp_def]

/-- **A name gets the tenancy that is at hand.** -/
theorem keep {t : Tenancy} (r : d.Refines a ts (t :: hand)) (name : String) :
    (d.keep name t.handle).Refines (a.keep name t.rent) ((name, t) :: without ts name) hand := by
  obtain ⟨e, -, dropped, r⟩ := r.release name
  have kept : d.keep name t.handle = { e with held := (name, t.handle) :: e.held } := by
    rw [Desk.keep, dropped]
  rw [kept]
  refine ⟨?nodup, ?desk, ?archive, r.mirrors.perm List.perm_middle.symm⟩
  case nodup => exact List.nodup_cons.2 ⟨name_not_mem_without ts name, r.nodup⟩
  case desk => simp [r.desk]
  case archive => simp [Archive.keep, r.archive]

/-- **A name gets a handle that the pool has given out.** -/
theorem grant (r : d.Refines a ts []) {given : Handle × Pool} {records : List Record} {rent : ℕ}
    (name : String) (mirrors : given.2.Mirrors records (⟨given.1, rent⟩ :: ts.map Prod.snd)) :
    (d.grant name given).2.Refines ({ a with records }.keep name rent)
      ((name, ⟨given.1, rent⟩) :: without ts name) [] := by
  have given : Refines { d with pool := given.2 } { a with records } ts [⟨given.1, rent⟩] :=
    ⟨r.nodup, r.desk, r.archive, mirrors⟩
  exact given.keep name

theorem rent (r : d.Refines a ts []) (name : String) :
    (d.rent name).2.Refines (a.add name .empty)
      ((name, ⟨d.pool.rent.1, a.records.length⟩) :: without ts name) [] :=
  r.grant name r.mirrors.rent

theorem rentCopy (r : d.Refines a ts []) (name : String) (source : Record) :
    (d.rentCopy name source).2.Refines (a.add name source)
      ((name, ⟨(d.pool.rentCopy source).1, a.records.length⟩) :: without ts name) [] :=
  r.grant name (r.mirrors.rentCopy source)

/-- A rent counts its names as the slot counts its handles. -/
theorem onSlot_eq (r : d.Refines a ts []) {t : Tenancy} (mem : t ∈ ts.map Prod.snd) :
    Pool.onSlot ((ts.map Prod.snd).map Tenancy.handle) t.handle.slot = a.holders t.rent := by
  have counted := Pool.Mirrors.onSlot_eq r.mirrors mem
  rw [List.nil_append] at counted
  rw [counted, Archive.holders, r.archive, List.countP_map, List.countP_map]
  rfl

/-- **Whatever is done keeps desk and archive together.** -/
theorem apply (r : d.Refines a ts []) (act : Act) :
    ∃ us, (d.apply act).Refines (a.apply act) us [] := by
  cases act with
  | rent name => exact ⟨_, r.rent name⟩
  | rentCopy name source => exact ⟨_, r.rentCopy name source⟩
  | dispose name =>
    obtain ⟨e, released, -, r⟩ := r.release name
    exact ⟨_, by simpa [Desk.apply, Archive.apply, released] using r⟩
  | drop name =>
    obtain ⟨e, -, dropped, r⟩ := r.release name
    exact ⟨_, by simpa [Desk.apply, Archive.apply, dropped] using r⟩
  | write name w =>
    simp only [Desk.apply, Archive.apply, r.handle?, r.rent?]
    cases found : tenancy? ts name with
    | none => exact ⟨ts, r⟩
    | some t =>
      have mem : t ∈ ts.map Prod.snd := List.mem_map_of_mem (mem_of_tenancy? found)
      exact ⟨ts, r.nodup, r.desk, r.archive, Pool.Mirrors.write r.mirrors mem w⟩
  | increment original name =>
    simp only [Desk.apply, Archive.apply, r.handle?, r.rent?]
    cases found : tenancy? ts original with
    | none => exact ⟨ts, r⟩
    | some t =>
      have mem : t ∈ ts.map Prod.snd := List.mem_map_of_mem (mem_of_tenancy? found)
      obtain ⟨slot, -, -, eq⟩ :=
        Pool.Lends.increment_eq r.mirrors.lends (List.mem_map_of_mem (f := Tenancy.handle) mem)
      rw [List.nil_append, r.onSlot_eq mem] at eq
      by_cases full : Pool.maxHolders ≤ a.holders t.rent
      · rw [if_pos full] at eq
        exact ⟨ts, by simpa [Desk.increment, eq, Except.map, full] using r⟩
      · rw [if_neg full] at eq
        obtain ⟨-, mirrors⟩ := Pool.Mirrors.increment r.mirrors mem eq
        have granted := r.grant name mirrors
        exact ⟨_, by simpa [Desk.increment, eq, Except.map, full] using granted⟩

theorem after (r : d.Refines a ts []) (acts : List Act) :
    ∃ us, (d.after acts).Refines (a.after acts) us [] := by
  induction acts generalizing d a ts with
  | nil => exact ⟨ts, r⟩
  | cons act acts ih =>
    obtain ⟨us, r⟩ := r.apply act
    exact ih r

/-- The record of a live handle. -/
theorem live (r : d.Refines a ts hand) {name : String} {h : Handle}
    (held : d.handle? name = some h) : ∃ rent record, a.rent? name = some rent ∧
      a.records[rent]? = some record ∧ d.pool.read? h = some record := by
  rw [r.handle?, Option.map_eq_some_iff] at held
  obtain ⟨t, found, rfl⟩ := held
  have mem : t ∈ hand ++ ts.map Prod.snd :=
    List.mem_append_right _ (List.mem_map_of_mem (mem_of_tenancy? found))
  obtain ⟨slot, -, content⟩ := r.mirrors.content t mem
  exact ⟨t.rent, _, by simp [r.rent?, found], content, (r.mirrors.read mem).trans content⟩

/-- Two names hold the same slot if and only if they are of the same rent. -/
theorem slot_eq_iff (r : d.Refines a ts hand) {x y : String} {h k : Handle}
    (hx : d.handle? x = some h) (hy : d.handle? y = some k) :
    h.slot = k.slot ↔ a.rent? x = a.rent? y := by
  rw [r.handle?, Option.map_eq_some_iff] at hx hy
  obtain ⟨t, foundx, rfl⟩ := hx
  obtain ⟨u, foundy, rfl⟩ := hy
  rw [r.rent?, r.rent?, foundx, foundy, Option.map_some, Option.map_some, Option.some_inj]
  exact r.mirrors.apart _ (List.mem_append_right _ (List.mem_map_of_mem (mem_of_tenancy? foundx)))
    _ (List.mem_append_right _ (List.mem_map_of_mem (mem_of_tenancy? foundy)))

end Refines

end Desk

namespace Archive

/-- A new rent has the record that it was made with. -/
theorem read?_add (a : Archive) (name : String) (record : Record) :
    (a.add name record).read? name = some record := by
  simp [add, keep, read?, rent?]

/-- Forgetting a name does not touch the others. -/
theorem read?_forget (a : Archive) {x y : String} (other : x ≠ y) :
    (a.forget x).read? y = a.read? y := by
  have same : (a.forget x).rent? y = a.rent? y := by
    simp only [rent?, forget, List.find?_filter]
    congr 2
    funext h
    by_cases at_y : h.1 = y <;> simp [at_y, Ne.symm other]
  rw [read?, read?, same]
  rfl

end Archive

namespace Desk

/-- **A pool cannot be told from an archive.** Whatever was done with a pool of any configuration:

* what is read through a live handle is what the archive has for its rent;
* live handles share a slot, and so a record, if and only if they stem from one rent;
* a rented record is empty, and a copy is equal to its source;
* giving up one handle succeeds and changes the record of no other one. -/
theorem archive_after (config : PoolConfig) (acts : List Act) :
    let d := (empty config).after acts
    let a := Archive.empty.after acts
    (∀ name h, d.handle? name = some h → ∃ rent record, a.rent? name = some rent ∧
      a.records[rent]? = some record ∧ d.pool.read? h = some record) ∧
    (∀ name, d.handle? name = none → a.rent? name = none) ∧
    (∀ x y h k, d.handle? x = some h → d.handle? y = some k →
      (h.slot = k.slot ↔ a.rent? x = a.rent? y)) ∧
    (∀ name, (d.rent name).2.read? name = some .empty) ∧
    (∀ name source, (d.rentCopy name source).2.read? name = some source) ∧
    (∀ x, ∃ e, d.release x = .ok e ∧ d.drop x = e ∧ ∀ y, x ≠ y → e.read? y = d.read? y) := by
  intro d a
  obtain ⟨ts, r⟩ : ∃ ts, d.Refines a ts [] := (refines_empty config).after acts
  refine ⟨fun _ _ => r.live, ?_, fun _ _ _ _ => r.slot_eq_iff, ?_, ?_, ?_⟩
  · intro name vacant
    rw [r.handle?, Option.map_eq_none_iff] at vacant
    simp [r.rent?, vacant]
  · intro name
    rw [(r.rent name).read?, Archive.read?_add]
  · intro name source
    rw [(r.rentCopy name source).read?, Archive.read?_add]
  · intro x
    obtain ⟨e, released, dropped, r'⟩ := r.release x
    refine ⟨e, released, dropped, fun y other => ?_⟩
    rw [r'.read?, Archive.read?_forget a other, r.read?]

/-- A slot that was given up is rented again, in its second generation; nothing is left of what was
written. -/
example :
    let d := (empty .default).after
      [.rent "a", .write "a" (.push (.null "n")), .dispose "a", .rent "b"]
    d.handle? "b" = some ⟨0, 1⟩ ∧ d.read? "b" = some .empty := by
  decide

end Desk

end TracePattern
