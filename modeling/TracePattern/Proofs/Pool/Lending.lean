import Mathlib.Tactic.Common
import TracePattern.Pool.Basic

/-!
# Which handles of a pool are live

A pool does not know its handles; it only counts them.  Beside a list of the handles that were given
out and not yet released, the pool is in good order when every slot counts the handles on it, the
slots without handles are those on the stack, once each, and their records are empty.

* `Pool.Alters`: one slot has changed, the others have not;
* `Pool.Lends`: a pool in good order, beside its live handles;
* `Pool.Lends.rent`, `Pool.Lends.increment`, `Pool.Lends.release`, `Pool.Lends.write`: what each
  operation does to the slots, and that it keeps the order.
-/

namespace TracePattern

namespace Pool

variable {p q : Pool} {hs : List Handle} {h : Handle}

/-- The number of handles on the slot of number `i`. -/
def onSlot (hs : List Handle) (i : ℕ) : ℕ := hs.countP (·.slot = i)

theorem onSlot_cons_self (h : Handle) (hs : List Handle) :
    onSlot (h :: hs) h.slot = onSlot hs h.slot + 1 := List.countP_cons_of_pos (by simp)

theorem onSlot_cons_of_ne (hs : List Handle) {i : ℕ} (other : i ≠ h.slot) :
    onSlot (h :: hs) i = onSlot hs i := List.countP_cons_of_neg (by simpa using other.symm)

theorem onSlot_eq_zero {i : ℕ} : onSlot hs i = 0 ↔ ∀ h ∈ hs, h.slot ≠ i := by
  simp [onSlot, List.countP_eq_zero]

/-- From `p` to `q` the slot of number `i` became `slot`, and no other slot has changed. -/
structure Alters (p q : Pool) (i : ℕ) (slot : Slot) : Prop where
  here : q.slots[i]? = some slot
  elsewhere : ∀ j, j ≠ i → q.slots[j]? = p.slots[j]?

/-- Replacing a slot that is there. -/
theorem alters_set {i : ℕ} {old : Slot} (found : p.slots[i]? = some old) (new : Slot)
    (slots : q.slots = p.slots.set i new) : p.Alters q i new := by
  obtain ⟨inside, -⟩ := List.getElem?_eq_some_iff.1 found
  constructor
  · rw [slots, List.getElem?_set_self inside]
  · intro j other
    rw [slots, List.getElem?_set_ne other.symm]

/-- What holds of the changed slot and of all the others holds of every slot. -/
theorem Alters.all {i : ℕ} {new : Slot} (changed : p.Alters q i new) {Q : ℕ → Slot → Prop}
    (here : Q i new) (others : ∀ j slot, j ≠ i → p.slots[j]? = some slot → Q j slot) (j : ℕ)
    (slot : Slot) (found : q.slots[j]? = some slot) : Q j slot := by
  by_cases at_i : j = i
  · subst at_i
    obtain rfl : new = slot := Option.some.inj (changed.here.symm.trans found)
    exact here
  · exact others j slot at_i (changed.elsewhere j at_i ▸ found)

/-- If the slot keeps its storage, all slots do. -/
theorem Alters.storage {i : ℕ} {old new : Slot} (changed : p.Alters q i new)
    (found : p.slots[i]? = some old) (same : new.storage = old.storage) (j : ℕ) :
    (q.slots[j]?).map Slot.storage = (p.slots[j]?).map Slot.storage := by
  by_cases here : j = i
  · rw [here, changed.here, found, Option.map_some, Option.map_some, same]
  · rw [changed.elsewhere j here]

/-- The live handles of a pool are `hs`. -/
structure Lends (p : Pool) (hs : List Handle) : Prop where
  /-- A live handle is of the present generation of its slot. -/
  live : ∀ h ∈ hs, ∃ slot : Slot, p.slots[h.slot]? = some slot ∧ slot.generation = h.generation
  /-- A slot knows its place. -/
  index : ∀ (i : ℕ) (slot : Slot), p.slots[i]? = some slot → slot.index = i
  /-- A slot counts the live handles on it. -/
  holders : ∀ (i : ℕ) (slot : Slot), p.slots[i]? = some slot → slot.holders = onSlot hs i
  nodup : p.free.Nodup
  /-- The slots without holders wait on the stack. -/
  free : ∀ i, i ∈ p.free ↔ ∃ slot : Slot, p.slots[i]? = some slot ∧ slot.holders = 0
  /-- A slot without holders has been cleared. -/
  cleared : ∀ (i : ℕ) (slot : Slot), p.slots[i]? = some slot → slot.holders = 0 →
    slot.storage.record = .empty

theorem lends_empty (config : PoolConfig) : (empty config).Lends [] := by
  constructor <;> simp [empty]

namespace Lends

theorem perm {ks : List Handle} (l : p.Lends hs) (same : hs.Perm ks) : p.Lends ks where
  live h mem := l.live h (same.mem_iff.2 mem)
  index := l.index
  holders i slot found := (l.holders i slot found).trans (same.countP_eq _)
  nodup := l.nodup
  free := l.free
  cleared := l.cleared

/-- The slot of a live handle is found. -/
theorem slot_of_mem (l : p.Lends hs) (mem : h ∈ hs) :
    ∃ slot, p.slots[h.slot]? = some slot ∧ p.slot h = .ok slot ∧ 0 < slot.holders := by
  obtain ⟨slot, found, generation⟩ := l.live h mem
  refine ⟨slot, found, by simp [Pool.slot, found, generation], ?_⟩
  rw [l.holders _ _ found]
  exact List.countP_pos_iff.2 ⟨h, mem, by simp⟩

/-- **One slot changes.** The order is kept if the changed slot is in order; of the other slots it
matters only that their handles are the same ones. -/
theorem alter (l : p.Lends hs) {i : ℕ} {slot : Slot} (changed : p.Alters q i slot)
    {ks : List Handle} (others : ∀ j, j ≠ i → onSlot ks j = onSlot hs j)
    (fresh : ∀ k ∈ ks, k ∈ hs ∧ k.slot ≠ i ∨ k.slot = i ∧ k.generation = slot.generation)
    (index : slot.index = i) (holders : slot.holders = onSlot ks i) (nodup : q.free.Nodup)
    (free : ∀ j, j ≠ i → (j ∈ q.free ↔ j ∈ p.free)) (waits : i ∈ q.free ↔ slot.holders = 0)
    (cleared : slot.holders = 0 → slot.storage.record = .empty) : q.Lends ks := by
  refine ⟨?live, changed.all index fun j s _ => l.index j s,
    changed.all holders fun j s other found => others j other ▸ l.holders j s found, nodup, ?free,
    changed.all cleared fun j s _ => l.cleared j s⟩
  case live =>
    intro k mem
    rcases fresh k mem with ⟨old, other⟩ | ⟨at_i, generation⟩
    · rw [changed.elsewhere _ other]
      exact l.live k old
    · exact ⟨slot, by rw [at_i]; exact changed.here, generation.symm⟩
  case free =>
    intro j
    by_cases at_i : j = i
    · subst at_i
      simp [waits, changed.here]
    · rw [free j at_i, changed.elsewhere j at_i]
      exact l.free j

/-! ### Renting -/

/-- **Renting** takes a new slot if none is free, and else the one on top of the stack. -/
theorem rent_cases (l : p.Lends hs) :
    p.free = [] ∧ p.rent = (⟨p.slots.length, 0⟩, { p with
      slots := p.slots ++ [{ Slot.fresh p.slots.length with holders := 1 }]
      outstanding := p.outstanding + 1
      rents := p.rents + 1 }) ∨
    ∃ (slot : Slot) (rest : List ℕ), p.free = slot.index :: rest ∧
      p.slots[slot.index]? = some slot ∧ slot.holders = 0 ∧
      p.rent = (⟨slot.index, slot.generation⟩, { p with
        slots := p.slots.set slot.index { slot with
          holders := 1
          storage :=
            if slot.storage.isReset p.config.maxRetainedProperties then slot.storage else .fresh }
        free := rest
        outstanding := p.outstanding + 1
        rents := p.rents + 1
        recycled := p.recycled + 1 }) := by
  cases stack : p.free with
  | nil => exact .inl ⟨rfl, by simp only [Pool.rent, stack]⟩
  | cons i rest =>
    obtain ⟨slot, found, idle⟩ := (l.free i).1 (by simp [stack])
    obtain rfl := l.index i slot found
    exact .inr ⟨slot, rest, rfl, found, idle, by simp only [Pool.rent, stack, found]⟩

/-- What renting does to the slots: the rented slot had no handle on it, now counts one, and its
record is empty; it has left the stack. -/
theorem rent_alters (l : p.Lends hs) : ∃ storage : Storage,
    p.Alters p.rent.2 p.rent.1.slot ⟨p.rent.1.slot, 1, p.rent.1.generation, storage⟩ ∧
      storage.record = .empty ∧ (∀ h ∈ hs, h.slot ≠ p.rent.1.slot) ∧
        p.rent.2.free = p.free.erase p.rent.1.slot := by
  rcases l.rent_cases with ⟨stack, eq⟩ | ⟨slot, rest, stack, found, idle, eq⟩ <;>
    rw [eq, stack]
  · refine ⟨.fresh, ⟨by simp [Slot.fresh], ?_⟩, rfl, ?_, rfl⟩
    · intro j other
      simp only [List.getElem?_append] at other ⊢
      split
      · rfl
      · rw [List.getElem?_eq_none (by simp; omega), List.getElem?_eq_none (by omega)]
    · intro h mem same
      obtain ⟨slot, found, -⟩ := l.live h mem
      simp [same] at found
  · refine ⟨_, alters_set found _ rfl, ?_, ?_, by simp⟩
    · split
      · exact l.cleared _ slot found idle
      · rfl
    · intro h mem same
      obtain ⟨slot', found', -, held⟩ := l.slot_of_mem mem
      rw [same, found] at found'
      cases found'
      omega

theorem rent (l : p.Lends hs) : p.rent.2.Lends (p.rent.1 :: hs) := by
  obtain ⟨storage, changed, empty, apart, free⟩ := l.rent_alters
  refine l.alter changed (fun _ => onSlot_cons_of_ne hs) ?fresh rfl ?holders ?nodup ?free ?waits
    (by simp)
  case fresh =>
    intro k mem
    rcases List.mem_cons.1 mem with rfl | old
    · exact .inr ⟨rfl, rfl⟩
    · exact .inl ⟨old, apart k old⟩
  case holders => rw [onSlot_cons_self, onSlot_eq_zero.2 apart]
  case nodup => exact free ▸ l.nodup.erase _
  case free =>
    intro j other
    rw [free, List.mem_erase_of_ne other]
  case waits => simp [free, l.nodup.not_mem_erase]

/-! ### Writing, incrementing, releasing -/

/-- **A slot with holders changes and still has holders.** -/
theorem alter_held (l : p.Lends hs) {i : ℕ} {old : Slot} (found : p.slots[i]? = some old)
    (new : Slot) (index : new.index = old.index) (generation : new.generation = old.generation)
    (before : 0 < old.holders)
    (now : 0 < new.holders) {ks : List Handle} (sub : ks ⊆ hs)
    (others : ∀ j, j ≠ i → onSlot ks j = onSlot hs j)
    (holders : new.holders = onSlot ks i) :
    { p with slots := p.slots.set i new }.Lends ks := by
  refine l.alter (alters_set found new rfl) others ?fresh (index.trans (l.index i old found))
    holders l.nodup (fun _ _ => .rfl) ?waits (fun idle => absurd idle (Nat.ne_of_gt now))
  case fresh =>
    intro k mem
    by_cases at_i : k.slot = i
    · obtain ⟨slot, found', same⟩ := l.live k (sub mem)
      rw [at_i, found] at found'
      cases found'
      exact .inr ⟨at_i, same.symm.trans generation.symm⟩
    · exact .inl ⟨sub mem, at_i⟩
  case waits =>
    show i ∈ p.free ↔ _
    simp [l.free, found, Nat.ne_of_gt before, Nat.ne_of_gt now]

/-- What writing does to the slots. -/
theorem write_eq (l : p.Lends hs) (mem : h ∈ hs) (f : Storage → Storage) :
    ∃ slot, p.slots[h.slot]? = some slot ∧ 0 < slot.holders ∧ p.write h f =
      { p with slots := p.slots.set h.slot { slot with storage := f slot.storage } } := by
  obtain ⟨slot, found, ok, held⟩ := l.slot_of_mem mem
  exact ⟨slot, found, held, by simp [Pool.write, ok]⟩

theorem write (l : p.Lends hs) (mem : h ∈ hs) (f : Storage → Storage) :
    (p.write h f).Lends hs := by
  obtain ⟨slot, found, held, eq⟩ := l.write_eq mem f
  rw [eq]
  exact l.alter_held found { slot with storage := f slot.storage } rfl rfl held held
    (List.Subset.refl _) (fun _ _ => rfl) (l.holders h.slot slot found)

/-- What incrementing does: the slot counts one more, unless it counts as many as it can. -/
theorem increment_eq (l : p.Lends hs) (mem : h ∈ hs) :
    ∃ slot, p.slots[h.slot]? = some slot ∧ 0 < slot.holders ∧ p.increment h =
      if maxHolders ≤ onSlot hs h.slot then .error (.doubleDispose h.slot)
      else .ok (h, { p with
        slots := p.slots.set h.slot { slot with holders := slot.holders + 1 } }) := by
  obtain ⟨slot, found, ok, held⟩ := l.slot_of_mem mem
  refine ⟨slot, found, held, ?_⟩
  rw [← l.holders _ _ found]
  simp only [Pool.increment, ok, bind, Except.bind, Nat.ne_of_gt held, false_or, l.index _ _ found]
  rfl

theorem increment (l : p.Lends hs) (mem : h ∈ hs) {given : Handle × Pool}
    (ok : p.increment h = .ok given) : given.1 = h ∧ given.2.Lends (h :: hs) := by
  obtain ⟨slot, found, held, eq⟩ := l.increment_eq mem
  rw [eq] at ok
  split at ok
  · cases ok
  cases ok
  refine ⟨rfl, l.alter_held found { slot with holders := slot.holders + 1 } rfl rfl held
    (Nat.succ_pos _) ?_ (fun _ => onSlot_cons_of_ne hs) ?_⟩
  · exact List.cons_subset.2 ⟨mem, List.Subset.refl _⟩
  · rw [onSlot_cons_self, l.holders _ _ found]

/-- What releasing does: the slot counts one less; if it was the last one, the slot is given
back. -/
theorem release_eq (l : p.Lends (h :: hs)) :
    ∃ slot, p.slots[h.slot]? = some slot ∧ 0 < slot.holders ∧ p.release h = .ok
      (if onSlot hs h.slot = 0 then p.giveBack h.slot slot
      else { p with slots := p.slots.set h.slot { slot with holders := slot.holders - 1 } }) := by
  obtain ⟨slot, found, ok, held⟩ := l.slot_of_mem (List.mem_cons_self ..)
  refine ⟨slot, found, held, ?_⟩
  have count := l.holders _ _ found
  rw [onSlot_cons_self] at count
  simp only [Pool.release, ok, bind, Except.bind, Nat.ne_of_gt held, if_false]
  by_cases last : onSlot hs h.slot = 0
  · simp [show slot.holders = 1 by omega, last, pure, Except.pure]
  · simp [show slot.holders ≠ 1 by omega, last, pure, Except.pure]

/-- What giving a slot back does to it. -/
theorem giveBack_alters {i : ℕ} {slot : Slot} (found : p.slots[i]? = some slot) :
    ∃ storage : Storage, storage.record = .empty ∧
      p.Alters (p.giveBack i slot) i ⟨slot.index, 0, slot.generation + 1, storage⟩ := by
  refine ⟨_, ?_, alters_set found _ rfl⟩
  split <;> rfl

theorem giveBack (l : p.Lends (h :: hs)) {slot : Slot} (found : p.slots[h.slot]? = some slot)
    (held : 0 < slot.holders) (last : onSlot hs h.slot = 0) :
    (p.giveBack h.slot slot).Lends hs := by
  obtain ⟨storage, empty, changed⟩ := giveBack_alters found
  have place := l.index _ _ found
  have away : h.slot ∉ p.free := by
    rw [l.free]
    simp [found, Nat.ne_of_gt held]
  refine l.alter changed (fun _ other => (onSlot_cons_of_ne hs other).symm) ?fresh place last.symm
    ?nodup ?free (by simp [Pool.giveBack, place]) (fun _ => empty)
  case fresh =>
    intro k mem
    exact .inl ⟨List.mem_cons_of_mem _ mem, onSlot_eq_zero.1 last k mem⟩
  case nodup => exact List.nodup_cons.2 ⟨place ▸ away, l.nodup⟩
  case free =>
    intro j other
    simp [Pool.giveBack, place, other]

/-- **Releasing a live handle succeeds**, and the other handles stay live. -/
theorem release (l : p.Lends (h :: hs)) : ∃ q, p.release h = .ok q ∧ q.Lends hs := by
  obtain ⟨slot, found, held, eq⟩ := l.release_eq
  refine ⟨_, eq, ?_⟩
  split
  case isTrue last => exact l.giveBack found held last
  case isFalse more =>
    have count := l.holders _ _ found
    rw [onSlot_cons_self] at count
    exact l.alter_held found { slot with holders := slot.holders - 1 } rfl rfl held
      (show 0 < slot.holders - 1 by omega) (List.subset_cons_self _ _)
      (fun _ other => (onSlot_cons_of_ne hs other).symm) (show slot.holders - 1 = _ by omega)

end Lends

end Pool

end TracePattern
