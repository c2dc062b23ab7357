import Mathlib.Algebra.Order.BigOperators.Group.List
import Mathlib.Algebra.Order.Ring.Nat
import TracePattern.Proofs.Pool.Moves

/-!
# What a pool keeps of the storage of free records

A record that is returned keeps its storage only if that is small enough and the stack of free slots
is not too high yet.  So the storage that waits unused is bounded by the configuration, whatever
was written.

* `Pool.retained`: the capacities of the free slots, by height in the stack;
* `PoolConfig.Admits`: capacities within the bounds of a configuration;
* `Pool.retains_kept`: lending, sharing, writing and taking back stay within the bounds;
* `Desk.retained_after`: the result.
-/

namespace TracePattern

/-- The capacities at the heights of a stack are within the bounds: no capacity exceeds the one, and
from the other height on there is no storage. -/
def PoolConfig.Admits (config : PoolConfig) (capacities : List ℕ) : Prop :=
  ∀ (height c : ℕ), capacities[height]? = some c →
    c ≤ config.maxRetainedProperties ∧ (config.maxFreeSlots ≤ height → c = 0)

namespace PoolConfig.Admits

variable {config : PoolConfig} {cs : List ℕ} {c : ℕ}

theorem nil (config : PoolConfig) : config.Admits [] := by
  intro height c found
  simp at found

/-- Something comes on top. -/
theorem concat (a : config.Admits cs) (small : c ≤ config.maxRetainedProperties)
    (dropped : config.maxFreeSlots ≤ cs.length → c = 0) : config.Admits (cs ++ [c]) := by
  intro height d found
  rw [List.getElem?_append] at found
  split at found
  case isTrue => exact a height d found
  case isFalse above =>
    rw [List.getElem?_singleton] at found
    split at found <;> cases found
    exact ⟨small, fun high => dropped (by omega)⟩

/-- The top is taken away. -/
theorem of_concat (a : config.Admits (cs ++ [c])) : config.Admits cs := by
  intro height d found
  refine a height d ?_
  rw [List.getElem?_append_left (List.getElem?_eq_some_iff.1 found).1, found]

theorem le (a : config.Admits cs) (mem : c ∈ cs) : c ≤ config.maxRetainedProperties := by
  obtain ⟨height, found⟩ := List.mem_iff_getElem?.1 mem
  exact (a height c found).1

/-- Above the bound there is nothing. -/
theorem eq_zero (a : config.Admits cs) (mem : c ∈ cs.drop config.maxFreeSlots) : c = 0 := by
  obtain ⟨height, found⟩ := List.mem_iff_getElem?.1 mem
  rw [List.getElem?_drop] at found
  exact (a _ c found).2 (Nat.le_add_right _ _)

/-- Only as many as the bound keep storage. -/
theorem countP_le (a : config.Admits cs) : cs.countP (0 < ·) ≤ config.maxFreeSlots := by
  have none_above : (cs.drop config.maxFreeSlots).countP (0 < ·) = 0 :=
    List.countP_eq_zero.2 fun c mem => by simp [a.eq_zero mem]
  calc cs.countP (0 < ·)
      = (cs.take config.maxFreeSlots).countP (0 < ·) := by
        rw [← List.take_append_drop config.maxFreeSlots cs, List.countP_append, none_above,
          Nat.add_zero, List.take_append_drop]
    _ ≤ (cs.take config.maxFreeSlots).length := List.countP_le_length
    _ ≤ config.maxFreeSlots := List.length_take_le _ _

/-- All storage together is bounded. -/
theorem sum_le (a : config.Admits cs) :
    cs.sum ≤ config.maxFreeSlots * config.maxRetainedProperties := by
  have none_above : (cs.drop config.maxFreeSlots).sum = 0 :=
    List.sum_eq_zero fun c mem => a.eq_zero mem
  calc cs.sum
      = (cs.take config.maxFreeSlots).sum := by
        rw [← List.sum_take_add_sum_drop cs config.maxFreeSlots, none_above, Nat.add_zero]
    _ ≤ (cs.take config.maxFreeSlots).length * config.maxRetainedProperties :=
        List.sum_le_card_nsmul _ _ fun c mem => a.le (List.mem_of_mem_take mem)
    _ ≤ config.maxFreeSlots * config.maxRetainedProperties :=
        Nat.mul_le_mul_right _ (List.length_take_le _ _)

end PoolConfig.Admits

namespace Pool

variable {p q : Pool} {hs ks : List Handle} {h : Handle} {rs : ℕ → ℕ} {config : PoolConfig}

/-- The capacity of the storage in the slot of number `i`. -/
def capacityAt (p : Pool) (i : ℕ) : ℕ :=
  ((p.slots[i]?).map fun slot => slot.storage.capacity).getD 0

theorem capacityAt_of_found {i : ℕ} {slot : Slot} (found : p.slots[i]? = some slot) :
    p.capacityAt i = slot.storage.capacity := by
  rw [capacityAt, found]
  rfl

/-- The capacities of the free slots, from the bottom of the stack to its top. -/
def retained (p : Pool) : List ℕ := p.free.reverse.map p.capacityAt

theorem length_retained (p : Pool) : p.retained.length = p.free.length := by simp [retained]

/-- The capacities of slots that have not changed. -/
theorem map_capacityAt {i : ℕ} {slot : Slot} (changed : p.Alters q i slot) {is : List ℕ}
    (other : i ∉ is) : is.map q.capacityAt = is.map p.capacityAt := by
  refine List.map_congr_left fun j mem => ?_
  rw [capacityAt, capacityAt, changed.elsewhere j fun same => other (same ▸ mem)]

/-- A pool of a configuration that stays within its bounds. How often slots were returned does not
matter. -/
structure Retains (config : PoolConfig) (p : Pool) (hs : List Handle) (_ : ℕ → ℕ) : Prop where
  lends : p.Lends hs
  configured : p.config = config
  admitted : config.Admits p.retained

theorem retains_empty (config : PoolConfig) : Retains config (empty config) [] fun _ => 0 :=
  ⟨lends_empty config, rfl, .nil config⟩

namespace Retains

theorem perm (r : Retains config p hs rs) (same : hs.Perm ks) : Retains config p ks rs :=
  { r with lends := r.lends.perm same }

/-- The slot on top of the stack needs no clearing before it is lent. -/
theorem isReset_top (r : Retains config p hs rs) {i : ℕ} {rest : List ℕ} {slot : Slot}
    (stack : p.free = i :: rest) (found : p.slots[i]? = some slot) :
    slot.storage.isReset config.maxRetainedProperties = true := by
  obtain ⟨slot', found', idle⟩ := (r.lends.free i).1 (by simp [stack])
  cases found.symm.trans found'
  have small : slot.storage.capacity ≤ config.maxRetainedProperties := by
    refine r.admitted.le (List.mem_map.2 ⟨i, by simp [stack], capacityAt_of_found found⟩)
  simp [Storage.isReset, r.lends.cleared i slot found idle, Record.empty, small]

theorem rent (r : Retains config p hs rs) : Retains config p.rent.2 (p.rent.1 :: hs) rs := by
  obtain ⟨storage, changed, -⟩ := r.lends.rent_alters
  rcases r.lends.rent_cases with ⟨stack, eq⟩ | ⟨slot, rest, stack, -, -, eq⟩
  · refine ⟨r.lends.rent, by rw [eq]; exact r.configured, ?_⟩
    have none_free : p.rent.2.free = [] := by rw [eq, ← stack]
    rw [retained, none_free]
    exact .nil config
  · refine ⟨r.lends.rent, by rw [eq]; exact r.configured, ?_⟩
    have left : p.rent.2.free = rest := by rw [eq]
    have top : p.rent.1.slot = slot.index := by rw [eq]
    have apart : slot.index ∉ rest := (List.nodup_cons.1 (stack ▸ r.lends.nodup)).1
    have below := r.admitted
    rw [retained, stack, List.reverse_cons, List.map_append] at below
    rw [retained, left, map_capacityAt changed (by rwa [top, List.mem_reverse])]
    exact below.of_concat

/-- What a rented record has: no content, and no more storage than the bound. -/
theorem rent_small (r : Retains config p hs rs) : ∃ slot, p.rent.2.slot p.rent.1 = .ok slot ∧
    slot.storage.record = .empty ∧ slot.storage.capacity ≤ config.maxRetainedProperties := by
  obtain ⟨slot, found, ok, -⟩ := r.lends.rent.slot_of_mem (List.mem_cons_self ..)
  refine ⟨slot, ok, ?_⟩
  rcases r.lends.rent_cases with ⟨-, eq⟩ | ⟨top, rest, stack, old, idle, eq⟩ <;> rw [eq] at found
  · obtain rfl : _ = slot := by simpa using found
    exact ⟨rfl, Nat.zero_le _⟩
  · have inside := (List.getElem?_eq_some_iff.1 old).1
    rw [List.getElem?_set_self inside, r.configured, if_pos (r.isReset_top stack old)] at found
    cases found
    have mem : top.index ∈ p.free.reverse := by simp [stack]
    have small := r.admitted.le (List.mem_map.2 ⟨_, mem, capacityAt_of_found old⟩)
    exact ⟨r.lends.cleared _ top old idle, small⟩

/-- A slot with holders changes. -/
theorem alter_held (r : Retains config p hs rs) {i : ℕ} {old : Slot}
    (found : p.slots[i]? = some old) (held : 0 < old.holders) (new : Slot)
    (lends : { p with slots := p.slots.set i new }.Lends ks) :
    Retains config { p with slots := p.slots.set i new } ks rs := by
  refine ⟨lends, r.configured, ?_⟩
  have busy : i ∉ p.free := by
    rw [r.lends.free]
    simp [found, Nat.ne_of_gt held]
  have same : { p with slots := p.slots.set i new }.retained = p.retained :=
    map_capacityAt (alters_set found new rfl) (mt List.mem_reverse.1 busy)
  exact same ▸ r.admitted

theorem write (r : Retains config p hs rs) (mem : h ∈ hs) (f : Storage → Storage) :
    Retains config (p.write h f) hs rs := by
  have lends := r.lends.write mem f
  obtain ⟨slot, found, held, eq⟩ := r.lends.write_eq mem f
  rw [eq] at lends ⊢
  exact r.alter_held found held _ lends

theorem increment (r : Retains config p hs rs) (mem : h ∈ hs) {given : Handle × Pool}
    (ok : p.increment h = .ok given) : Retains config given.2 (given.1 :: hs) rs := by
  obtain ⟨same, lends⟩ := r.lends.increment mem ok
  obtain ⟨slot, found, held, eq⟩ := r.lends.increment_eq mem
  rw [eq] at ok
  split at ok
  · cases ok
  cases ok
  exact r.alter_held found held _ lends

/-- **A slot comes back**: its storage is dropped if it is too large or the stack too high. -/
theorem giveBack (r : Retains config p (h :: hs) rs) {slot : Slot}
    (found : p.slots[h.slot]? = some slot) (held : 0 < slot.holders)
    (last : onSlot hs h.slot = 0) {rs' : ℕ → ℕ} :
    Retains config (p.giveBack h.slot slot) hs rs' := by
  refine ⟨r.lends.giveBack found held last, r.configured, ?_⟩
  obtain ⟨storage, -, changed⟩ := Lends.giveBack_alters found
  have busy : h.slot ∉ p.free := by
    rw [r.lends.free]
    simp [found, Nat.ne_of_gt held]
  have grown : (p.giveBack h.slot slot).retained =
      p.retained ++ [(p.giveBack h.slot slot).capacityAt h.slot] := by
    rw [retained, retained, ← map_capacityAt changed (mt List.mem_reverse.1 busy)]
    simp [Pool.giveBack, r.lends.index _ _ found]
  have inside := (List.getElem?_eq_some_iff.1 found).1
  rw [grown]
  apply r.admitted.concat <;>
    simp only [capacityAt, Pool.giveBack, List.getElem?_set_self inside, Option.map_some,
      Option.getD_some, r.configured, length_retained] <;> split
  case small.isTrue => exact Nat.zero_le _
  case small.isFalse kept => exact Nat.not_lt.1 fun large => kept (.inl large)
  case dropped.isTrue => exact fun _ => rfl
  case dropped.isFalse kept => exact fun high => absurd (.inr high) kept

theorem release (r : Retains config p (h :: hs) rs) {rs' : ℕ → ℕ} :
    ∃ q, p.release h = .ok q ∧ Retains config q hs rs' := by
  obtain ⟨q, ok, lends⟩ := r.lends.release
  obtain ⟨slot, found, held, eq⟩ := r.lends.release_eq
  rw [ok] at eq
  refine ⟨q, ok, ?_⟩
  split at eq <;> cases eq
  case isTrue last => exact r.giveBack found held last
  case isFalse more =>
    obtain ⟨lends, configured, admitted⟩ := r.alter_held found held _ lends
    exact ⟨lends, configured, admitted⟩

end Retains

/-- **Everything that is done stays within the bounds.** -/
theorem retains_kept (config : PoolConfig) : Kept (Retains config) where
  perm same r := r.perm same
  rent r := r.rent
  write mem r f := r.write mem f
  increment mem r ok := r.increment mem ok
  release r := r.release

end Pool

namespace Desk

/-- **The storage that a pool retains is bounded by its configuration.** Whatever was done with a
pool, by writes of any size:

* a record on the stack of free slots is empty, and its storage is within the bound;
* from the height `maxFreeSlots` of the stack on, counted from its bottom, there is no storage; so
  no more than `maxFreeSlots` free records have storage, and the bounds together bound it all;
* a record that is rented is empty with storage within the bound, and a free slot is never found
  uncleared when it is rented. -/
theorem retained_after (config : PoolConfig) (acts : List Act) :
    let p := ((empty config).after acts).pool
    (∀ i ∈ p.free, ∃ slot : Slot, p.slots[i]? = some slot ∧ slot.storage.record = .empty ∧
      slot.storage.capacity ≤ config.maxRetainedProperties) ∧
    (∀ (height i : ℕ) (slot : Slot), p.free.reverse[height]? = some i → p.slots[i]? = some slot →
      config.maxFreeSlots ≤ height → slot.storage.capacity = 0) ∧
    p.retained.countP (0 < ·) ≤ config.maxFreeSlots ∧
    p.retained.sum ≤ config.maxFreeSlots * config.maxRetainedProperties ∧
    (∃ slot, p.rent.2.slot p.rent.1 = .ok slot ∧ slot.storage.record = .empty ∧
      slot.storage.capacity ≤ config.maxRetainedProperties) ∧
    (∀ (i : ℕ) (rest : List ℕ) (slot : Slot), p.free = i :: rest → p.slots[i]? = some slot →
      slot.storage.isReset p.config.maxRetainedProperties = true) := by
  intro p
  have r := ((Pool.retains_kept config).after_empty (Pool.retains_empty config) acts).pool
  refine ⟨?small, ?high, r.admitted.countP_le, r.admitted.sum_le, r.rent_small, ?reset⟩
  case small =>
    intro i mem
    obtain ⟨slot, found, idle⟩ := (r.lends.free i).1 mem
    refine ⟨slot, found, r.lends.cleared i slot found idle, ?_⟩
    exact r.admitted.le
      (List.mem_map.2 ⟨i, List.mem_reverse.2 mem, Pool.capacityAt_of_found found⟩)
  case high =>
    intro height i slot here found high
    refine (r.admitted height _ ?_).2 high
    rw [Pool.retained, List.getElem?_map, here, Option.map_some, Pool.capacityAt_of_found found]
  case reset =>
    intro i rest slot stack found
    rw [r.configured]
    exact r.isReset_top stack found

end Desk

end TracePattern
