import TracePattern.Proofs.Pool.Moves

/-!
# The books of a pool

The counters of a pool agree with its slots and with the live handles after everything that can be
done with it, and nothing that holders do is ever refused as misuse.

* `Pool.Books`: a pool in good order whose counters and generations are right;
* `Pool.books_kept`: lending, sharing, writing and taking back keep the books;
* `Desk.Gives`: what the pool of a desk gives out;
* `Desk.books_after`: the result.
-/

namespace TracePattern

namespace Pool

variable {p : Pool} {hs ks : List Handle} {h : Handle} {rs : ℕ → ℕ}

/-- The live handles of a pool are `hs`, and `rs` counts the returns of each slot. -/
structure Books (p : Pool) (hs : List Handle) (rs : ℕ → ℕ) : Prop where
  lends : p.Lends hs
  balance : p.outstanding + p.free.length = p.slots.length
  rented : p.rents = p.recycled + p.slots.length
  /-- The generation of a slot is the number of its returns. -/
  generation : ∀ (i : ℕ) (slot : Slot), p.slots[i]? = some slot →
    slot.generation = UInt32.ofNat (rs i)
  /-- A slot that there is not yet was never returned. -/
  unborn : ∀ i, p.slots.length ≤ i → rs i = 0

theorem books_empty (config : PoolConfig) : (empty config).Books [] fun _ => 0 where
  lends := lends_empty config
  balance := rfl
  rented := rfl
  generation := by simp [empty]
  unborn _ _ := rfl

namespace Lends

/-- The slots without holders, by number. -/
theorem perm_idle (l : p.Lends hs) :
    p.free.Perm ((List.range p.slots.length).filter fun i => onSlot hs i = 0) := by
  refine (List.perm_ext_iff_of_nodup l.nodup (List.nodup_range.filter _)).2 fun i => ?_
  rw [l.free, List.mem_filter, List.mem_range]
  constructor
  · rintro ⟨slot, found, idle⟩
    exact ⟨(List.getElem?_eq_some_iff.1 found).1, by simpa [l.holders i slot found] using idle⟩
  · rintro ⟨inside, idle⟩
    have found := List.getElem?_eq_getElem inside
    exact ⟨_, found, by simpa [← l.holders i _ found] using idle⟩

/-- Every slot waits on the stack or has a live handle. -/
theorem length_free (l : p.Lends hs) :
    (List.range p.slots.length).countP (fun i => 0 < onSlot hs i) + p.free.length =
      p.slots.length := by
  have all := List.length_eq_countP_add_countP (fun i => decide (0 < onSlot hs i))
    (l := List.range p.slots.length)
  rw [List.length_range] at all
  rw [l.perm_idle.length_eq, ← List.countP_eq_length_filter]
  simpa [Nat.pos_iff_ne_zero] using all.symm

/-- A slot that is lent is not on the stack. -/
theorem length_free_lt (l : p.Lends (h :: hs)) : p.free.length < p.slots.length := by
  obtain ⟨slot, found, -, -⟩ := l.slot_of_mem (List.mem_cons_self ..)
  have lent : 0 < (List.range p.slots.length).countP fun i => 0 < onSlot (h :: hs) i := by
    have inside := (List.getElem?_eq_some_iff.1 found).1
    refine List.countP_pos_iff.2 ⟨h.slot, List.mem_range.2 inside, ?_⟩
    simp [onSlot_cons_self]
  have all := l.length_free
  omega

end Lends

namespace Books

theorem perm (b : p.Books hs rs) (same : hs.Perm ks) : p.Books ks rs :=
  { b with lends := b.lends.perm same }

theorem rent (b : p.Books hs rs) : p.rent.2.Books (p.rent.1 :: hs) rs := by
  obtain ⟨lends, balance, rented, generation, unborn⟩ := b
  have lent := lends.rent
  rcases lends.rent_cases with ⟨stack, eq⟩ | ⟨slot, rest, stack, found, -, eq⟩ <;>
    rw [eq] at lent ⊢ <;> rw [stack] at balance
  · refine ⟨lent, ?_, ?_, ?_, ?_⟩
    · simp only [stack, List.length_append, List.length_nil, List.length_singleton] at balance ⊢
      omega
    · simp only [List.length_append, List.length_singleton]
      omega
    · intro i s found
      rw [List.getElem?_append] at found
      split at found
      case isTrue => exact generation i s found
      case isFalse new =>
        rw [List.getElem?_singleton] at found
        split at found <;> cases found
        simp [Slot.fresh, unborn i (by omega)]
    · intro i outside
      exact unborn i (by simp at outside; omega)
  · refine ⟨lent, ?_, ?_, ?_, ?_⟩
    · simp only [List.length_cons, List.length_set] at balance ⊢
      omega
    · simp only [List.length_set]
      omega
    · refine (alters_set found _ rfl).all ?_ fun j s _ => generation j s
      exact generation _ slot found
    · simpa only [List.length_set] using unborn

/-- A slot changes that keeps its generation, and the counters do not. -/
theorem alter_held (b : p.Books hs rs) {i : ℕ} {old : Slot} (found : p.slots[i]? = some old)
    (new : Slot) (same : new.generation = old.generation)
    (lends : { p with slots := p.slots.set i new }.Lends ks) :
    { p with slots := p.slots.set i new }.Books ks rs where
  lends := lends
  balance := by simpa only [List.length_set] using b.balance
  rented := by simpa only [List.length_set] using b.rented
  generation := (alters_set found new rfl).all (same.trans (b.generation i old found))
    fun j s _ => b.generation j s
  unborn := by simpa only [List.length_set] using b.unborn

theorem write (b : p.Books hs rs) (mem : h ∈ hs) (f : Storage → Storage) :
    (p.write h f).Books hs rs := by
  have lends := b.lends.write mem f
  obtain ⟨slot, found, -, eq⟩ := b.lends.write_eq mem f
  rw [eq] at lends ⊢
  exact b.alter_held found _ rfl lends

theorem increment (b : p.Books hs rs) (mem : h ∈ hs) {given : Handle × Pool}
    (ok : p.increment h = .ok given) : given.2.Books (given.1 :: hs) rs := by
  obtain ⟨same, lends⟩ := b.lends.increment mem ok
  obtain ⟨slot, found, -, eq⟩ := b.lends.increment_eq mem
  rw [eq] at ok
  split at ok
  · cases ok
  cases ok
  exact b.alter_held found _ rfl lends

theorem giveBack (b : p.Books (h :: hs) rs) {slot : Slot} (found : p.slots[h.slot]? = some slot)
    (held : 0 < slot.holders) (last : onSlot hs h.slot = 0) :
    (p.giveBack h.slot slot).Books hs fun i => rs i + ended (h :: hs) hs i where
  lends := b.lends.giveBack found held last
  balance := by
    have balance := b.balance
    have lent := b.lends.length_free_lt
    simp only [Pool.giveBack, List.length_cons, List.length_set]
    omega
  rented := by simpa only [Pool.giveBack, List.length_set] using b.rented
  generation := by
    refine (alters_set found _ rfl).all ?here ?others
    case here =>
      simp [ended_cons, last, b.generation _ slot found]
    case others =>
      intro j s other found
      simpa [ended_cons, other] using b.generation j s found
  unborn i outside := by
    have inside := (List.getElem?_eq_some_iff.1 found).1
    simp only [Pool.giveBack, List.length_set] at outside
    rw [b.unborn i outside, ended_cons, if_neg fun both => by omega]

theorem release (b : p.Books (h :: hs) rs) :
    ∃ q, p.release h = .ok q ∧ q.Books hs fun i => rs i + ended (h :: hs) hs i := by
  obtain ⟨q, ok, lends⟩ := b.lends.release
  obtain ⟨slot, found, held, eq⟩ := b.lends.release_eq
  rw [ok] at eq
  refine ⟨q, ok, ?_⟩
  split at eq <;> cases eq
  case isTrue last => exact b.giveBack found held last
  case isFalse more =>
    have none_ended : (fun i => rs i + ended (h :: hs) hs i) = rs := by
      funext i
      have stays : ¬ (i = h.slot ∧ onSlot hs i = 0) := fun both => more (both.1 ▸ both.2)
      rw [ended_cons, if_neg stays, Nat.add_zero]
    rw [none_ended]
    exact b.alter_held found _ rfl lends

end Books

/-- **Everything that is done keeps the books.** -/
theorem books_kept : Kept Books where
  perm same b := b.perm same
  rent b := b.rent
  write mem b f := b.write mem f
  increment mem b ok := b.increment mem ok
  release b := b.release

end Pool

namespace Desk

variable {d : Desk} {rs : ℕ → ℕ}

/-- The pool of a desk gives this out: a new record, a copy, or a share in a record. -/
inductive Gives (d : Desk) : Handle × Pool → Prop
  | rent : d.Gives d.pool.rent
  | rentCopy (source : Record) : d.Gives (d.pool.rentCopy source)
  | increment {name : String} {h : Handle} {given : Handle × Pool} (found : d.handle? name = some h)
    (ok : d.pool.increment h = .ok given) : d.Gives given

theorem Gives.books {given : Handle × Pool} (gives : d.Gives given)
    (b : d.pool.Books d.handles rs) : given.2.Books (given.1 :: d.handles) rs := by
  cases gives with
  | rent => exact b.rent
  | rentCopy source => exact b.rent.write (List.mem_cons_self ..) _
  | increment found ok => exact b.increment (mem_handles found) ok

/-- **The books of a pool are right.** Whatever was done with a pool of any configuration:

* a slot knows its place, counts the live handles on it, and its generation is the number of times
  it was returned;
* the slots without holders are those on the stack of free ones, once each;
* a live handle is of the present generation of its slot;
* the counters agree with the slots;
* a handle that is given up, or whose name gets another one, is released without error, and a
  handle is shared without error unless its slot has all the holders it can count. -/
theorem books_after (config : PoolConfig) (acts : List Act) :
    let d := (empty config).after acts
    let p := d.pool
    (∀ (i : ℕ) (slot : Slot), p.slots[i]? = some slot → slot.index = i ∧
      slot.holders = d.onSlot i ∧
      slot.generation = UInt32.ofNat ((empty config).returns acts i)) ∧
    p.free.Nodup ∧
    (∀ i, i ∈ p.free ↔ ∃ slot : Slot, p.slots[i]? = some slot ∧ slot.holders = 0) ∧
    (∀ name h, d.handle? name = some h → ∃ slot : Slot, p.slots[h.slot]? = some slot ∧
      slot.generation = h.generation) ∧
    p.stats.outstanding = (List.range p.stats.slots).countP (fun i => 0 < d.onSlot i) ∧
    p.stats.outstanding + p.stats.free = p.stats.slots ∧
    p.stats.rents = p.stats.recycled + p.stats.slots ∧
    (∀ name, ∃ e, d.release name = .ok e ∧ d.drop name = e) ∧
    (∀ name given, d.Gives given → ∃ e, { d with pool := given.2 }.release name = .ok e) ∧
    (∀ original name h, d.handle? original = some h → d.onSlot h.slot < Pool.maxHolders →
      ∃ granted, d.increment h name = .ok granted) := by
  intro d p
  have keeps := Pool.books_kept.after_empty (Pool.books_empty config) acts
  have b : p.Books d.handles ((empty config).returns acts) := keeps.pool
  refine ⟨fun i slot found => ⟨b.lends.index i slot found, b.lends.holders i slot found,
    b.generation i slot found⟩, b.lends.nodup, b.lends.free,
    fun name h found => b.lends.live h (mem_handles found), ?outstanding, b.balance, b.rented,
    ?release, ?replace, ?share⟩
  case outstanding =>
    have all := b.lends.length_free
    have balance := b.balance
    show p.outstanding = (List.range p.slots.length).countP fun i => 0 < Pool.onSlot d.handles i
    omega
  case release =>
    intro name
    obtain ⟨e, released, dropped, -⟩ :=
      Pool.books_kept.drop [] name keeps.nodup keeps.pool
    exact ⟨e, released, dropped⟩
  case replace =>
    intro name given gives
    obtain ⟨e, released, -⟩ := Pool.books_kept.drop (d := { d with pool := given.2 })
      [given.1] name keeps.nodup (gives.books b)
    exact ⟨e, released⟩
  case share =>
    intro original name h found room
    obtain ⟨slot, -, -, eq⟩ := b.lends.increment_eq (mem_handles found)
    rw [← onSlot, if_neg (Nat.not_le.2 room)] at eq
    exact ⟨_, by rw [Desk.increment, eq]; rfl⟩

end Desk

end TracePattern
