import TracePattern.Proofs.Pool.Archive

/-!
# What acts at a desk come down to

Whatever is done at a desk, its pool only ever lends a record, shares one, has one written or takes
one back.  So what these four keep, every run keeps.

* `Desk.handles`, `Desk.onSlot`: the live handles of a desk;
* `Pool.ended`, `Desk.returns`: how often the last handle of a slot was given up;
* `Pool.Kept`: a property of a pool, its live handles and the number of returns of every slot, kept
  by the four;
* `Pool.Kept.drop`, `Pool.Kept.grant`: names that give up a handle, and names that get one;
* `Pool.Kept.after`: runs.
-/

namespace TracePattern

namespace Pool

variable {hs ks : List Handle} {h : Handle}

/-- Whether the last handles on the slot of number `i` were given up between `hs` and `ks`, as a
number. -/
def ended (hs ks : List Handle) (i : ℕ) : ℕ := if 0 < onSlot hs i ∧ onSlot ks i = 0 then 1 else 0

theorem onSlot_perm (same : hs.Perm ks) : onSlot hs = onSlot ks := by
  funext i
  exact same.countP_eq _

theorem ended_of_perm (same : hs.Perm ks) (ls : List Handle) : ended hs ls = ended ks ls := by
  funext i
  simp only [ended, onSlot_perm same]

/-- Where no handle is given up, no slot is left by its last one. -/
theorem ended_eq_zero {i : ℕ} (more : onSlot hs i ≤ onSlot ks i) : ended hs ks i = 0 :=
  if_neg fun both => by omega

/-- Where the handles stay, nothing is counted. -/
theorem add_ended_self (rs : ℕ → ℕ) (hs : List Handle) : (fun i => rs i + ended hs hs i) = rs := by
  funext i
  rw [ended_eq_zero (Nat.le_refl _), Nat.add_zero]

/-- One handle goes: only its own slot can be left by its last one. -/
theorem ended_cons (h : Handle) (hs : List Handle) (i : ℕ) :
    ended (h :: hs) hs i = if i = h.slot ∧ onSlot hs i = 0 then 1 else 0 := by
  by_cases here : i = h.slot
  · subst here
    simp [ended, onSlot_cons_self]
  · rw [ended_eq_zero (Nat.le_of_eq (onSlot_cons_of_ne hs here)), if_neg fun both => here both.1]

/-- A handle that is new on both sides does not count: on its slot nothing ends. -/
theorem ended_cons_cons (h : Handle) (hs ks : List Handle) (i : ℕ) :
    ended (h :: hs) (h :: ks) i = ended hs (h :: ks) i := by
  by_cases here : i = h.slot
  · subst here
    simp [ended, onSlot_cons_self]
  · rw [ended, ended, onSlot_cons_of_ne hs here]

/-- What is kept by everything a pool does for its holders: a property of the pool, its live handles
and the number of times that each slot was returned. -/
structure Kept (P : Pool → List Handle → (ℕ → ℕ) → Prop) : Prop where
  perm : ∀ {p hs ks rs}, hs.Perm ks → P p hs rs → P p ks rs
  rent : ∀ {p hs rs}, P p hs rs → P p.rent.2 (p.rent.1 :: hs) rs
  write : ∀ {p hs rs h}, h ∈ hs → P p hs rs → ∀ f, P (p.write h f) hs rs
  increment : ∀ {p hs rs h} {given : Handle × Pool}, h ∈ hs → P p hs rs →
    p.increment h = .ok given → P given.2 (given.1 :: hs) rs
  release : ∀ {p h hs rs}, P p (h :: hs) rs →
    ∃ q, p.release h = .ok q ∧ P q hs fun i => rs i + ended (h :: hs) hs i

end Pool

namespace Desk

open Pool

variable {d : Desk} {rs : ℕ → ℕ} {P : Pool → List Handle → (ℕ → ℕ) → Prop}

/-- The live handles. -/
def handles (d : Desk) : List Handle := d.held.map Prod.snd

/-- The number of live handles on the slot of number `i`. -/
def onSlot (d : Desk) (i : ℕ) : ℕ := Pool.onSlot d.handles i

/-- The number of times that the last handle on the slot of number `i` was given up. -/
def returns (d : Desk) : List Act → ℕ → ℕ
  | [], _ => 0
  | act :: acts, i => ended d.handles (d.apply act).handles i + (d.apply act).returns acts i

theorem mem_handles {name : String} {h : Handle} (found : d.handle? name = some h) :
    h ∈ d.handles := by
  obtain ⟨entry, first, rfl⟩ := Option.map_eq_some_iff.1 found
  exact List.mem_map_of_mem (List.mem_of_find?_eq_some first)

/-- A name that has no handle is not there to be forgotten. -/
theorem forget_of_vacant {name : String} (vacant : d.handle? name = none) : d.forget name = d := by
  have all : d.held.filter (fun h => h.1 ≠ name) = d.held := by
    refine List.filter_eq_self.2 fun h mem => ?_
    have other := List.find?_eq_none.1 (Option.map_eq_none_iff.1 vacant) h mem
    simpa using other
  simp only [forget, all]

/-- The handles are the one of a name and those of the other names. -/
theorem perm_handles_forget (nodup : (d.held.map Prod.fst).Nodup) {name : String} {h : Handle}
    (found : d.handle? name = some h) : d.handles.Perm (h :: (d.forget name).handles) := by
  obtain ⟨⟨n, k⟩, first, rfl⟩ := Option.map_eq_some_iff.1 found
  obtain rfl : n = name := by simpa using List.find?_some first
  exact (perm_filter_ne nodup (List.mem_of_find?_eq_some first)).map Prod.snd

/-- A desk at which no name is used twice, with a property of its pool. -/
structure Keeps (d : Desk) (P : Pool → List Handle → (ℕ → ℕ) → Prop) (rs : ℕ → ℕ) : Prop where
  nodup : (d.held.map Prod.fst).Nodup
  pool : P d.pool d.handles rs

end Desk

namespace Pool.Kept

variable {P : Pool → List Handle → (ℕ → ℕ) → Prop} {d : Desk} {rs : ℕ → ℕ} {name : String}

open Desk

/-- **A name gives up its handle**, while the handles in `hand` have no name: this succeeds. -/
theorem drop (kept : Kept P) (hand : List Handle) (name : String)
    (nodup : (d.held.map Prod.fst).Nodup) (before : P d.pool (hand ++ d.handles) rs) :
    ∃ e, d.release name = .ok e ∧ d.drop name = e ∧ e.held = (d.forget name).held ∧
      P e.pool (hand ++ e.handles)
        fun i => rs i + ended (hand ++ d.handles) (hand ++ e.handles) i := by
  cases found : d.handle? name with
  | none =>
    have released : d.release name = .ok d := by simp [Desk.release, found]
    refine ⟨d, released, by simp [Desk.drop, released], by rw [forget_of_vacant found], ?_⟩
    rwa [add_ended_self]
  | some h =>
    have split : (hand ++ d.handles).Perm (h :: (hand ++ (d.forget name).handles)) :=
      ((perm_handles_forget nodup found).append_left hand).trans List.perm_middle
    obtain ⟨q, ok, after⟩ := kept.release (kept.perm split before)
    have released : d.release name = .ok { d.forget name with pool := q } := by
      simp [Desk.release, found, ok, Except.map]
    refine ⟨_, released, by simp [Desk.drop, released], rfl, ?_⟩
    rw [ended_of_perm split]
    exact after

/-- **A name gets a handle that the pool has given out**, in place of the one it had. -/
theorem grant (kept : Kept P) (nodup : (d.held.map Prod.fst).Nodup) {given : Handle × Pool}
    (lent : P given.2 (given.1 :: d.handles) rs) : (d.grant name given).2.Keeps P
      fun i => rs i + ended d.handles (d.grant name given).2.handles i := by
  obtain ⟨e, -, dropped, held, after⟩ :=
    kept.drop (d := { d with pool := given.2 }) [given.1] name nodup lent
  have granted : (d.grant name given).2 = { e with held := (name, given.1) :: e.held } := by
    rw [Desk.grant, Desk.keep, dropped]
  rw [granted]
  refine ⟨?nodup, ?pool⟩
  case nodup =>
    show (name :: e.held.map Prod.fst).Nodup
    rw [held]
    exact List.nodup_cons.2 ⟨by simp [forget], nodup.sublist (List.filter_sublist.map _)⟩
  case pool =>
    simp only [List.singleton_append, ended_cons_cons] at after
    exact after

/-- **Whatever is done keeps the property**, and counts the slots that are returned. -/
theorem apply (kept : Kept P) (k : d.Keeps P rs) (act : Act) :
    (d.apply act).Keeps P fun i => rs i + ended d.handles (d.apply act).handles i := by
  have unchanged {e : Desk} (keeps : e.Keeps P rs) (same : e.handles = d.handles) :
      e.Keeps P fun i => rs i + ended d.handles e.handles i := by
    rwa [same, add_ended_self]
  have given_up (name : String) : ∃ e, d.release name = .ok e ∧ d.drop name = e ∧
      e.Keeps P fun i => rs i + ended d.handles e.handles i := by
    obtain ⟨e, released, dropped, held, after⟩ := kept.drop [] name k.nodup k.pool
    refine ⟨e, released, dropped, ?_, after⟩
    rw [held]
    exact k.nodup.sublist (List.filter_sublist.map _)
  cases act with
  | rent name => exact kept.grant k.nodup (kept.rent k.pool)
  | rentCopy name source =>
    exact kept.grant k.nodup (kept.write (List.mem_cons_self ..) (kept.rent k.pool) _)
  | dispose name =>
    obtain ⟨e, released, -, keeps⟩ := given_up name
    simpa only [Desk.apply, released] using keeps
  | drop name =>
    obtain ⟨e, -, dropped, keeps⟩ := given_up name
    simpa only [Desk.apply, dropped] using keeps
  | write name w =>
    cases found : d.handle? name with
    | none => simpa only [Desk.apply, found] using unchanged k rfl
    | some h =>
      simp only [Desk.apply, found]
      exact unchanged ⟨k.nodup, kept.write (mem_handles found) k.pool _⟩ rfl
  | increment original name =>
    cases found : d.handle? original with
    | none => simpa only [Desk.apply, found] using unchanged k rfl
    | some h =>
      cases shared : d.pool.increment h with
      | error e =>
        simpa only [Desk.apply, found, Desk.increment, shared, Except.map] using unchanged k rfl
      | ok given =>
        simp only [Desk.apply, found, Desk.increment, shared, Except.map]
        exact kept.grant k.nodup (kept.increment (mem_handles found) k.pool shared)

/-- **Runs keep the property.** -/
theorem after (kept : Kept P) (k : d.Keeps P rs) (acts : List Act) :
    (d.after acts).Keeps P fun i => rs i + d.returns acts i := by
  induction acts generalizing d rs with
  | nil => exact k
  | cons act acts ih =>
    have rest := ih (kept.apply k act)
    simp only [Nat.add_assoc] at rest
    exact rest

/-- What holds of a pool without slots holds after every run from there. -/
theorem after_empty (kept : Kept P) {config : PoolConfig}
    (start : P (Pool.empty config) [] fun _ => 0) (acts : List Act) :
    ((Desk.empty config).after acts).Keeps P ((Desk.empty config).returns acts) := by
  simpa only [Nat.zero_add] using kept.after (d := .empty config) ⟨List.nodup_nil, start⟩ acts

end Pool.Kept

end TracePattern
