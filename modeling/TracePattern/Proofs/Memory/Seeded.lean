import TracePattern.Proofs.Memory.Agreement
import TracePattern.Proofs.Value.Equality

/-!
# Hashes of keys

A set of keys keeps them in buckets by their hashes, but it answers like the list of all keys that
were ever put into it, searched by equality. So the hash does not matter, not even if it is the same
for all keys.

* `KeySet.put`, `KeySet.news`: keys put into a set one after another, and which of them are new;
* `KeySet.getElem?_news`: those that equal no earlier one;
* `Memory.agree_seeded`: routers with hashes of their own;
* `KeySet.news_spec`: sets and paths do not depend on the hash.
-/

namespace TracePattern

namespace KeySet

variable {hash : List Int → UInt64}

/-- A key is put into the set, if no equal key is there: the set after that, and whether the key is
new. -/
def put (hash : List Int → UInt64) (s : KeySet) (key : Value) : KeySet × Bool :=
  match s.insertWith? hash key with
  | some t => (t, true)
  | none => (s, false)

/-- Which keys are new when they are put into the set one after another. -/
def news (hash : List Int → UInt64) (s : KeySet) : List Value → List Bool
  | [] => []
  | key :: rest =>
    let done := s.put hash key
    done.2 :: done.1.news hash rest

/-- A set that has a key has all keys that equal it, and looks for them in the same bucket. -/
theorem hasWith_of_equal {s : KeySet} {key other : Value} (has : s.hasWith hash key = true)
    (same : key.equal other = true) : s.hasWith hash other = true := by
  unfold hasWith at has ⊢
  rw [List.any_eq_true] at has ⊢
  obtain ⟨first, mem, equal⟩ := has
  rw [Value.digest_eq_of_equal same] at mem
  exact ⟨first, mem, Value.equal_trans equal same⟩

theorem snd_put (s : KeySet) (key : Value) : (s.put hash key).2 = !s.hasWith hash key := by
  unfold put
  split
  · rename_i inserted
    have new : s.hasWith hash key ≠ true := by
      rw [Ne, ← insertWith?_eq_none, inserted]
      exact Option.some_ne_none _
    simpa using new
  · rename_i known
    simp [insertWith?_eq_none.1 known]

/-- **After a key was put into a set, it has the keys that equal this one**, whether this one is kept
or an earlier one stands for it. -/
theorem hasWith_put (s : KeySet) (key other : Value) :
    (s.put hash key).1.hasWith hash other = (s.hasWith hash other || key.equal other) := by
  unfold put
  rw [Bool.eq_iff_iff, Bool.or_eq_true]
  split
  · rename_i inserted
    exact hasWith_insertWith? inserted other
  · rename_i known
    have has := insertWith?_eq_none.1 known
    exact ⟨.inl, fun h => h.elim id (hasWith_of_equal has)⟩

/-- Which keys are new to a set that has some keys before. -/
theorem getElem?_news_of (s : KeySet) (keys : List Value) (n : ℕ) :
    (s.news hash keys)[n]? = keys[n]?.map fun key =>
      !s.hasWith hash key && (keys.take n).all fun k => !k.equal key := by
  induction keys generalizing s n with
  | nil => rfl
  | cons first rest ih =>
    cases n with
    | zero => simp [news, snd_put]
    | succ n =>
      rw [news, List.getElem?_cons_succ, List.getElem?_cons_succ, ih]
      refine congrArg (Option.map · _) (funext fun key => ?_)
      rw [hasWith_put, List.take_succ_cons, List.all_cons, Bool.not_or, Bool.and_assoc]

/-- **A key is new if no earlier one equals it.** -/
theorem getElem?_news (keys : List Value) (n : ℕ) :
    (empty.news hash keys)[n]? = keys[n]?.map fun key =>
      (keys.take n).all fun k => !k.equal key := by
  simp [getElem?_news_of]

/-- Two sets of keys, the second one with hashes of another kind, have the same keys. -/
def Matches (hash : ℕ → List Int → UInt64) (router : ℕ) (s t : KeySet) : Prop :=
  ∀ key, t.hasWith (hash router) key = s.has key

/-- A further key is new to both of two matching sets, or to none, and they match again. -/
theorem Matches.insert {hash : ℕ → List Int → UInt64} {router : ℕ} {s t : KeySet}
    (h : Matches hash router s t) (key : Value) :
    Option.Rel (Matches hash router) (s.insert? key) (t.insertWith? (hash router) key) := by
  cases first : s.insert? key with
  | none =>
    have known := (h key).trans (insert?_eq_none.1 first)
    rw [insertWith?_eq_none.2 known]
    exact .none
  | some s' =>
    cases second : t.insertWith? (hash router) key with
    | none =>
      have known := (h key).symm.trans (insertWith?_eq_none.1 second)
      rw [insert?_eq_none.2 known] at first
      cases first
    | some t' =>
      refine .some fun other => ?_
      rw [Bool.eq_iff_iff, hasWith_insertWith? second, has_insert? first, h]

end KeySet

/-- **Routers answer alike with any hashes.** -/
theorem Memory.agree_seeded (S : Scope) (event : Record) (hash : ℕ → List Int → UInt64) :
    Agree S event .kept (.seeded hash) Eq (KeySet.Matches hash) where
  found := by
    rintro k - r _ rfl
    rfl
  keeps := by
    rintro k - r _ rfl
    simp only [Recall.ask, kept, seeded]
  empty router key := by rw [KeySet.hasWith_empty, KeySet.has_empty]
  insert same key := same.insert key

/-- **A hashed set of keys is a list searched by equality.**

* Of some keys that are put into an empty set one after another, with any hash, those are new that
  equal no earlier one, whether that one is kept or not;
* the equality of values compares them kind by kind. It is symmetric and transitive, and a value
  equals itself unless it is foreign;
* equal values are fed to the hash alike;
* foreign keys are always new;
* a life of a path, whatever hash each of its routers has, is the same, and so are the reports of a
  further event. -/
theorem KeySet.news_spec :
    (∀ hash keys n, (empty.news hash keys)[n]? = keys[n]?.map fun key =>
      (keys.take n).all fun k => !k.equal key) ∧
    (∀ a b : Value, a.equal b = true ↔ a.Same b) ∧
    (∀ a b : Value, a.equal b = b.equal a) ∧
    (∀ a b c : Value, a.equal b = true → b.equal c = true → a.equal c = true) ∧
    (∀ a : Value, a.equal a = true ↔ a.tag ≠ .foreign) ∧
    (∀ a b : Value, a.equal b = true → a.digest = b.digest) ∧
    (∀ hash (keys : List Value) (n : ℕ) text, keys[n]? = some (.foreign text) →
      (empty.news hash keys)[n]? = some true) ∧
    ∀ tree : Expr, tree.defect? = none → ∀ hash id name initial acts e,
      let p := (Path.start id name tree initial).after acts
      let q := (Path.start id name tree initial).afterBy (.seeded hash) acts
      p.Alike (Matches hash) q ∧
        (p.onEvent e).1.Alike (Matches hash) (q.onEventBy (.seeded hash) e).1 ∧
        (q.onEventBy (.seeded hash) e).2.reports = (p.onEvent e).2.reports := by
  refine ⟨fun hash => getElem?_news, fun _ _ => Value.equal_iff_same, Value.equal_comm,
    fun _ _ _ => Value.equal_trans, fun _ => Value.equal_self,
    fun _ _ => Value.digest_eq_of_equal, ?foreign, ?paths⟩
  case foreign =>
    intro hash keys n text found
    have unlike (k : Value) : k.equal (.foreign text) = false := by
      rw [Value.equal_comm]
      rfl
    rw [getElem?_news, found]
    simp [unlike]
  case paths =>
    intro tree valid hash id name initial acts e p q
    have within : tree.Within .all :=
      Expr.within_of_valid valid (fun _ _ => trivial) fun _ _ => trivial
    have agree := fun e => Memory.agree_seeded .all e hash
    have begins := Path.alike_start (agree e).empty id name tree initial
    have alike : p.Alike (Matches hash) q :=
      begins.afterBy agree (Path.within_after within []) (fun _ => rfl) acts
    obtain ⟨next, reports, -⟩ :=
      alike.onEventBy (agree e) (Path.within_after within acts) rfl
    rw [Path.onEventBy_kept] at next reports
    exact ⟨alike, next, reports⟩

/-- Zeros, numbers that are none, and foreign values in one bucket, and groups by them in a path. -/
theorem KeySet.news_spec_one_bucket :
    let numbers : List Value := [.double ⟨0⟩, .double ⟨0x8000000000000000⟩,
      .double ⟨0x7ff8000000000000⟩, .foreign "x", .double ⟨0x7ff8000000000000⟩, .foreign "x"]
    let tree : Expr := .groupBy ⟨0, "n", .property "n"⟩ (.event .always)
    let event : Record := ⟨"", "", "", .epoch, [⟨"n", .foreign "x"⟩]⟩
    let p := (Path.start 1 none tree .empty).after [.event event]
    let q := (Path.start 1 none tree .empty).afterBy (.seeded fun _ _ => 0) [.event event]
    numbers[5]? = some (.foreign "x") ∧ (empty.news (fun _ => 0) numbers)[5]? = some true ∧
      (empty.news (fun _ => 0) numbers)[4]? = some false ∧
      tree.defect? = none ∧ (p.onEvent event).1.Alike (Matches fun _ _ => 0)
        (q.onEventBy (.seeded fun _ _ => 0) event).1 := by
  intro numbers tree event p q
  obtain ⟨listed, -, -, -, -, -, foreign, paths⟩ := news_spec
  refine ⟨by decide, foreign _ numbers 5 "x" (by decide), ?_, by decide, ?_⟩
  · rw [listed]
    decide
  · exact (paths tree (by decide) _ 1 none .empty [.event event] event).2.1

end TracePattern
