import TracePattern.Value.Basic

/-!
# Equality of values

* `Value.Same`: equality, kind by kind;
* `Value.equal_iff_same`: it is the equality of values;
* `Value.equal_comm`, `Value.equal_trans`, `Value.equal_self`: an equivalence of the values that are
  not foreign.
-/

namespace TracePattern

namespace Value

/-- Two values of one kind with the same content. Floating-point numbers are compared by their bits,
so that a not-a-number is the same as itself and the two zeros differ. Instants are compared by the
second and the fraction, which is a second or more in a leap second, and local times by the offset
too. No foreign value is the same as another, or as itself. -/
inductive Same : Value → Value → Prop
  | null : Same .null .null
  | string (s : String) : Same (.string s) (.string s)
  | integer (n : Int64) : Same (.integer n) (.integer n)
  | boolean (b : Bool) : Same (.boolean b) (.boolean b)
  | symbol {s t : Symbol} (typeName : s.typeName = t.typeName) (variant : s.variant = t.variant) :
    Same (.symbol s) (.symbol t)
  | severity (v : Severity) : Same (.severity v) (.severity v)
  | double {d e : Double} (bits : d.bits = e.bits) : Same (.double d) (.double e)
  | timestamp {t u : Instant} (seconds : t.seconds = u.seconds) (nanos : t.nanos = u.nanos) :
    Same (.timestamp t) (.timestamp u)
  | zoned {t u : Zoned} (seconds : t.instant.seconds = u.instant.seconds)
    (nanos : t.instant.nanos = u.instant.nanos) (offset : t.offset = u.offset) :
    Same (.zoned t) (.zoned u)
  | uuid {u v : Uuid} (bits : u.bits = v.bits) : Same (.uuid u) (.uuid v)

variable {a b c : Value}

theorem Same.eq (h : a.Same b) : a = b := by
  cases h with
  | @symbol s t typeName variant =>
    obtain ⟨_, _⟩ := s
    obtain ⟨_, _⟩ := t
    cases typeName
    cases variant
    rfl
  | @double d e bits =>
    obtain ⟨_⟩ := d
    obtain ⟨_⟩ := e
    cases bits
    rfl
  | @timestamp t u seconds nanos =>
    obtain ⟨_, _⟩ := t
    obtain ⟨_, _⟩ := u
    cases seconds
    cases nanos
    rfl
  | @zoned t u seconds nanos offset =>
    obtain ⟨⟨_, _⟩, _⟩ := t
    obtain ⟨⟨_, _⟩, _⟩ := u
    cases seconds
    cases nanos
    cases offset
    rfl
  | @uuid u v bits =>
    obtain ⟨_⟩ := u
    obtain ⟨_⟩ := v
    cases bits
    rfl
  | _ => rfl

/-- A value is the same as itself unless it is foreign. -/
theorem same_self_iff : a.Same a ↔ a.tag ≠ .foreign := by
  constructor
  · rintro h foreign
    cases h <;> cases foreign
  · intro known
    cases a with
    | foreign text => exact absurd rfl known
    | symbol s => exact .symbol rfl rfl
    | double d => exact .double rfl
    | timestamp t => exact .timestamp rfl rfl
    | zoned t => exact .zoned rfl rfl rfl
    | uuid u => exact .uuid rfl
    | _ => constructor

/-- **The equality of values compares them kind by kind.** -/
theorem equal_iff_same : a.equal b = true ↔ a.Same b := by
  rw [equal_iff]
  constructor
  · rintro ⟨known, rfl⟩
    exact same_self_iff.2 known
  · intro h
    obtain rfl := h.eq
    exact ⟨same_self_iff.1 h, rfl⟩

theorem equal_self : a.equal a = true ↔ a.tag ≠ .foreign := equal_iff_same.trans same_self_iff

theorem equal_trans (h : a.equal b = true) (h' : b.equal c = true) : a.equal c = true :=
  (equal_iff.1 h).2 ▸ h'

theorem equal_comm (a b : Value) : a.equal b = b.equal a := by
  rw [Bool.eq_iff_iff, equal_iff, equal_iff]
  constructor <;> rintro ⟨known, rfl⟩ <;> exact ⟨known, rfl⟩

end Value

end TracePattern
