import TracePattern.Proofs.Value.RoundTrip
import TracePattern.Wire

/-!
# Records read back from the wire form

The wire form keeps the whole record: its identity, its timestamp, and all properties with their
names, kinds and values in order.  A record is read back from it just if the timestamp and every
value are read back from their texts.

* `Record.Restorable`: the records that are read back;
* `Property.ofWire_toWire_iff`, `Record.ofWire_toWire_iff`: they are all;
* `Record.InRange`, `Record.TimesReadBack`: records in the ranges of the text forms, whose times are
  read back from theirs;
* `Record.lossless_toWire`: what is read back of them, and when it is equal to the first record.
-/

namespace TracePattern

theorem Tag.parse_name (t : Tag) : Tag.parse t.name = .ok t := by
  rw [Tag.parse, Tag.ofName?_name]

namespace Property

/-- A triple is read as the name with the value of its tag and its text. -/
theorem ofWire_toWire (p : Property) :
    ofWire p.toWire = (Value.parse p.value.tag p.value.text).map fun v => ⟨p.name, v⟩ := by
  show (do
    let tag ← Tag.parse p.value.tag.name
    let value ← Value.parse tag p.value.text
    return Property.mk p.name value) = _
  rw [Tag.parse_name]
  cases read : Value.parse p.value.tag p.value.text <;> simp [bind, Except.bind, read] <;> rfl

/-- **A property is read back from its triple** just if its value is restorable. -/
theorem ofWire_toWire_iff (p : Property) : ofWire p.toWire = .ok p ↔ p.value.Restorable := by
  rw [ofWire_toWire, ← Value.parse_text_iff]
  cases Value.parse p.value.tag p.value.text with
  | error e => simp [Except.map]
  | ok v =>
    obtain ⟨name, value⟩ := p
    simp [Except.map]

end Property

namespace Record

/-- The texts of the timestamp and of all values show all of them. -/
structure Restorable (r : Record) : Prop where
  timestamp : r.timestamp.Writable
  values : ∀ p ∈ r.properties, p.value.Restorable

theorem equalProperties_self {ps : List Property} (known : ∀ p ∈ ps, p.value.tag ≠ .foreign) :
    equalProperties ps ps = true := by
  induction ps with
  | nil => rfl
  | cons p ps ih =>
    have here : p.value.equal p.value = true :=
      Value.equal_iff.2 ⟨known p (List.mem_cons_self ..), rfl⟩
    have there := ih fun q mem => known q (List.mem_cons_of_mem _ mem)
    simp [equalProperties, Property.equal, here, there]

/-- A record equals itself unless it has a foreign value. -/
theorem equal_self {r : Record} (known : ∀ p ∈ r.properties, p.value.tag ≠ .foreign) :
    r.equal r = true := by
  simp [equal, equalProperties_self known]

/-- All triples are read in order. -/
theorem mapM_ofWire_iff (ps : List Property) :
    (ps.map Property.toWire).mapM Property.ofWire = .ok ps ↔ ∀ p ∈ ps, p.value.Restorable := by
  induction ps with
  | nil => simp [Pure.pure, Except.pure]
  | cons p ps ih =>
    rw [List.forall_mem_cons, ← ih, ← Property.ofWire_toWire_iff, List.map_cons, List.mapM_cons]
    cases Property.ofWire p.toWire with
    | error e => simp [bind, Except.bind]
    | ok q =>
      cases (ps.map Property.toWire).mapM Property.ofWire with
      | error e => simp [bind, Except.bind]
      | ok qs => simp [bind, Except.bind, Pure.pure, Except.pure]

theorem wireTimestamp_iff (i : Instant) : wireTimestamp i.text = .ok i ↔ i.Writable := by
  rw [← Instant.readBack_iff, Instant.ReadBack, wireTimestamp]
  cases Zoned.read? i.text <;> simp

/-- The fields of the object are found by their names. -/
theorem ofWire_eq (r : Record) : ofWire r.toWire =
    (do
      let timestamp ← wireTimestamp r.timestamp.text
      let properties ← (r.properties.map Property.toWire).mapM Property.ofWire
      return ⟨r.provider, r.scope, r.message, timestamp, properties⟩) := by
  have timestamp : wireField r.toWire "timestamp" = .ok r.timestamp.text := by
    simp [wireField, toWire, Json.get?, Json.string?]
  have properties : (r.toWire.get? "properties").bind Json.array? =
      some (r.properties.map Property.toWire) := by
    simp [toWire, Json.get?, Json.array?]
  have provider : wireField r.toWire "provider" = .ok r.provider := by
    simp [wireField, toWire, Json.get?, Json.string?]
  have scope : wireField r.toWire "scope" = .ok r.scope := by
    simp [wireField, toWire, Json.get?, Json.string?]
  have message : wireField r.toWire "message" = .ok r.message := by
    simp [wireField, toWire, Json.get?, Json.string?]
  simp only [ofWire, timestamp, properties, provider, scope, message, bind, Except.bind]

/-- **A record is read back from the wire form** just if its timestamp and its values are. -/
theorem ofWire_toWire_iff (r : Record) : ofWire r.toWire = .ok r ↔ r.Restorable := by
  have split : r.Restorable ↔ r.timestamp.Writable ∧ ∀ p ∈ r.properties, p.value.Restorable :=
    ⟨fun h => ⟨h.timestamp, h.values⟩, fun h => ⟨h.1, h.2⟩⟩
  rw [split, ← wireTimestamp_iff, ← mapM_ofWire_iff, ofWire_eq]
  cases wireTimestamp r.timestamp.text with
  | error e => simp [bind, Except.bind]
  | ok t =>
    cases (r.properties.map Property.toWire).mapM Property.ofWire with
    | error e => simp [bind, Except.bind]
    | ok ps =>
      obtain ⟨provider, scope, message, timestamp, properties⟩ := r
      simp [bind, Except.bind, Pure.pure, Except.pure]

/-- The timestamp and the values are in the ranges of their text forms. -/
structure InRange (r : Record) : Prop where
  timestamp : 0 ≤ r.timestamp.year ∧ r.timestamp.year ≤ 9999
  values : ∀ p ∈ r.properties, p.value.InRange

/-- The timestamp and the times among the values are read back from their texts. -/
structure TimesReadBack (r : Record) : Prop where
  timestamp : r.timestamp.ReadBack
  values : ∀ p ∈ r.properties, p.value.TimeReadBack

theorem restorable_of_inRange {r : Record} (inRange : r.InRange) (times : r.TimesReadBack) :
    r.Restorable where
  timestamp := r.timestamp.readBack_iff.1 times.timestamp
  values p mem := Value.restorable_of_inRange (inRange.values p mem) (times.values p mem)

/-- **The wire form is lossless** in the ranges of the text forms, as far as these give back times:
it gives back the same identity and timestamp, and the same names and values in order, foreign
values with their texts among them.  Without foreign values the record that is read equals the first
one.

By `Instant.readBack_iff_regular` the times that are not given back in these ranges are those with a
fraction of a second or more at another second than the last of a minute. -/
theorem lossless_toWire {r : Record} (inRange : r.InRange) (times : r.TimesReadBack) :
    ofWire r.toWire = .ok r ∧
      ((∀ p ∈ r.properties, p.value.tag ≠ .foreign) → r.equal r = true) :=
  ⟨(ofWire_toWire_iff r).2 (restorable_of_inRange inRange times), equal_self⟩

/-- A record of the leap second at the end of 2016, with empty and repeated names, quoted points and
texts that look like others. -/
def leapSecond : Record where
  provider := ""
  scope := "null"
  message := "a.b\\"
  timestamp := ⟨1483228799, 1500000000⟩
  properties := [⟨"", .symbol ⟨"a.b", "\\."⟩⟩, ⟨"n", .string "enum"⟩, ⟨"n", .double .nan⟩,
    ⟨"", .zoned ⟨⟨1483228799, 1000000001⟩, -19800⟩⟩, ⟨"timestamp", .null⟩]

theorem lossless_toWire_leapSecond :
    leapSecond.InRange ∧ leapSecond.TimesReadBack ∧ ofWire leapSecond.toWire = .ok leapSecond ∧
      leapSecond.equal leapSecond = true := by
  have inRange : leapSecond.InRange := by
    refine ⟨by decide, ?_⟩
    have year : 0 ≤ (Zoned.clock ⟨⟨1483228799, 1000000001⟩, -19800⟩).date.year ∧
        (Zoned.clock ⟨⟨1483228799, 1000000001⟩, -19800⟩).date.year ≤ 9999 := by decide
    simp [leapSecond, Value.InRange, year]
  have times : leapSecond.TimesReadBack := by
    refine ⟨(Instant.readBack_iff_regular inRange.timestamp).2 (by decide), ?_⟩
    have zoned : Zoned.ReadBack ⟨⟨1483228799, 1000000001⟩, -19800⟩ :=
      (Zoned.readBack_iff _).2 ⟨by decide, by decide, by decide, by decide⟩
    simp [leapSecond, Value.TimeReadBack, zoned]
  have known : ∀ p ∈ leapSecond.properties, p.value.tag ≠ .foreign := by decide
  have lossless := lossless_toWire inRange times
  exact ⟨inRange, times, lossless.1, lossless.2 known⟩

end Record

end TracePattern
