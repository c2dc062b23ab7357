import Mathlib.Data.List.Basic
import TracePattern.Proofs.Value.Plain

/-!
# The texts of symbols

A text is read from left to right, and a backslash quotes the character after it.  A text is that of
a symbol, or could be, if no backslash at its end is left with nothing to quote and at most one
point is not quoted.

* `Symbol.Glyph`, `Symbol.reading`: the characters of a text, quoted or not;
* `Symbol.shown`: the characters without the backslashes that quote;
* `Symbol.parts?_eq`: the parts of a text are what stands between its unquoted points;
* `Symbol.parse?_eq_some_iff`, `Symbol.isSome_parse?_iff`: the texts that are accepted, and what
  they stand for;
* `Symbol.text_exact`: symbols and their texts.
-/

namespace TracePattern

namespace Symbol

/-! ### Reading from left to right -/

/-- A character of a text, and whether a backslash quotes it. -/
structure Glyph where
  char : Char
  quoted : Bool
  deriving DecidableEq

/-- A point that stands between two parts. -/
def Glyph.point : Glyph := ⟨'.', false⟩

/-- A backslash that quotes the next character. -/
def Glyph.backslash : Glyph := ⟨'\\', false⟩

/-- The characters of a text. A backslash quotes the next character unless it is quoted itself. -/
def reading (cs : List Char) : List Glyph :=
  List.zipWith Glyph.mk cs (cs.scanl (fun quoted c => c = '\\' && !quoted) false)

/-- The characters without the backslashes that quote. -/
def shown (gs : List Glyph) : List Char := (gs.filter (· ≠ .backslash)).map Glyph.char

theorem reading_quoted (c : Char) (rest : List Char) :
    reading ('\\' :: c :: rest) = .backslash :: ⟨c, true⟩ :: reading rest := by
  simp [reading, Glyph.backslash]

theorem reading_plain {c : Char} (plain : c ≠ '\\') (rest : List Char) :
    reading (c :: rest) = ⟨c, false⟩ :: reading rest := by
  simp [reading, plain]

/-- A text does not end in a quoting backslash because of a glyph before its end. -/
theorem getLast?_cons_iff {g : Glyph} (h : g ≠ .backslash) (gs : List Glyph) :
    (g :: gs).getLast? = some .backslash ↔ gs.getLast? = some .backslash := by
  cases gs with
  | nil => simp [h]
  | cons g' gs => rw [List.getLast?_cons_cons]

/-! ### Parts -/

/-- What stands between the unquoted points. -/
def cut (gs : List Glyph) : List (List Char) := (gs.splitOn .point).map shown

theorem cut_point (gs : List Glyph) : cut (.point :: gs) = [] :: cut gs := by
  rw [cut, List.splitOn_cons_eq_if_modifyHead, if_pos (beq_self_eq_true _)]
  rfl

theorem cut_backslash (gs : List Glyph) : cut (.backslash :: gs) = cut gs := by
  rw [cut, List.splitOn_cons_eq_if_modifyHead, if_neg (by decide), cut]
  cases gs.splitOn .point with
  | nil => rfl
  | cons part more => simp [shown]

theorem cut_cons {g : Glyph} (point : g ≠ .point) (backslash : g ≠ .backslash) (gs : List Glyph) :
    ∃ part more, cut gs = part :: more ∧ cut (g :: gs) = (g.char :: part) :: more := by
  obtain ⟨part, more, parts⟩ := List.exists_cons_of_ne_nil (List.splitOn_ne_nil Glyph.point gs)
  refine ⟨shown part, more.map shown, by rw [cut, parts, List.map_cons], ?_⟩
  rw [cut, List.splitOn_cons_eq_if_modifyHead, if_neg (by simpa using point), parts]
  simp [shown, backslash]

/-- **The parts of a text are what stands between its unquoted points.** There are none if the text
ends in a backslash with nothing to quote. -/
theorem parts?_eq (cs : List Char) : parts? cs =
    if (reading cs).getLast? = some .backslash then none else some (cut (reading cs)) := by
  fun_induction parts? cs with
  | case1 => rfl
  | case2 => rfl
  | case3 c rest ih =>
    have glyph : (⟨c, true⟩ : Glyph) ≠ .backslash := by simp [Glyph.backslash]
    obtain ⟨part, more, inner, outer⟩ :=
      cut_cons (g := ⟨c, true⟩) (by simp [Glyph.point]) glyph (reading rest)
    rw [ih, reading_quoted, List.getLast?_cons_cons, cut_backslash, outer]
    by_cases dangling : (reading rest).getLast? = some .backslash
    · rw [if_pos dangling, if_pos ((getLast?_cons_iff glyph _).2 dangling), Option.map_none]
    · rw [if_neg dangling, if_neg (mt (getLast?_cons_iff glyph _).1 dangling), Option.map_some,
        inner]
  | case4 c rest last next ih =>
    have plain : c ≠ '\\' := by
      rintro rfl
      cases rest with
      | nil => exact last rfl rfl
      | cons d rest => exact next d rest rfl rfl
    have glyph : (⟨c, false⟩ : Glyph) ≠ .backslash := by simp [Glyph.backslash, plain]
    rw [ih, reading_plain plain]
    by_cases dangling : (reading rest).getLast? = some .backslash
    · rw [if_pos dangling, if_pos ((getLast?_cons_iff glyph _).2 dangling), Option.map_none]
    · rw [if_neg dangling, if_neg (mt (getLast?_cons_iff glyph _).1 dangling), Option.map_some]
      by_cases point : c = '.'
      · subst point
        rw [if_pos rfl, ← cut_point]
        rfl
      · obtain ⟨part, more, inner, outer⟩ :=
          cut_cons (g := ⟨c, false⟩) (by simp [Glyph.point, point]) glyph (reading rest)
        rw [if_neg point, inner, outer]

theorem cut_of_not_mem {gs : List Glyph} (none : .point ∉ gs) : cut gs = [shown gs] := by
  rw [cut, List.splitOn_eq_splitOnP, List.splitOnP_eq_singleton]
  · rfl
  · intro g mem
    exact beq_eq_false_iff_ne.2 fun same => none (same ▸ mem)

theorem cut_append_point {before : List Glyph} (none : .point ∉ before) (after : List Glyph) :
    cut (before ++ .point :: after) = shown before :: cut after := by
  have apart : ∀ g ∈ before, (g == .point) = false := by
    intro g mem
    exact beq_eq_false_iff_ne.2 fun same => none (same ▸ mem)
  rw [cut, List.splitOn_eq_splitOnP,
    List.splitOnP_append_cons_of_forall_mem apart _ (beq_self_eq_true _)]
  rfl

/-! ### Accepted texts -/

/-- The glyphs of a text stand for a symbol: there is no point and no name of an enumeration, or
there is one point between the name and the variant. -/
def Spells (gs : List Glyph) (s : Symbol) : Prop :=
  (.point ∉ gs ∧ s.typeName.toList = [] ∧ s.variant.toList = shown gs) ∨
    ∃ before after, gs = before ++ .point :: after ∧ .point ∉ before ∧ .point ∉ after ∧
      s.typeName.toList = shown before ∧ s.variant.toList = shown after

/-- There is no point, or one, or there are more. -/
theorem points_cases (gs : List Glyph) : .point ∉ gs ∨
    (∃ before after, gs = before ++ .point :: after ∧ .point ∉ before ∧ .point ∉ after) ∨
    ∃ before between after, gs = before ++ .point :: (between ++ .point :: after) ∧
      .point ∉ before ∧ .point ∉ between := by
  by_cases some : .point ∈ gs
  · obtain ⟨before, after, rfl, first⟩ := List.eq_append_cons_of_mem some
    by_cases more : .point ∈ after
    · obtain ⟨between, after, rfl, second⟩ := List.eq_append_cons_of_mem more
      exact .inr (.inr ⟨before, between, after, rfl, first, second⟩)
    · exact .inr (.inl ⟨before, after, rfl, first, more⟩)
  · exact .inl some

/-- What a symbol is made of depends on the number of points. -/
theorem Spells.cut {gs : List Glyph} {s : Symbol} (h : Spells gs s) :
    (cut gs = [s.variant.toList] ∧ s.typeName = "") ∨
      cut gs = [s.typeName.toList, s.variant.toList] := by
  rcases h with ⟨none, typeName, variant⟩ | ⟨before, after, rfl, first, last, typeName, variant⟩
  · refine .inl ⟨?_, String.toList_eq_nil_iff.1 typeName⟩
    rw [cut_of_not_mem none, variant]
  · refine .inr ?_
    rw [cut_append_point first, cut_of_not_mem last, typeName, variant]

/-- **A text is read as a symbol** if no backslash at its end is left with nothing to quote, and its
glyphs stand for the symbol. -/
theorem parse?_eq_some_iff {t : String} {s : Symbol} : parse? t = some s ↔
    (reading t.toList).getLast? ≠ some .backslash ∧ Spells (reading t.toList) s := by
  rw [parse?, parts?_eq]
  by_cases dangling : (reading t.toList).getLast? = some .backslash
  · simp [dangling]
  rw [if_neg dangling]
  generalize reading t.toList = gs at dangling
  constructor
  · intro read
    refine ⟨dangling, ?_⟩
    rcases points_cases gs with none | ⟨before, after, rfl, first, last⟩ |
      ⟨before, between, after, rfl, first, second⟩
    · rw [cut_of_not_mem none] at read
      cases read
      exact .inl ⟨none, rfl, String.toList_ofList⟩
    · rw [cut_append_point first, cut_of_not_mem last] at read
      cases read
      exact .inr ⟨before, after, rfl, first, last, String.toList_ofList, String.toList_ofList⟩
    · obtain ⟨part, more, rest⟩ : ∃ part more, cut after = part :: more := by
        refine List.exists_cons_of_ne_nil ?_
        rw [cut, Ne, List.map_eq_nil_iff]
        exact List.splitOn_ne_nil _ after
      rw [cut_append_point first, cut_append_point second, rest] at read
      cases read
  · rintro ⟨-, spells⟩
    rcases spells.cut with ⟨parts, typeName⟩ | parts
    · rw [parts]
      simp [← typeName]
    · rw [parts]
      simp

theorem count_point_le_one_iff (gs : List Glyph) : gs.count .point ≤ 1 ↔ ∃ s, Spells gs s := by
  constructor
  · intro few
    rcases points_cases gs with none | ⟨before, after, rfl, first, last⟩ |
      ⟨before, between, after, rfl, -, -⟩
    · exact ⟨⟨"", .ofList (shown gs)⟩, .inl ⟨none, rfl, String.toList_ofList⟩⟩
    · exact ⟨⟨.ofList (shown before), .ofList (shown after)⟩, .inr ⟨before, after, rfl, first, last,
        String.toList_ofList, String.toList_ofList⟩⟩
    · simp only [List.count_append, List.count_cons_self] at few
      omega
  · rintro ⟨s, ⟨none, -⟩ | ⟨before, after, rfl, first, last, -⟩⟩
    · simp [List.count_eq_zero_of_not_mem none]
    · simp [List.count_eq_zero_of_not_mem first, List.count_eq_zero_of_not_mem last]

theorem isSome_parse?_iff (t : String) : (parse? t).isSome ↔
    (reading t.toList).getLast? ≠ some .backslash ∧ (reading t.toList).count .point ≤ 1 := by
  rw [Option.isSome_iff_exists, count_point_le_one_iff, ← exists_and_left]
  exact exists_congr fun s => parse?_eq_some_iff

/-- **The texts of symbols are exact.** Every symbol is read back from its text, so that different
symbols have different texts. A text is accepted just if no backslash at its end is left with
nothing to quote and at most one point is not quoted. It stands for the name before that point,
which is empty if there is no such point, and the variant after it, both without the backslashes
that quote; and printing and reading again gives the same symbol. -/
theorem text_exact :
    (∀ s : Symbol, parse? s.text = some s) ∧ Function.Injective text ∧
    ∀ t : String,
      ((parse? t).isSome ↔
        (reading t.toList).getLast? ≠ some .backslash ∧ (reading t.toList).count .point ≤ 1) ∧
      (∀ s, parse? t = some s ↔
        (reading t.toList).getLast? ≠ some .backslash ∧ Spells (reading t.toList) s) ∧
      ((parse? t).bind fun s => parse? s.text) = parse? t := by
  refine ⟨parse?_text, ?injective, fun t => ⟨isSome_parse?_iff t, fun s => parse?_eq_some_iff, ?_⟩⟩
  case injective =>
    intro s s' same
    have read := congrArg parse? same
    rwa [parse?_text, parse?_text, Option.some.injEq] at read
  · cases parse? t with
    | none => rfl
    | some s => exact parse?_text s

/-- A quoted point, a quoted backslash in front of the point between the parts, and a letter that
needs no backslash. -/
example : parse? "a\\.b\\\\.\\c" = some ⟨"a.b\\", "c"⟩ := by decide

end Symbol

end TracePattern
