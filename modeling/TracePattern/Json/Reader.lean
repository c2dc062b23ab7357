import TracePattern.Uuid
import TracePattern.Json.Number

/-!
# Reading JSON

A text is cut into tokens, and the tokens drive a machine with a stack of open arrays and objects.

A literal may be well formed and stand for no value: a number that is too large, or a string with
half a surrogate pair.  Such a literal is read as `Json.unreadable`, so that whoever asks for its
value gets none.

* `Json.Token` and `Json.tokens?`: the tokens of a text;
* `Json.Machine`, `Json.Machine.step?`: the machine and its reaction to a token;
* `Json.read?`: the value of a text that holds one value and nothing else.
-/

namespace TracePattern.Json

/-- A token. -/
inductive Token
  | openArray
  | closeArray
  | openObject
  | closeObject
  | comma
  | colon
  /-- A string, or none if the literal has half a surrogate pair. -/
  | string (s : Option String)
  /-- Any other literal. -/
  | value (j : Json)
  deriving Repr

/-! ### Tokens -/

/-- The number of four hexadecimal digits. -/
def hex4? (a b c d : Char) : Option Nat := do
  let ns ← [a, b, c, d].mapM Uuid.hexValue?
  return ns.foldl (fun n d => 16 * n + d) 0

/-- The character of a single-letter escape. -/
def simpleEscape? (c : Char) : Option Char :=
  if c = '"' ∨ c = '\\' ∨ c = '/' then some c
  else if c = 'b' then some (Char.ofNat 8)
  else if c = 'f' then some (Char.ofNat 12)
  else if c = 'n' then some '\n'
  else if c = 'r' then some '\r'
  else if c = 't' then some '\t'
  else none

/-- The character of an escape, which stands after a backslash, and what follows. An escape of a
high surrogate makes a character with one of a low surrogate behind it; there is no character for
a surrogate alone. -/
def readEscape? : List Char → Option (Option Char × List Char)
  | 'u' :: a :: b :: c :: d :: rest => do
    let n ← hex4? a b c d
    if 0xD800 ≤ n ∧ n < 0xDC00 then
      match rest with
      | '\\' :: 'u' :: e :: f :: g :: h :: rest =>
        let m ← hex4? e f g h
        if 0xDC00 ≤ m ∧ m < 0xE000 then
          return (some (Char.ofNat (0x10000 + (n - 0xD800) * 0x400 + (m - 0xDC00))), rest)
        else return (none, '\\' :: 'u' :: e :: f :: g :: h :: rest)
      | rest => return (none, rest)
    else if 0xDC00 ≤ n ∧ n < 0xE000 then return (none, rest)
    else return (some (Char.ofNat n), rest)
  | c :: rest => (simpleEscape? c).map fun c => (some c, rest)
  | [] => none

theorem length_readEscape? {cs : List Char} {r : Option Char × List Char}
    (h : readEscape? cs = some r) : r.2.length < cs.length := by
  unfold readEscape? at h
  split at h
  · rename_i a b c d rest
    cases hn : hex4? a b c d with
    | none => simp [hn] at h
    | some n =>
      simp only [hn, Option.pure_def, Option.bind_eq_bind, Option.bind_some] at h
      split at h
      · split at h
        · rename_i e f g i rest'
          cases hm : hex4? e f g i with
          | none => simp [hm] at h
          | some m =>
            simp only [hm, Option.bind_some] at h
            split at h <;> obtain rfl := Option.some.inj h <;> simp only [List.length_cons] <;>
              omega
        · obtain rfl := Option.some.inj h
          simp only [List.length_cons]
          omega
      · split at h <;> obtain rfl := Option.some.inj h <;> simp only [List.length_cons] <;> omega
  · obtain ⟨c, -, rfl⟩ := Option.map_eq_some_iff.1 h
    simp
  · simp at h

/-- A string literal after its opening quote: its characters, unless one of them is missing, and
what follows the closing quote. -/
def readString? (cs : List Char) : Option (Option (List Char) × List Char) :=
  match cs with
  | [] => none
  | '"' :: rest => some (some [], rest)
  | '\\' :: rest =>
    match h : readEscape? rest with
    | none => none
    | some (c, left) =>
      have := length_readEscape? h
      (readString? left).map fun r => (c.bind fun c => r.1.map (c :: ·), r.2)
  | c :: rest =>
    if c.toNat < 32 then none else (readString? rest).map fun r => (r.1.map (c :: ·), r.2)
termination_by cs.length
decreasing_by all_goals simp_all only [List.length_cons]; omega

theorem length_readString? {cs : List Char} {r : Option (List Char) × List Char}
    (h : readString? cs = some r) : r.2.length < cs.length := by
  fun_induction readString? cs generalizing r with
  | case1 => simp at h
  | case2 rest => obtain rfl := Option.some.inj h; simp
  | case3 => simp at h
  | case4 rest c left hc hlt ih =>
    obtain ⟨r', hr, rfl⟩ := Option.map_eq_some_iff.1 h
    have := ih hr
    simp only [List.length_cons] at *
    omega
  | case5 => simp at h
  | case6 c rest _ _ _ ih =>
    obtain ⟨r', hr, rfl⟩ := Option.map_eq_some_iff.1 h
    have := ih hr
    simp only [List.length_cons] at *
    omega

/-- An exponent part: nothing if there is none, and no answer if it is broken off. -/
def readExponent? (cs : List Char) : Option (Option Int × List Char) :=
  match cs with
  | e :: rest =>
    if e = 'e' ∨ e = 'E' then
      let ds := Digits.take (Digits.sign rest).2
      let n : Int := Digits.toNat ds.1
      if ds.1 = [] then none else some (some (if (Digits.sign rest).1 then -n else n), ds.2)
    else some (none, cs)
  | [] => some (none, [])

/-- A fraction: nothing without a point, and at least one digit after one. -/
def readFraction? (cs : List Char) : Option (Option (List Char) × List Char) :=
  match cs with
  | '.' :: rest =>
    let ds := Digits.take rest
    if ds.1 = [] then none else some (some ds.1, ds.2)
  | cs => some (none, cs)

/-- The digits before the point. A leading zero stands alone. -/
def readWhole : List Char → List Char × List Char
  | '0' :: rest => (['0'], rest)
  | cs => Digits.take cs

/-- A number literal without its sign. -/
def readLiteral? (negative : Bool) (cs : List Char) : Option (Literal × List Char) :=
  if (readWhole cs).1 = [] then none
  else
    (readFraction? (readWhole cs).2).bind fun fraction =>
      (readExponent? fraction.2).bind fun exponent =>
        some (⟨negative, (readWhole cs).1, fraction.1, exponent.1⟩, exponent.2)

/-- The value of a number literal. -/
def ofLiteral (l : Literal) : Json :=
  match l.number? with
  | some n => .number n
  | none => .unreadable

/-- A number without its sign. -/
def readNumber? (negative : Bool) (cs : List Char) : Option (Token × List Char) :=
  (readLiteral? negative cs).map fun r => (.value (ofLiteral r.1), r.2)

/-- The token at the front of a text that starts with `c`, and what follows it. -/
def token? (c : Char) (rest : List Char) : Option (Token × List Char) :=
  match c with
  | '[' => some (.openArray, rest)
  | ']' => some (.closeArray, rest)
  | '{' => some (.openObject, rest)
  | '}' => some (.closeObject, rest)
  | ',' => some (.comma, rest)
  | ':' => some (.colon, rest)
  | '"' => (readString? rest).map fun r => (.string (r.1.map String.ofList), r.2)
  | 'n' => if rest.take 3 = "ull".toList then some (.value .null, rest.drop 3) else none
  | 't' => if rest.take 3 = "rue".toList then some (.value (.bool true), rest.drop 3) else none
  | 'f' => if rest.take 4 = "alse".toList then some (.value (.bool false), rest.drop 4) else none
  | '-' => readNumber? true rest
  | c => if c.isDigit then readNumber? false (c :: rest) else none

/-! Each of these readers leaves a text that is no longer than what it was given. -/

theorem length_readExponent? {cs : List Char} {r : Option Int × List Char}
    (h : readExponent? cs = some r) : r.2.length ≤ cs.length := by
  unfold readExponent? at h
  split at h
  · rename_i e rest
    split at h
    · dsimp only at h
      split at h
      · simp at h
      · obtain rfl := Option.some.inj h
        exact Nat.le_succ_of_le (Nat.le_trans (Digits.length_take _) (Digits.length_sign rest))
    · obtain rfl := Option.some.inj h
      simp
  · obtain rfl := Option.some.inj h
    simp

theorem length_readFraction? {cs : List Char} {r : Option (List Char) × List Char}
    (h : readFraction? cs = some r) : r.2.length ≤ cs.length := by
  unfold readFraction? at h
  split at h
  · dsimp only at h
    split at h
    · simp at h
    · obtain rfl := Option.some.inj h
      exact Nat.le_succ_of_le (Digits.length_take _)
  · obtain rfl := Option.some.inj h
    exact Nat.le_refl _

theorem length_readLiteral? {negative : Bool} {cs : List Char} {r : Literal × List Char}
    (h : readLiteral? negative cs = some r) : r.2.length < cs.length := by
  unfold readLiteral? at h
  split at h
  · simp at h
  · rename_i hne
    have hwhole : (readWhole cs).2.length < cs.length := by
      unfold readWhole at hne ⊢
      split
      · simp
      · rename_i hz
        split at hne
        · exact absurd rfl (hz _)
        · exact Digits.length_take_lt hne
    obtain ⟨f, hf, h⟩ := Option.bind_eq_some_iff.1 h
    obtain ⟨e, he, h⟩ := Option.bind_eq_some_iff.1 h
    obtain rfl := Option.some.inj h
    exact Nat.lt_of_le_of_lt
      (Nat.le_trans (length_readExponent? he) (length_readFraction? hf)) hwhole

theorem length_readNumber? {negative : Bool} {cs : List Char} {r : Token × List Char}
    (h : readNumber? negative cs = some r) : r.2.length < cs.length := by
  obtain ⟨l, hl, rfl⟩ := Option.map_eq_some_iff.1 h
  exact length_readLiteral? hl

theorem length_token? {c : Char} {rest : List Char} {r : Token × List Char}
    (h : token? c rest = some r) : r.2.length ≤ rest.length := by
  unfold token? at h
  split at h
  all_goals try (obtain rfl := Option.some.inj h; exact Nat.le_refl _)
  · obtain ⟨r', hr, rfl⟩ := Option.map_eq_some_iff.1 h
    exact Nat.le_of_lt (length_readString? hr)
  · split at h
    · obtain rfl := Option.some.inj h
      simp
    · simp at h
  · split at h
    · obtain rfl := Option.some.inj h
      simp
    · simp at h
  · split at h
    · obtain rfl := Option.some.inj h
      simp
    · simp at h
  · exact Nat.le_of_lt (length_readNumber? h)
  · split at h
    · exact Nat.le_of_lt_succ (length_readNumber? h)
    · simp at h

/-- White space between tokens. -/
def isSpace (c : Char) : Bool := c = ' ' || c = '\n' || c = '\t' || c = '\r'

/-- The tokens of a text. -/
def tokens? (cs : List Char) : Option (List Token) :=
  match cs with
  | [] => some []
  | c :: rest =>
    if isSpace c then tokens? rest
    else
      match h : token? c rest with
      | none => none
      | some (t, left) =>
        have := length_token? h
        (tokens? left).map (t :: ·)
termination_by cs.length
decreasing_by all_goals simp_all only [List.length_cons]; omega

/-! ### The machine -/

/-- The fields of an object so far, in reverse; none once a key of them has no text. -/
abbrev Fields := Option (List (String × Json))

/-- The fields with one more. -/
def Fields.add (fields : Fields) (key : Option String) (j : Json) : Fields :=
  key.bind fun key => fields.map ((key, j) :: ·)

/-- The object of the fields. -/
def Fields.close : Fields → Json
  | some fields => .object fields.reverse
  | none => .unreadable

/-- The value of a string literal. -/
def ofText : Option String → Json
  | some s => .string s
  | none => .unreadable

/-- An array or object that is still open, with what it holds so far in reverse. -/
inductive Open
  | array (items : List Json)
  /-- The value of the field `key` is awaited. -/
  | object (fields : Fields) (key : Option String)

/-- What the machine awaits. -/
inductive Awaited
  | value
  /-- The first item of an array, or its end. -/
  | firstItem
  /-- A key; `first` if the object may also end. -/
  | key (fields : Fields) (first : Bool)
  | colon (fields : Fields) (key : Option String)
  /-- A value is complete; a comma or the end of what encloses it may follow. -/
  | rest (j : Json)

/-- The machine: what encloses the current place, innermost first, and what must come. -/
structure Machine where
  stack : List Open
  awaited : Awaited

/-- The machine at the start of a text. -/
def Machine.start : Machine := ⟨[], .value⟩

/-- A token where a value is awaited. -/
def Machine.beginValue? (stack : List Open) : Token → Option Machine
  | .value j => some ⟨stack, .rest j⟩
  | .string s => some ⟨stack, .rest (ofText s)⟩
  | .openArray => some ⟨.array [] :: stack, .firstItem⟩
  | .openObject => some ⟨stack, .key (some []) true⟩
  | _ => none

/-- The reaction to a token. -/
def Machine.step? (m : Machine) (t : Token) : Option Machine :=
  match m.awaited, t with
  | .value, t => beginValue? m.stack t
  | .firstItem, .closeArray =>
    match m.stack with
    | .array items :: stack => some ⟨stack, .rest (.array items.reverse)⟩
    | _ => none
  | .firstItem, t => beginValue? m.stack t
  | .key fields _, .string key => some ⟨m.stack, .colon fields key⟩
  | .key fields true, .closeObject => some ⟨m.stack, .rest fields.close⟩
  | .colon fields key, .colon => some ⟨.object fields key :: m.stack, .value⟩
  | .rest j, .comma =>
    match m.stack with
    | .array items :: stack => some ⟨.array (j :: items) :: stack, .value⟩
    | .object fields key :: stack => some ⟨stack, .key (fields.add key j) false⟩
    | [] => none
  | .rest j, .closeArray =>
    match m.stack with
    | .array items :: stack => some ⟨stack, .rest (.array (j :: items).reverse)⟩
    | _ => none
  | .rest j, .closeObject =>
    match m.stack with
    | .object fields key :: stack => some ⟨stack, .rest (fields.add key j).close⟩
    | _ => none
  | _, _ => none

/-- The value, if one is complete and nothing is open. -/
def Machine.result? (m : Machine) : Option Json :=
  match m.stack, m.awaited with
  | [], .rest j => some j
  | _, _ => none

/-- The value of a text that holds one value and nothing else but white space. -/
def read? (s : String) : Option Json := do
  let ts ← tokens? s.toList
  let m ← ts.foldlM Machine.step? Machine.start
  m.result?

end TracePattern.Json
