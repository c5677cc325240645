/-
  The tokens of JSON text.

  Only space, tab, line feed and carriage return separate tokens.  A number has no leading zero (`01`
  is two tokens, and two values side by side are no JSON), no plus sign, and digits on both sides of
  its point.  A string holds no control characters, and its escapes are the eight single-letter ones
  and `\u` with four hexadecimal digits, two of which may form a surrogate pair.
-/
import QubitBasic.Json.Basic
import QubitBasic.Text.Blank

namespace QubitBasic.Json

open Text

/-- A token of JSON text. -/
inductive Token where
  | openArray
  | closeArray
  | openObject
  | closeObject
  | colon
  | comma
  | text (s : Option String)
  /-- A word or number, which is a value by itself. -/
  | scalar (json : Json)

namespace Token

/-! ## Strings -/

/-- The value of a hexadecimal digit. -/
def hexDigit? (c : Char) : Option Nat :=
  if c.isDigit then some (c.toNat - '0'.toNat)
  else if 'a' ≤ c ∧ c ≤ 'f' then some (c.toNat - 'a'.toNat + 10)
  else if 'A' ≤ c ∧ c ≤ 'F' then some (c.toNat - 'A'.toNat + 10)
  else none

/-- The value of four hexadecimal digits. -/
def hexUnit? (a b c d : Char) : Option Nat := do
  return (((← hexDigit? a) * 16 + (← hexDigit? b)) * 16 + (← hexDigit? c)) * 16 + (← hexDigit? d)

/-- The character that a letter after a backslash stands for. -/
def unescape? (c : Char) : Option Char :=
  if c = '"' ∨ c = '\\' ∨ c = '/' then some c
  else if c = 'b' then some (Char.ofNat 0x08)
  else if c = 'f' then some (Char.ofNat 0x0C)
  else if c = 'n' then some '\n'
  else if c = 'r' then some '\r'
  else if c = 't' then some '\t'
  else none

/-- The first half of a surrogate pair. -/
def isHighSurrogate (n : Nat) : Bool := 0xD800 ≤ n && n < 0xDC00

/-- The second half of a surrogate pair. -/
def isLowSurrogate (n : Nat) : Bool := 0xDC00 ≤ n && n < 0xE000

/-- The character that a surrogate pair stands for. -/
def ofSurrogates (high low : Nat) : Char :=
  Char.ofNat (0x10000 + (high - 0xD800) * 0x400 + (low - 0xDC00))

/-- The unit of the escape `\uXXXX` at the start of a text, and what follows it. -/
def unitEscape? : List Char → Option (Nat × List Char)
  | backslash :: u :: a :: b :: c :: d :: rest =>
    if backslash = '\\' ∧ u = 'u' then (hexUnit? a b c d).map (·, rest) else none
  | _ => none

/-- The character at the start of a string's text and what follows it; the character is `none` if
    it is half a surrogate pair. -/
def character? : List Char → Option (Option Char × List Char)
  | [] => none
  | c :: cs =>
    if c.toNat < 0x20 then none
    else if c ≠ '\\' then some (some c, cs)
    else match unitEscape? (c :: cs) with
      | some (unit, rest) =>
        if isHighSurrogate unit then
          match unitEscape? rest with
          | some (low, rest') =>
            if isLowSurrogate low then some (some (ofSurrogates unit low), rest')
            else some (none, rest)
          | none => some (none, rest)
        else if isLowSurrogate unit then some (none, rest)
        else some (some (Char.ofNat unit), rest)
      | none =>
        match cs with
        | [] => none
        | letter :: rest => (unescape? letter).map (some ·, rest)

theorem length_unitEscape?_lt {cs rest : List Char} {unit : Nat}
    (h : unitEscape? cs = some (unit, rest)) : rest.length < cs.length := by
  unfold unitEscape? at h
  split at h
  · split at h
    · obtain ⟨_, -, heq⟩ := Option.map_eq_some_iff.1 h
      obtain ⟨-, rfl⟩ := Prod.mk.inj heq
      simp only [List.length_cons]
      omega
    · simp at h
  · simp at h

theorem length_character?_lt {cs rest : List Char} {c : Option Char}
    (h : character? cs = some (c, rest)) : rest.length < cs.length := by
  unfold character? at h
  split at h
  · simp at h
  · rename_i c' cs'
    split at h
    · simp at h
    split at h
    · obtain ⟨-, rfl⟩ : _ ∧ cs' = rest := by simpa using h
      simp
    split at h
    · rename_i unit rest' hunit
      have hlt := length_unitEscape?_lt hunit
      split at h
      · split at h
        · rename_i low rest'' hlow
          have hlt' := length_unitEscape?_lt hlow
          split at h
          · obtain ⟨-, rfl⟩ : _ ∧ rest'' = rest := by simpa using h
            omega
          · obtain ⟨-, rfl⟩ : _ ∧ rest' = rest := by simpa using h
            exact hlt
        · obtain ⟨-, rfl⟩ : _ ∧ rest' = rest := by simpa using h
          exact hlt
      · split at h
        · obtain ⟨-, rfl⟩ : _ ∧ rest' = rest := by simpa using h
          exact hlt
        · obtain ⟨-, rfl⟩ : _ ∧ rest' = rest := by simpa using h
          exact hlt
    · split at h
      · simp at h
      · rename_i letter rest'
        obtain ⟨_, -, heq⟩ := Option.map_eq_some_iff.1 h
        obtain ⟨-, rfl⟩ := Prod.mk.inj heq
        simp only [List.length_cons]
        omega

/-- The text up to the closing quote and what follows it; the text is `none` if it holds half a
    surrogate pair. -/
def string? (cs : List Char) : Option (Option (List Char) × List Char) :=
  match cs with
  | [] => none
  | c :: rest =>
    if c = '"' then some (some [], rest)
    else match h : character? (c :: rest) with
      | none => none
      | some (first, others) =>
        have := length_character?_lt h
        (string? others).map fun (tail, after) => ((do return (← first) :: (← tail)), after)
termination_by cs.length
decreasing_by exact this

theorem length_string?_lt {cs rest : List Char} {chars : Option (List Char)}
    (h : string? cs = some (chars, rest)) : rest.length < cs.length := by
  fun_induction string? cs generalizing chars with
  | case1 => simp at h
  | case2 cs' =>
    obtain ⟨-, rfl⟩ : _ ∧ cs' = rest := by simpa using h
    simp
  | case3 => simp at h
  | case4 c cs' hc first others hchar hlt ih =>
    obtain ⟨⟨tail, after⟩, hstring, heq⟩ := Option.map_eq_some_iff.1 h
    obtain ⟨-, rfl⟩ := Prod.mk.inj heq
    exact Nat.lt_trans (ih hstring) hlt

/-! ## Numbers -/

/-- The digits at the start of `cs`, at least one, and what follows them. -/
def digits? (cs : List Char) : Option (List Char × List Char) :=
  if (cs.takeWhile Char.isDigit).isEmpty then none
  else some (cs.takeWhile Char.isDigit, cs.dropWhile Char.isDigit)

theorem length_digits?_lt {cs ds rest : List Char} (h : digits? cs = some (ds, rest)) :
    rest.length < cs.length := by
  unfold digits? at h
  split at h
  · simp at h
  · rename_i hne
    obtain ⟨-, rfl⟩ : _ ∧ cs.dropWhile Char.isDigit = rest := by simpa using h
    have hlen := congrArg List.length (List.takeWhile_append_dropWhile (p := Char.isDigit) (l := cs))
    have hpos : 0 < (cs.takeWhile Char.isDigit).length :=
      List.length_pos_iff.2 fun hnil => hne (by simp [hnil])
    rw [List.length_append] at hlen
    omega

/-- The whole part at the start of `cs`, which has no leading zero, and what follows it. -/
def whole? : List Char → Option (List Char × List Char)
  | [] => none
  | c :: cs => if c = '0' then some (['0'], cs) else digits? (c :: cs)

theorem length_whole?_lt {cs ds rest : List Char} (h : whole? cs = some (ds, rest)) :
    rest.length < cs.length := by
  unfold whole? at h
  split at h
  · simp at h
  · split at h
    · obtain ⟨-, rfl⟩ := Prod.mk.inj (Option.some.inj h)
      simp
    · exact length_digits?_lt h

/-- The fraction at the start of `cs` with its point, if there is one, and what follows it. -/
def fraction? : List Char → Option (List Char × List Char)
  | [] => some ([], [])
  | c :: cs =>
    if c = '.' then (digits? cs).map fun (ds, rest) => (c :: ds, rest) else some ([], c :: cs)

theorem length_fraction?_le {cs ds rest : List Char} (h : fraction? cs = some (ds, rest)) :
    rest.length ≤ cs.length := by
  unfold fraction? at h
  split at h
  · obtain ⟨-, rfl⟩ := Prod.mk.inj (Option.some.inj h)
    simp
  · split at h
    · obtain ⟨⟨ds', rest'⟩, hdigits, heq⟩ := Option.map_eq_some_iff.1 h
      obtain ⟨-, rfl⟩ := Prod.mk.inj heq
      exact Nat.le_of_lt (Nat.lt_succ_of_lt (length_digits?_lt hdigits))
    · obtain ⟨-, rfl⟩ := Prod.mk.inj (Option.some.inj h)
      simp

/-- The exponent at the start of `cs`, if there is one, and what follows it. -/
def exponent? : List Char → Option (List Char × List Char)
  | [] => some ([], [])
  | c :: cs =>
    if c = 'e' ∨ c = 'E' then
      match cs with
      | [] => none
      | s :: ds =>
        if s = '+' ∨ s = '-' then (digits? ds).map fun (digits, rest) => (c :: s :: digits, rest)
        else (digits? (s :: ds)).map fun (digits, rest) => (c :: digits, rest)
    else some ([], c :: cs)

theorem length_exponent?_le {cs ds rest : List Char} (h : exponent? cs = some (ds, rest)) :
    rest.length ≤ cs.length := by
  unfold exponent? at h
  split at h
  · obtain ⟨-, rfl⟩ := Prod.mk.inj (Option.some.inj h)
    simp
  · split at h
    · split at h
      · simp at h
      · split at h
        · obtain ⟨⟨ds', rest'⟩, hdigits, heq⟩ := Option.map_eq_some_iff.1 h
          obtain ⟨-, rfl⟩ := Prod.mk.inj heq
          have := length_digits?_lt hdigits
          simp only [List.length_cons]
          omega
        · obtain ⟨⟨ds', rest'⟩, hdigits, heq⟩ := Option.map_eq_some_iff.1 h
          obtain ⟨-, rfl⟩ := Prod.mk.inj heq
          have := length_digits?_lt hdigits
          simp only [List.length_cons] at this ⊢
          omega
    · obtain ⟨-, rfl⟩ := Prod.mk.inj (Option.some.inj h)
      simp

/-- The unsigned number at the start of `cs`: its whole part, the rest of its text, and what follows
    it. -/
def unsigned? (cs : List Char) : Option (List Char × List Char × List Char) := do
  let (whole, rest) ← whole? cs
  let (part, rest) ← fraction? rest
  let (exponent, rest) ← exponent? rest
  return (whole, part ++ exponent, rest)

theorem length_unsigned?_lt {cs whole part rest : List Char}
    (h : unsigned? cs = some (whole, part, rest)) : rest.length < cs.length := by
  simp only [unsigned?, Option.bind_eq_bind, Option.bind_eq_some_iff, Option.pure_def,
    Option.some.injEq, Prod.mk.injEq, Prod.exists] at h
  obtain ⟨w, rest₁, hwhole, p, rest₂, hpart, e, rest₃, hexponent, -, -, rfl⟩ := h
  have := length_whole?_lt hwhole
  have := length_fraction?_le hpart
  have := length_exponent?_le hexponent
  omega

/-- The number at the start of `cs` and what follows it. -/
def number? (cs : List Char) : Option (Json × List Char) :=
  match cs with
  | [] => none
  | c :: rest =>
    if c = '-' then do
      let (whole, part, after) ← unsigned? rest
      let d ← Decimal.ofLiteral? (whole ++ part)
      return (.real (-d.toFloat), after)
    else do
      let (whole, part, after) ← unsigned? (c :: rest)
      if part.isEmpty then return (.natural (ofDigits whole), after)
      else
        let d ← Decimal.ofLiteral? (whole ++ part)
        return (.real d.toFloat, after)

theorem length_number?_lt {cs rest : List Char} {json : Json}
    (h : number? cs = some (json, rest)) : rest.length < cs.length := by
  unfold number? at h
  split at h
  · simp at h
  · split at h
    · simp only [Option.bind_eq_bind, Option.bind_eq_some_iff, Option.pure_def, Option.some.injEq,
        Prod.mk.injEq, Prod.exists] at h
      obtain ⟨_, _, after, hunsigned, _, -, -, rfl⟩ := h
      exact Nat.lt_succ_of_lt (length_unsigned?_lt hunsigned)
    · simp only [Option.bind_eq_bind, Option.bind_eq_some_iff, Prod.exists] at h
      obtain ⟨_, _, after, hunsigned, h⟩ := h
      have hlt := length_unsigned?_lt hunsigned
      split at h
      · obtain ⟨-, rfl⟩ := Prod.mk.inj (Option.some.inj h)
        exact hlt
      · simp only [Option.bind_eq_some_iff, Option.pure_def, Option.some.injEq, Prod.mk.injEq] at h
        obtain ⟨_, -, -, rfl⟩ := h
        exact hlt

/-! ## Tokens -/

/-- Blanks between tokens. -/
def isSpace (c : Char) : Bool := c == ' ' || c == '\t' || c == '\n' || c == '\r'

/-- The token that is a single character. -/
def ofChar? (c : Char) : Option Token :=
  if c = '[' then some .openArray
  else if c = ']' then some .closeArray
  else if c = '\x7b' then some .openObject
  else if c = '\x7d' then some .closeObject
  else if c = ':' then some .colon
  else if c = ',' then some .comma
  else none

/-- What follows `word` at the start of `cs`. -/
def afterWord? : (word cs : List Char) → Option (List Char)
  | [], cs => some cs
  | _ :: _, [] => none
  | w :: word, c :: cs => if w = c then afterWord? word cs else none

/-- The word at the start of `cs`, one of three that are values, and what follows it. -/
def word? (cs : List Char) : Option (Json × List Char) :=
  match afterWord? ['n', 'u', 'l', 'l'] cs with
  | some rest => some (.null, rest)
  | none =>
    match afterWord? ['t', 'r', 'u', 'e'] cs with
    | some rest => some (.bool true, rest)
    | none => (afterWord? ['f', 'a', 'l', 's', 'e'] cs).map (.bool false, ·)

theorem length_afterWord? {word cs rest : List Char} (h : afterWord? word cs = some rest) :
    word.length + rest.length = cs.length := by
  induction word generalizing cs with
  | nil => obtain rfl : cs = rest := by simpa [afterWord?] using h
           simp
  | cons w word ih =>
    cases cs with
    | nil => simp [afterWord?] at h
    | cons c cs =>
      rw [afterWord?] at h
      split at h
      · have := ih h
        simp only [List.length_cons]
        omega
      · simp at h

theorem length_word?_lt {cs rest : List Char} {json : Json} (h : word? cs = some (json, rest)) :
    rest.length < cs.length := by
  unfold word? at h
  split at h
  · rename_i after hafter
    obtain ⟨-, rfl⟩ := Prod.mk.inj (Option.some.inj h)
    have := length_afterWord? hafter
    simp only [List.length_cons] at this
    omega
  · split at h
    · rename_i after hafter
      obtain ⟨-, rfl⟩ := Prod.mk.inj (Option.some.inj h)
      have := length_afterWord? hafter
      simp only [List.length_cons] at this
      omega
    · obtain ⟨after, hafter, heq⟩ := Option.map_eq_some_iff.1 h
      obtain ⟨-, rfl⟩ := Prod.mk.inj heq
      have := length_afterWord? hafter
      simp only [List.length_cons] at this
      omega

/-- The token at the start of `cs`, which is no blank, and what follows it. -/
def next? (cs : List Char) : Option (Token × List Char) :=
  match cs with
  | [] => none
  | c :: rest =>
    match ofChar? c with
    | some token => some (token, rest)
    | none =>
      if c = '"' then (string? rest).map fun (chars, after) => (.text (chars.map String.ofList), after)
      else if c = '-' ∨ c.isDigit then (number? (c :: rest)).map fun (json, after) => (.scalar json, after)
      else (word? (c :: rest)).map fun (json, after) => (.scalar json, after)

theorem length_next?_lt {cs rest : List Char} {token : Token} (h : next? cs = some (token, rest)) :
    rest.length < cs.length := by
  unfold next? at h
  split at h
  · simp at h
  · split at h
    · obtain ⟨-, rfl⟩ := Prod.mk.inj (Option.some.inj h)
      simp
    · split at h
      · obtain ⟨⟨chars, after⟩, hstring, heq⟩ := Option.map_eq_some_iff.1 h
        obtain ⟨-, rfl⟩ := Prod.mk.inj heq
        exact Nat.lt_succ_of_lt (length_string?_lt hstring)
      · split at h
        · obtain ⟨⟨json, after⟩, hnumber, heq⟩ := Option.map_eq_some_iff.1 h
          obtain ⟨-, rfl⟩ := Prod.mk.inj heq
          exact length_number?_lt hnumber
        · obtain ⟨⟨json, after⟩, hword, heq⟩ := Option.map_eq_some_iff.1 h
          obtain ⟨-, rfl⟩ := Prod.mk.inj heq
          exact length_word?_lt hword

/-- The tokens of a text. -/
def scan? (cs : List Char) : Option (List Token) :=
  match cs with
  | [] => some []
  | c :: rest =>
    if isSpace c then scan? rest
    else match h : next? (c :: rest) with
      | none => none
      | some (token, after) =>
        have := length_next?_lt h
        (scan? after).map (token :: ·)
termination_by cs.length
decreasing_by
  · exact Nat.lt_succ_self _
  · exact this

end Token

end QubitBasic.Json
