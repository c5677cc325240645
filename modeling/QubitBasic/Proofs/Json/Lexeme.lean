/-
  Strings and numbers of JSON: their grammar, and that they are read to their ends.

  `Characters` is the text between the quotes of a string.  Its escapes may leave one half of a surrogate
  pair alone, so not every such text stands for characters; `Spells s cs` says that `cs` does, and for
  which.  `Number` is a number, in three parts that are told apart by their first characters.

  Where a string ends is marked by its quote, so what follows it is of no importance (`Spells.string?`,
  `Characters.string?`).  A number has no such mark: it is read to its end if what follows cannot go on a
  number (`Apart`, `Number.number?`).  What is written for a character and for a natural number obeys the
  grammar (`spells_flatMap_escape`, `whole_toDigits`).
-/
import Mathlib.Tactic.SplitIfs
import QubitBasic.Json.Reader
import QubitBasic.Proofs.Text.Lines

namespace QubitBasic.Json

open Text Token

/-! ## The grammar of strings -/

/-- What may stand between the quotes of a string: characters other than controls, quotes and
    backslashes, escapes of one letter, and escapes of four hexadecimal digits.  The latter may be halves
    of surrogate pairs, with their other halves or without. -/
inductive Characters : List Char → Prop
  | nil : Characters []
  | plain {c cs} : 0x20 ≤ c.toNat → c ≠ '"' → c ≠ '\\' → Characters cs → Characters (c :: cs)
  | letter {l c cs} : unescape? l = some c → Characters cs → Characters ('\\' :: l :: cs)
  | unit {a b c d unit cs} : hexUnit? a b c d = some unit → Characters cs →
      Characters ('\\' :: 'u' :: a :: b :: c :: d :: cs)

/-- The text `cs` between the quotes of a string stands for `s`, each character of which may be written
    plainly or by an escape. -/
inductive Spells : (s cs : List Char) → Prop
  | nil : Spells [] []
  | plain {c s cs} : 0x20 ≤ c.toNat → c ≠ '"' → c ≠ '\\' → Spells s cs → Spells (c :: s) (c :: cs)
  | letter {l c s cs} : unescape? l = some c → Spells s cs → Spells (c :: s) ('\\' :: l :: cs)
  | unit {a b c d unit s cs} : hexUnit? a b c d = some unit → isHighSurrogate unit = false →
      isLowSurrogate unit = false → Spells s cs →
      Spells (Char.ofNat unit :: s) ('\\' :: 'u' :: a :: b :: c :: d :: cs)
  | pair {a b c d high a' b' c' d' low s cs} : hexUnit? a b c d = some high →
      isHighSurrogate high = true → hexUnit? a' b' c' d' = some low → isLowSurrogate low = true →
      Spells s cs → Spells (ofSurrogates high low :: s)
        ('\\' :: 'u' :: a :: b :: c :: d :: '\\' :: 'u' :: a' :: b' :: c' :: d' :: cs)

/-! ## The grammar of numbers -/

/-- The whole part of a number, which has no leading zeros. -/
inductive Whole : List Char → Prop
  | zero : Whole ['0']
  | digits {c cs} : isNumeral (c :: cs) = true → c ≠ '0' → Whole (c :: cs)

/-- The fraction of a number, or none. -/
inductive Fraction : List Char → Prop
  | none : Fraction []
  | digits {ds} : isNumeral ds = true → Fraction ('.' :: ds)

/-- The exponent of a number, or none. -/
inductive Exponent : List Char → Prop
  | none : Exponent []
  | unsigned {mark ds} : mark = 'e' ∨ mark = 'E' → isNumeral ds = true → Exponent (mark :: ds)
  | signed {mark sign ds} : mark = 'e' ∨ mark = 'E' → sign = '+' ∨ sign = '-' → isNumeral ds = true →
      Exponent (mark :: sign :: ds)

/-- A number. -/
inductive Number : List Char → Prop
  | positive {whole part exponent} : Whole whole → Fraction part → Exponent exponent →
      Number (whole ++ (part ++ exponent))
  | negative {whole part exponent} : Whole whole → Fraction part → Exponent exponent →
      Number ('-' :: (whole ++ (part ++ exponent)))

/-- The text `cs` cannot go on a number that stands before it. -/
def Apart (cs : List Char) : Prop :=
  ∀ c ∈ cs.head?, c.isDigit = false ∧ c ≠ '.' ∧ c ≠ 'e' ∧ c ≠ 'E'

/-! ## Reading strings -/

theorem Spells.characters {s cs : List Char} (h : Spells s cs) : Characters cs := by
  induction h with
  | nil => exact .nil
  | plain hcontrol hquote hback _ ih => exact .plain hcontrol hquote hback ih
  | letter hletter _ ih => exact .letter hletter ih
  | unit hunit _ _ _ ih => exact .unit hunit ih
  | pair hhigh _ hlow _ _ ih => exact .unit hhigh (.unit hlow ih)

/-! ### One character -/

variable {c l first : Char} {cs rest : List Char}

theorem unitEscape?_of_ne (h : c ≠ '\\') : unitEscape? (c :: cs) = none := by
  unfold unitEscape?
  split
  · rename_i heq
    rw [if_neg fun hand => h ((List.cons.inj heq).1.trans hand.1)]
  · rfl

theorem unitEscape?_of_letter (h : l ≠ 'u') : unitEscape? ('\\' :: l :: cs) = none := by
  unfold unitEscape?
  split
  · rename_i heq
    rw [if_neg fun hand => h ((List.cons.inj (List.cons.inj heq).2).1.trans hand.2)]
  · rfl

theorem unitEscape?_unit {a b c d : Char} {unit : Nat} (h : hexUnit? a b c d = some unit) :
    unitEscape? ('\\' :: 'u' :: a :: b :: c :: d :: cs) = some (unit, cs) := by
  rw [unitEscape?, if_pos ⟨rfl, rfl⟩, h]
  rfl

theorem character?_plain (hcontrol : 0x20 ≤ c.toNat) (hback : c ≠ '\\') :
    character? (c :: cs) = some (some c, cs) := by
  rw [character?.eq_def]
  dsimp only
  rw [if_neg (Nat.not_lt.2 hcontrol), if_pos hback]

theorem ne_u_of_unescape? (h : unescape? l = some c) : l ≠ 'u' := by
  rintro rfl
  have hnone : unescape? 'u' = none := by decide
  rw [hnone] at h
  cases h

theorem character?_letter (h : unescape? l = some c) :
    character? ('\\' :: l :: cs) = some (some c, cs) := by
  rw [character?, if_neg (by decide), if_neg (by decide), unitEscape?_of_letter (ne_u_of_unescape? h)]
  show (unescape? l).map _ = _
  rw [h]
  rfl

theorem character?_unit {a b c d : Char} {unit : Nat} (h : hexUnit? a b c d = some unit)
    (hhigh : isHighSurrogate unit = false) :
    character? ('\\' :: 'u' :: a :: b :: c :: d :: rest) =
      some (if isLowSurrogate unit then none else some (Char.ofNat unit), rest) := by
  rw [character?, if_neg (by decide), if_neg (by decide), unitEscape?_unit h]
  simp only [hhigh, Bool.false_eq_true, if_false]
  split <;> rfl

theorem character?_pair {a b c d a' b' c' d' : Char} {high low : Nat}
    (h : hexUnit? a b c d = some high) (hhigh : isHighSurrogate high = true)
    (h' : hexUnit? a' b' c' d' = some low) (hlow : isLowSurrogate low = true) :
    character? ('\\' :: 'u' :: a :: b :: c :: d :: '\\' :: 'u' :: a' :: b' :: c' :: d' :: cs) =
      some (some (ofSurrogates high low), cs) := by
  rw [character?, if_neg (by decide), if_neg (by decide), unitEscape?_unit h]
  simp only [hhigh, if_true, unitEscape?_unit h', hlow]

/-- The first half of a surrogate pair stands alone where no second half follows. -/
theorem character?_alone {a b c d : Char} {high : Nat} (h : hexUnit? a b c d = some high)
    (hhigh : isHighSurrogate high = true)
    (hnext : ∀ low after, unitEscape? cs = some (low, after) → isLowSurrogate low = false) :
    character? ('\\' :: 'u' :: a :: b :: c :: d :: cs) = some (none, cs) := by
  rw [character?, if_neg (by decide), if_neg (by decide), unitEscape?_unit h]
  simp only [hhigh, if_true]
  split
  · rename_i low after hlow
    rw [if_neg (by rw [hnext low after hlow]; exact Bool.false_ne_true)]
  · rfl

/-! ### Whole strings -/

theorem string?_quote : string? ('"' :: rest) = some (some [], rest) := by
  rw [string?, if_pos rfl]

theorem string?_of_character? {first : Option Char} {others after : List Char}
    {chars : Option (List Char)} (hquote : c ≠ '"') (h : character? (c :: cs) = some (first, others))
    (hothers : string? others = some (chars, after)) :
    string? (c :: cs) = some ((do return (← first) :: (← chars)), after) := by
  rw [string?, if_neg hquote]
  split
  · rename_i hnone
    rw [h] at hnone
    cases hnone
  · rename_i first' others' hsome
    obtain ⟨rfl, rfl⟩ : first = first' ∧ others = others' := by
      rw [h] at hsome
      simpa using hsome
    rw [hothers]
    rfl

/-- A string is read up to its closing quote as the text that it spells. -/
theorem Spells.string? {s cs : List Char} (h : Spells s cs) (rest : List Char) :
    string? (cs ++ '"' :: rest) = some (some s, rest) := by
  induction h with
  | nil => exact string?_quote
  | plain hcontrol hquote hback _ ih =>
    exact string?_of_character? hquote (character?_plain hcontrol hback) ih
  | letter hletter _ ih => exact string?_of_character? (by decide) (character?_letter hletter) ih
  | @unit a b c d unit _ cs hunit hhigh hlow _ ih =>
    have hcharacter : character? ('\\' :: 'u' :: a :: b :: c :: d :: (cs ++ '"' :: rest)) =
        some (some (Char.ofNat unit), cs ++ '"' :: rest) := by
      rw [character?_unit hunit hhigh, hlow, if_neg Bool.false_ne_true]
    exact string?_of_character? (by decide) hcharacter ih
  | pair hunit hhigh hunit' hlow _ ih =>
    exact string?_of_character? (by decide) (character?_pair hunit hhigh hunit' hlow) ih

/-- A string starts with an escape of hexadecimal digits, or with no such escape whatever follows it. -/
theorem Characters.unitEscape?_cases (h : Characters cs) :
    (∀ rest, unitEscape? (cs ++ '"' :: rest) = none) ∨
      ∃ a b c d unit cs', cs = '\\' :: 'u' :: a :: b :: c :: d :: cs' ∧ hexUnit? a b c d = some unit ∧
        Characters cs' := by
  cases h with
  | nil => exact .inl fun _ => unitEscape?_of_ne (by decide)
  | plain _ _ hback _ => exact .inl fun _ => unitEscape?_of_ne hback
  | letter hletter _ => exact .inl fun _ => unitEscape?_of_letter (ne_u_of_unescape? hletter)
  | unit hunit hcs => exact .inr ⟨_, _, _, _, _, _, rfl, hunit, hcs⟩

/-- The first character of a string is read, whatever follows the string, and leaves a string. -/
theorem Characters.character? (h : Characters (c :: cs)) :
    c ≠ '"' ∧ ∃ first cs', Characters cs' ∧ cs'.length ≤ cs.length ∧
      ∀ rest, character? (c :: (cs ++ '"' :: rest)) = some (first, cs' ++ '"' :: rest) := by
  cases h with
  | plain hcontrol hquote hback hcs =>
    exact ⟨hquote, _, cs, hcs, Nat.le_refl _, fun _ => character?_plain hcontrol hback⟩
  | @letter l _ cs hletter hcs =>
    exact ⟨by decide, _, cs, hcs, Nat.le_succ _, fun _ => character?_letter hletter⟩
  | @unit a b c d unit cs hunit hcs =>
    have hle : cs.length ≤ ('u' :: a :: b :: c :: d :: cs).length := by
      simp only [List.length_cons]
      omega
    refine ⟨by decide, ?_⟩
    by_cases hhigh : isHighSurrogate unit = true
    · -- The first half of a pair; whether it is alone depends on what stands next.
      rcases hcs.unitEscape?_cases with hnone | ⟨a', b', c', d', low, cs', rfl, hlow, hcs'⟩
      · refine ⟨_, cs, hcs, hle, fun rest => character?_alone hunit hhigh fun low after hsome => ?_⟩
        cases (hnone rest).symm.trans hsome
      · by_cases hislow : isLowSurrogate low = true
        · refine ⟨_, cs', hcs', ?_, fun _ => character?_pair hunit hhigh hlow hislow⟩
          simp only [List.length_cons] at hle ⊢
          omega
        · refine ⟨_, _, hcs, hle, fun rest => character?_alone hunit hhigh fun low' after hsome => ?_⟩
          obtain ⟨rfl, -⟩ := Prod.mk.inj (Option.some.inj ((unitEscape?_unit hlow).symm.trans hsome))
          exact Bool.eq_false_iff.2 hislow
    · exact ⟨_, cs, hcs, hle, fun _ => character?_unit hunit (Bool.eq_false_iff.2 hhigh)⟩

/-- Every string is read up to its closing quote. -/
theorem Characters.string? (h : Characters cs) :
    ∃ chars, ∀ rest, string? (cs ++ '"' :: rest) = some (chars, rest) := by
  -- By the length of the text: the two escapes of a surrogate pair are read at once.
  induction hlength : cs.length using Nat.strongRecOn generalizing cs with
  | _ length ih =>
    cases cs with
    | nil => exact ⟨some [], fun _ => string?_quote⟩
    | cons c cs =>
      obtain ⟨hquote, first, cs', hcs', hle, hfirst⟩ := h.character?
      obtain ⟨chars, hread⟩ := ih cs'.length (by rw [← hlength]; exact Nat.lt_succ_of_le hle) hcs' rfl
      exact ⟨_, fun rest => string?_of_character? hquote (hfirst rest) (hread rest)⟩

/-! ### Escapes that are written -/

theorem hexUnit?_digitChar {n : Nat} (h : n < 0x20) :
    hexUnit? '0' '0' (Nat.digitChar (n / 16)) (Nat.digitChar (n % 16)) = some n := by
  have hall : ∀ n < 0x20,
      hexUnit? '0' '0' (Nat.digitChar (n / 16)) (Nat.digitChar (n % 16)) = some n := by decide
  exact hall n h

/-- What is written for a character stands for it. -/
theorem Spells.escape {s cs : List Char} (h : Spells s cs) (c : Char) :
    Spells (c :: s) (escape c ++ cs) := by
  have hofNat : Char.ofNat c.toNat = c := Char.ofNat_toNat c
  rw [Json.escape]
  split_ifs with hquote hback hfeed hreturn htab hbackspace hform hcontrol
  · subst hquote
    exact .letter (by decide) h
  · subst hback
    exact .letter (by decide) h
  · subst hfeed
    exact .letter (by decide) h
  · subst hreturn
    exact .letter (by decide) h
  · subst htab
    exact .letter (by decide) h
  · rw [← hofNat, hbackspace]
    exact .letter (by decide) h
  · rw [← hofNat, hform]
    exact .letter (by decide) h
  · have hhigh : isHighSurrogate c.toNat = false := by
      simp only [isHighSurrogate, Bool.and_eq_false_iff, decide_eq_false_iff_not]
      omega
    have hlow : isLowSurrogate c.toNat = false := by
      simp only [isLowSurrogate, Bool.and_eq_false_iff, decide_eq_false_iff_not]
      omega
    have hunit := Spells.unit (hexUnit?_digitChar hcontrol) hhigh hlow h
    rwa [hofNat] at hunit
  · exact .plain (Nat.le_of_not_lt hcontrol) hquote hback h

theorem spells_flatMap_escape (s : List Char) : Spells s (s.flatMap escape) := by
  induction s with
  | nil => exact .nil
  | cons c s ih => exact ih.escape c

/-! ## Reading numbers -/

theorem apart_nil : Apart [] := fun _ h => by cases h

theorem apart_cons (h : c.isDigit = false ∧ c ≠ '.' ∧ c ≠ 'e' ∧ c ≠ 'E') : Apart (c :: cs) := by
  rintro _ ⟨⟩
  exact h

variable {ds whole part exponent : List Char}

theorem digits?_append (h : isNumeral ds = true) (hrest : ∀ c ∈ rest.head?, c.isDigit = false) :
    digits? (ds ++ rest) = some (ds, rest) := by
  obtain ⟨d, ds', rfl, -⟩ := exists_cons_of_isNumeral h
  rw [digits?, takeWhile_numeral h hrest, dropWhile_numeral h hrest]
  rfl

theorem whole?_append (h : Whole whole) (hrest : ∀ c ∈ rest.head?, c.isDigit = false) :
    whole? (whole ++ rest) = some (whole, rest) := by
  cases h with
  | zero => rfl
  | digits hdigits hzero =>
    rw [List.cons_append, whole?, if_neg hzero]
    exact digits?_append hdigits hrest

theorem fraction?_append (h : Fraction part)
    (hrest : ∀ c ∈ rest.head?, c.isDigit = false ∧ c ≠ '.') :
    fraction? (part ++ rest) = some (part, rest) := by
  cases h with
  | none =>
    cases rest with
    | nil => rfl
    | cons c rest => rw [List.nil_append, fraction?, if_neg (hrest c rfl).2]
  | digits hdigits =>
    rw [List.cons_append, fraction?, if_pos rfl, digits?_append hdigits fun c hc => (hrest c hc).1]
    rfl

theorem exponent?_append (h : Exponent exponent) (hrest : Apart rest) :
    exponent? (exponent ++ rest) = some (exponent, rest) := by
  have hdigit : ∀ c ∈ rest.head?, c.isDigit = false := fun c hc => (hrest c hc).1
  cases h with
  | none =>
    cases rest with
    | nil => rfl
    | cons c rest =>
      obtain ⟨-, -, he, hE⟩ := hrest c rfl
      rw [List.nil_append, exponent?.eq_def]
      dsimp only
      rw [if_neg (by rintro (h | h) <;> contradiction)]
  | @unsigned mark ds hmark hdigits =>
    obtain ⟨d, ds, rfl, hd⟩ := exists_cons_of_isNumeral hdigits
    have hsign : ¬ (d = '+' ∨ d = '-') := by
      rintro (rfl | rfl) <;> exact absurd hd (by decide)
    rw [List.cons_append, List.cons_append, exponent?, if_pos hmark, if_neg hsign, ← List.cons_append,
      digits?_append hdigits hdigit]
    rfl
  | signed hmark hsign hdigits =>
    rw [List.cons_append, List.cons_append, exponent?, if_pos hmark, if_pos hsign,
      digits?_append hdigits hdigit]
    rfl

/-! ### The parts of a number are told apart by their first characters -/

theorem Exponent.head (h : Exponent exponent) (hrest : Apart rest) :
    ∀ c ∈ (exponent ++ rest).head?, c.isDigit = false ∧ c ≠ '.' := by
  intro c hc
  cases h with
  | none => exact ⟨(hrest c hc).1, (hrest c hc).2.1⟩
  | unsigned hmark _ =>
    cases hc
    rcases hmark with rfl | rfl <;> decide
  | signed hmark _ _ =>
    cases hc
    rcases hmark with rfl | rfl <;> decide

theorem Fraction.head (h : Fraction part) (hrest : ∀ c ∈ rest.head?, c.isDigit = false ∧ c ≠ '.') :
    ∀ c ∈ (part ++ rest).head?, c.isDigit = false := by
  intro c hc
  cases h with
  | none => exact (hrest c hc).1
  | digits _ =>
    cases hc
    decide

theorem Whole.isNumeral (h : Whole whole) : isNumeral whole = true := by
  cases h with
  | zero => rfl
  | digits hdigits _ => exact hdigits

/-! ### Whole numbers -/

theorem unsigned?_append (hwhole : Whole whole) (hpart : Fraction part) (hexponent : Exponent exponent)
    (hrest : Apart rest) :
    unsigned? (whole ++ (part ++ exponent) ++ rest) = some (whole, part ++ exponent, rest) := by
  have hafter := hexponent.head hrest
  rw [List.append_assoc, List.append_assoc, unsigned?, whole?_append hwhole (hpart.head hafter)]
  show (fraction? _).bind _ = _
  rw [fraction?_append hpart hafter]
  show (exponent? _).bind _ = _
  rw [exponent?_append hexponent hrest]
  rfl

theorem exists_exponent? (h : Exponent exponent) : ∃ e, Decimal.exponent? exponent = some e := by
  cases h with
  | none => exact ⟨0, rfl⟩
  | @unsigned mark ds hmark hdigits =>
    have hmark : (mark == 'e' || mark == 'E') = true := by simpa using hmark
    obtain ⟨d, ds, rfl, hd⟩ := exists_cons_of_isNumeral hdigits
    rw [Decimal.exponent?, if_pos hmark, Decimal.signedNumeral?.eq_def]
    split
    · rename_i heq
      obtain rfl := (List.cons.inj heq).1
      exact absurd hd (by decide)
    · rename_i heq
      obtain rfl := (List.cons.inj heq).1
      exact absurd hd (by decide)
    · rw [if_pos hdigits]
      exact ⟨_, rfl⟩
  | @signed mark sign ds hmark hsign hdigits =>
    have hmark : (mark == 'e' || mark == 'E') = true := by simpa using hmark
    rw [Decimal.exponent?, if_pos hmark]
    rcases hsign with rfl | rfl
    · rw [Decimal.signedNumeral?, if_pos hdigits]
      exact ⟨_, rfl⟩
    · rw [Decimal.signedNumeral?, if_pos hdigits]
      exact ⟨_, rfl⟩

/-- A number without its sign denotes a decimal. -/
theorem exists_ofLiteral? (hwhole : Whole whole) (hpart : Fraction part)
    (hexponent : Exponent exponent) :
    ∃ d, Decimal.ofLiteral? (whole ++ (part ++ exponent)) = some d := by
  have hafter : ∀ c ∈ exponent.head?, c.isDigit = false ∧ c ≠ '.' := by
    have := hexponent.head apart_nil
    rwa [List.append_nil] at this
  obtain ⟨ds, hfraction⟩ : ∃ ds, Decimal.fraction (part ++ exponent) = (ds, exponent) := by
    cases hpart with
    | none =>
      cases exponent with
      | nil => exact ⟨[], rfl⟩
      | cons c exponent =>
        rw [List.nil_append, Decimal.fraction, if_neg (by simpa using (hafter c rfl).2)]
        exact ⟨_, rfl⟩
    | digits hdigits =>
      have hdigit : ∀ c ∈ exponent.head?, c.isDigit = false := fun c hc => (hafter c hc).1
      rw [List.cons_append, Decimal.fraction, if_pos (beq_self_eq_true '.'),
        takeWhile_numeral hdigits hdigit, dropWhile_numeral hdigits hdigit]
      exact ⟨_, rfl⟩
  obtain ⟨e, he⟩ := exists_exponent? hexponent
  obtain ⟨d, whole', rfl, -⟩ := exists_cons_of_isNumeral hwhole.isNumeral
  rw [Decimal.ofLiteral?, takeWhile_numeral hwhole.isNumeral (hpart.head hafter),
    dropWhile_numeral hwhole.isNumeral (hpart.head hafter), hfraction]
  dsimp only
  rw [he]
  exact ⟨_, rfl⟩

theorem number?_unsigned {d : Decimal} (hwhole : Whole whole) (hpart : Fraction part)
    (hexponent : Exponent exponent) (hd : Decimal.ofLiteral? (whole ++ (part ++ exponent)) = some d)
    (hrest : Apart rest) :
    number? (whole ++ (part ++ exponent) ++ rest) =
      some (if (part ++ exponent).isEmpty then .natural (ofDigits whole) else .real d.toFloat, rest) := by
  have hunsigned := unsigned?_append hwhole hpart hexponent hrest
  obtain ⟨first, ds, rfl, hfirst⟩ := exists_cons_of_isNumeral hwhole.isNumeral
  have hsign : first ≠ '-' := by
    rintro rfl
    exact absurd hfirst (by decide)
  rw [List.cons_append, List.cons_append] at hunsigned ⊢
  rw [number?, if_neg hsign, hunsigned]
  dsimp only [Option.bind_eq_bind, Option.bind_some]
  rw [hd]
  split <;> rfl

/-- A numeral without leading zeros is read as a natural number. -/
theorem number?_whole (h : Whole whole) (hrest : Apart rest) :
    number? (whole ++ rest) = some (.natural (ofDigits whole), rest) := by
  obtain ⟨d, hd⟩ := exists_ofLiteral? h .none .none
  have hnumber := number?_unsigned h .none .none hd hrest
  rwa [List.append_nil, List.append_nil] at hnumber

/-- Every number is read to its end. -/
theorem Number.number? (h : Number cs) :
    ∃ json, ∀ rest, Apart rest → number? (cs ++ rest) = some (json, rest) := by
  cases h with
  | positive hwhole hpart hexponent =>
    obtain ⟨d, hd⟩ := exists_ofLiteral? hwhole hpart hexponent
    exact ⟨_, fun rest hrest => number?_unsigned hwhole hpart hexponent hd hrest⟩
  | negative hwhole hpart hexponent =>
    obtain ⟨d, hd⟩ := exists_ofLiteral? hwhole hpart hexponent
    refine ⟨.real (-d.toFloat), fun rest hrest => ?_⟩
    rw [List.cons_append, Token.number?, if_pos rfl, unsigned?_append hwhole hpart hexponent hrest]
    show (Decimal.ofLiteral? _).bind _ = _
    rw [hd]
    rfl

/-! ### Numerals that are written -/

theorem head?_toDigits_ne {n : Nat} (h : n ≠ 0) : (toDigits n).head? ≠ some '0' := by
  induction n using Nat.strongRecOn with
  | _ n ih =>
    rcases Nat.lt_or_ge n 10 with hlt | hge
    · rw [toDigits, Nat.toDigits_of_lt_base hlt]
      intro hhead
      exact h (Nat.digitChar_eq_zero.1 (Option.some.inj hhead))
    · have hfirst := ih (n / 10) (by omega) (by omega)
      obtain ⟨d, ds, hdigits, -⟩ := exists_toDigits (n / 10)
      rw [toDigits] at hdigits hfirst
      rw [toDigits, Nat.toDigits_of_base_le (by decide) hge, hdigits]
      rw [hdigits] at hfirst
      exact hfirst

/-- Numbers are written without leading zeros. -/
theorem whole_toDigits (n : Nat) : Whole (toDigits n) := by
  by_cases hn : n = 0
  · subst hn
    rw [toDigits, Nat.toDigits_zero]
    exact .zero
  · obtain ⟨d, ds, hdigits, -⟩ := exists_toDigits n
    have hnumeral : isNumeral (d :: ds) = true := hdigits ▸ isNumeral_toDigits n
    have hzero := head?_toDigits_ne hn
    rw [hdigits] at hzero ⊢
    exact .digits hnumeral fun heq => hzero (heq ▸ rfl)

end QubitBasic.Json
