/-
  The lines of a text, and numerals.

  Cutting a text at a separator gives parts that hold none of it (`not_mem_of_mem_pieces`), and any parts
  that hold none come from putting them together with separators between them
  (`pieces_intercalate_of_not_mem`).  So a text may be described by its lines: to put a line into a text
  is to put a part into a list.

  A numeral is a run of digits.  No digit is a blank, so a numeral ends where the first blank stands.
-/
import QubitBasic.Proofs.Text.Trim
import QubitBasic.Text.Digits

namespace QubitBasic

namespace Text

variable {separator : Char}

/-! ## Lines -/

theorem pieces_of_not_mem {cs : List Char} (h : separator ∉ cs) : pieces separator cs = [cs] := by
  induction cs with
  | nil => rfl
  | cons c cs ih =>
    obtain ⟨hc, hcs⟩ := List.ne_and_not_mem_of_not_mem_cons h
    rw [pieces, if_neg fun heq => hc heq.symm, ih hcs]
    rfl

/-- There is always a first part. -/
theorem exists_pieces (separator : Char) (cs : List Char) :
    ∃ part parts, pieces separator cs = part :: parts := by
  cases cs with
  | nil => exact ⟨[], [], rfl⟩
  | cons c cs =>
    rw [pieces]
    split
    · exact ⟨_, _, rfl⟩
    · cases pieces separator cs with
      | nil => exact ⟨_, _, rfl⟩
      | cons part parts => exact ⟨_, _, rfl⟩

/-- At a separator a text falls into two, whatever it holds. -/
theorem pieces_append (as bs : List Char) :
    pieces separator (as ++ separator :: bs) = pieces separator as ++ pieces separator bs := by
  induction as with
  | nil => exact if_pos rfl
  | cons a as ih =>
    rw [List.cons_append, pieces, pieces, ih]
    split
    · rfl
    · obtain ⟨first, rest, hpieces⟩ := exists_pieces separator as
      rw [hpieces]
      rfl

/-- The first part ends at the first separator. -/
theorem pieces_append_cons {as : List Char} (h : separator ∉ as) (bs : List Char) :
    pieces separator (as ++ separator :: bs) = as :: pieces separator bs := by
  rw [pieces_append, pieces_of_not_mem h, List.singleton_append]

theorem not_mem_of_mem_pieces {cs part : List Char} (h : part ∈ pieces separator cs) :
    separator ∉ part := by
  induction cs generalizing part with
  | nil =>
    rw [List.mem_singleton.1 h]
    exact List.not_mem_nil
  | cons c cs ih =>
    rw [pieces] at h
    split at h
    case isTrue hc =>
      rcases List.mem_cons.1 h with rfl | h
      · exact List.not_mem_nil
      · exact ih h
    case isFalse hc =>
      obtain ⟨first, rest, hpieces⟩ := exists_pieces separator cs
      rw [hpieces] at h ih
      rcases List.mem_cons.1 h with rfl | h
      · exact List.not_mem_cons_of_ne_of_not_mem (fun heq => hc heq.symm) (ih List.mem_cons_self)
      · exact ih (List.mem_cons_of_mem first h)

/-- Parts that hold no separator are what their text is cut into. -/
theorem pieces_intercalate_of_not_mem {parts : List (List Char)} (hne : parts ≠ [])
    (h : ∀ part ∈ parts, separator ∉ part) :
    pieces separator ([separator].intercalate parts) = parts := by
  induction parts with
  | nil => exact absurd rfl hne
  | cons first rest ih =>
    have hfirst : separator ∉ first := h first List.mem_cons_self
    cases rest with
    | nil => rw [List.intercalate_singleton, pieces_of_not_mem hfirst]
    | cons second rest =>
      rw [List.intercalate_cons_cons, List.append_assoc, List.singleton_append,
        pieces_append_cons hfirst,
        ih (List.cons_ne_nil _ _) fun part hpart => h part (List.mem_cons_of_mem first hpart)]

end Text

/-! ## Numerals -/

open Text

theorem toList_toString (n : Nat) : (toString n).toList = toDigits n := by
  rw [Nat.toString_eq_ofList_toDigits, String.toList_ofList, toDigits]

theorem isDigit_of_mem_toDigits {n : Nat} {c : Char} (h : c ∈ toDigits n) : c.isDigit = true :=
  Nat.isDigit_of_mem_toDigits (by decide) (by decide) h

theorem ofDigits_toDigits (n : Nat) : ofDigits (toDigits n) = n := Nat.ofDigitChars_ten_toDigits

theorem toNat_of_isDigit {c : Char} (h : c.isDigit = true) : 48 ≤ c.toNat ∧ c.toNat ≤ 57 := by
  simpa [Char.isDigit, UInt32.le_iff_toNat_le] using h

theorem isBlank_of_isDigit {c : Char} (h : c.isDigit = true) : isBlank c = false := by
  have hrange := toNat_of_isDigit h
  simp only [isBlank, Bool.or_eq_false_iff, Bool.and_eq_false_iff, decide_eq_false_iff_not,
    beq_eq_false_iff_ne]
  omega

/-- A numeral starts with a digit. -/
theorem exists_toDigits (n : Nat) : ∃ c cs, toDigits n = c :: cs ∧ c.isDigit = true := by
  obtain ⟨c, cs, h⟩ := List.exists_cons_of_ne_nil (Nat.toDigits_ne_nil (n := n) (b := 10))
  exact ⟨c, cs, h, isDigit_of_mem_toDigits (by rw [toDigits, h]; exact List.mem_cons_self)⟩

theorem trimmed_toDigits (n : Nat) : Trimmed (toDigits n) :=
  trimmed_of_forall fun _ hc => isBlank_of_isDigit (isDigit_of_mem_toDigits hc)

variable {ds rest : List Char}

theorem isNumeral_iff : isNumeral ds = true ↔ ds ≠ [] ∧ ∀ c ∈ ds, c.isDigit = true := by
  simp [isNumeral]

theorem isNumeral_toDigits (n : Nat) : isNumeral (toDigits n) = true :=
  isNumeral_iff.2 ⟨Nat.toDigits_ne_nil, fun _ => isDigit_of_mem_toDigits⟩

theorem exists_cons_of_isNumeral (h : isNumeral ds = true) :
    ∃ d ds', ds = d :: ds' ∧ d.isDigit = true := by
  obtain ⟨hne, hall⟩ := isNumeral_iff.1 h
  obtain ⟨d, ds', rfl⟩ := List.exists_cons_of_ne_nil hne
  exact ⟨d, ds', rfl, hall d List.mem_cons_self⟩

theorem takeWhile_numeral (h : isNumeral ds = true) (hrest : ∀ c ∈ rest.head?, c.isDigit = false) :
    (ds ++ rest).takeWhile Char.isDigit = ds := by
  rw [List.takeWhile_append_of_pos (isNumeral_iff.1 h).2]
  cases rest with
  | nil => simp
  | cons c rest => simp [hrest c rfl]

theorem dropWhile_numeral (h : isNumeral ds = true) (hrest : ∀ c ∈ rest.head?, c.isDigit = false) :
    (ds ++ rest).dropWhile Char.isDigit = rest := by
  rw [List.dropWhile_append_of_pos (isNumeral_iff.1 h).2]
  cases rest with
  | nil => rfl
  | cons c rest => simp [hrest c rfl]

end QubitBasic
