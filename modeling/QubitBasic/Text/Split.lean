/-
  Cutting text into parts.

  * `cut?` — the part before the first character of a class, and the part after it.
  * `pieces` — the parts between the occurrences of a separator.
  * `piecesOutsideQuotes` — the same, where a separator between double quotes does not count.  A
    double quote opens quoted text when none is open and closes it otherwise; text left open runs to
    the end.

  A cut loses exactly the one character that it was made at (`cut?_eq_some`).  The pieces, put
  together with the separators between them, give the text back.
-/
namespace QubitBasic.Text

/-- The text before and after the first character that satisfies `p`; `none` if there is none. -/
def cut? (p : Char → Bool) : List Char → Option (List Char × List Char)
  | [] => none
  | c :: cs => if p c then some ([], cs) else (cut? p cs).map fun (l, r) => (c :: l, r)

/-- A cut drops exactly one character. -/
theorem cut?_eq_some {p : Char → Bool} {cs l r : List Char} (h : cut? p cs = some (l, r)) :
    ∃ c, p c = true ∧ cs = l ++ c :: r := by
  induction cs generalizing l with
  | nil => simp [cut?] at h
  | cons c cs ih =>
    rw [cut?] at h
    split at h
    · rename_i hc
      obtain ⟨rfl, rfl⟩ : [] = l ∧ cs = r := by simpa using h
      exact ⟨c, hc, rfl⟩
    · obtain ⟨⟨l', r'⟩, hcut, heq⟩ := Option.map_eq_some_iff.1 h
      obtain ⟨rfl, rfl⟩ : c :: l' = l ∧ r' = r := by simpa using heq
      obtain ⟨d, hd, rfl⟩ := ih hcut
      exact ⟨d, hd, rfl⟩

/-- Puts `c` in front of the first part. -/
def prepend (c : Char) : List (List Char) → List (List Char)
  | [] => [[c]]
  | part :: parts => (c :: part) :: parts

/-- The parts of a text between the occurrences of `separator`; at least one. -/
def pieces (separator : Char) : List Char → List (List Char)
  | [] => [[]]
  | c :: cs =>
    if c = separator then [] :: pieces separator cs else prepend c (pieces separator cs)

/-- The parts of a text between the occurrences of `separator` outside double quotes, where
    `quoted` tells whether quoted text is open at the start. -/
def piecesOutsideQuotes (separator : Char) : (quoted : Bool) → List Char → List (List Char)
  | _, [] => [[]]
  | quoted, c :: cs =>
    if c = '"' then prepend c (piecesOutsideQuotes separator (!quoted) cs)
    else if c = separator ∧ quoted = false then [] :: piecesOutsideQuotes separator quoted cs
    else prepend c (piecesOutsideQuotes separator quoted cs)

/-- The lines of a text, without the line feeds that end them. -/
def lines (cs : List Char) : List (List Char) := pieces '\n' cs

end QubitBasic.Text
