/-
  Blank characters and trimming.

  Program text is cut at blanks in two different senses:

  * `isBlank` — the characters with the Unicode property White_Space.  They separate a line number
    from its statement and a keyword from its operands, and they are trimmed away around every
    operand.
  * `isDelimiter` — the five blanks of plain ASCII text (tab, line feed, form feed, carriage return,
    space).  Only these may stand around the word `THEN`.

  The vertical tab and the blanks beyond ASCII are no delimiters.
-/
namespace QubitBasic.Text

/-- Whether `c` has the Unicode property White_Space. -/
def isBlank (c : Char) : Bool :=
  let n := c.toNat
  (0x09 ≤ n && n ≤ 0x0D) || n == 0x20 || n == 0x85 || n == 0xA0 || n == 0x1680 ||
    (0x2000 ≤ n && n ≤ 0x200A) || n == 0x2028 || n == 0x2029 || n == 0x202F || n == 0x205F ||
    n == 0x3000

/-- Whether `c` may stand beside the word `THEN`: tab, line feed, form feed, carriage return or space. -/
def isDelimiter (c : Char) : Bool :=
  let n := c.toNat
  n == 0x09 || n == 0x0A || n == 0x0C || n == 0x0D || n == 0x20

/-! ## Trimming -/

/-- Drops the blanks at the start of `cs`. -/
def trimStart (cs : List Char) : List Char := cs.dropWhile isBlank

/-- Drops the blanks at the end of `cs`. -/
def trimEnd (cs : List Char) : List Char := (cs.reverse.dropWhile isBlank).reverse

/-- Drops the blanks at both ends of `cs`. -/
def trim (cs : List Char) : List Char := trimEnd (trimStart cs)

theorem length_dropWhile_le {α : Type} (p : α → Bool) (xs : List α) :
    (xs.dropWhile p).length ≤ xs.length :=
  (List.dropWhile_suffix p).sublist.length_le

theorem length_trim_le (cs : List Char) : (trim cs).length ≤ cs.length := by
  have h₁ := length_dropWhile_le isBlank (trimStart cs).reverse
  have h₂ := length_dropWhile_le isBlank cs
  simp only [trim, trimEnd, trimStart, List.length_reverse] at h₁ ⊢
  exact Nat.le_trans h₁ h₂

end QubitBasic.Text
