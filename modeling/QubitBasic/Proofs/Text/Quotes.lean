/-
  Quoted text, and separators outside it.

  A double quote opens quoted text when none is open and closes it otherwise, so all that matters about
  the text read so far is whether it leaves quoted text open (`quotedAfter`).

  Cutting a text at the separators outside quotes gives pieces that hold no such separator themselves
  (`Unsplit`), and each piece but the last leaves no quoted text open.  Pieces of that kind
  (`Separable`) can be put together again with separators between them, and cutting then gives them
  back, even after blanks were trimmed off them and empty ones dropped: trimming changes no quotes, and
  no piece moves to a place behind the last one (`pieces_intercalate`).
-/
import QubitBasic.Proofs.Text.Trim

namespace QubitBasic.Text

/-! ## Open quotes -/

/-- Whether quoted text is open after `cs`, where `quoted` tells whether it is open before. -/
def quotedAfter (quoted : Bool) (cs : List Char) : Bool :=
  cs.foldl (fun quoted c => if c = '"' then !quoted else quoted) quoted

@[simp] theorem quotedAfter_nil (quoted : Bool) : quotedAfter quoted [] = quoted := rfl

@[simp] theorem quotedAfter_cons (quoted : Bool) (c : Char) (cs : List Char) :
    quotedAfter quoted (c :: cs) = quotedAfter (if c = '"' then !quoted else quoted) cs := rfl

@[simp] theorem quotedAfter_append (quoted : Bool) (as bs : List Char) :
    quotedAfter quoted (as ++ bs) = quotedAfter (quotedAfter quoted as) bs :=
  List.foldl_append

theorem quotedAfter_of_not_mem {cs : List Char} (h : '"' ∉ cs) (quoted : Bool) :
    quotedAfter quoted cs = quoted := by
  induction cs with
  | nil => rfl
  | cons c cs ih =>
    have hc : c ≠ '"' := fun hc => h (hc ▸ List.mem_cons_self)
    rw [quotedAfter_cons, if_neg hc, ih fun hcs => h (List.mem_cons_of_mem c hcs)]

theorem Blanks.not_mem {cs : List Char} (h : Blanks cs) {c : Char} (hc : isBlank c = false) :
    c ∉ cs := by
  intro hmem
  rw [h c hmem] at hc
  cases hc

/-- Trimming takes no quotes away. -/
theorem quotedAfter_trim (quoted : Bool) (cs : List Char) :
    quotedAfter quoted (trim cs) = quotedAfter quoted cs := by
  obtain ⟨as, bs, ha, hb, -, hcs⟩ := exists_trim cs
  have hquote : isBlank '"' = false := by decide
  conv => rhs; rw [hcs]
  rw [quotedAfter_append, quotedAfter_append, quotedAfter_of_not_mem (ha.not_mem hquote),
    quotedAfter_of_not_mem (hb.not_mem hquote)]

/-! ## Separators outside quotes -/

variable {separator : Char}

/-- There is no separator outside quotes. -/
def Unsplit (separator : Char) (quoted : Bool) (cs : List Char) : Prop :=
  ∀ as bs, cs = as ++ separator :: bs → quotedAfter quoted as = true

theorem Unsplit.of_append {quoted : Bool} {as bs cs : List Char}
    (h : Unsplit separator quoted (as ++ bs ++ cs)) :
    Unsplit separator (quotedAfter quoted as) bs := by
  rintro xs ys rfl
  have hafter := h (as ++ xs) (ys ++ cs) (by simp)
  rwa [quotedAfter_append] at hafter

theorem Unsplit.trim {quoted : Bool} {cs : List Char} (h : Unsplit separator quoted cs) :
    Unsplit separator quoted (trim cs) := by
  obtain ⟨as, bs, ha, -, -, hcs⟩ := exists_trim cs
  rw [hcs] at h
  have hmiddle := h.of_append
  rwa [quotedAfter_of_not_mem (ha.not_mem (by decide))] at hmiddle

theorem Unsplit.cons {quoted : Bool} {c : Char} {cs : List Char}
    (hc : c = separator → quoted = true)
    (h : Unsplit separator (if c = '"' then !quoted else quoted) cs) :
    Unsplit separator quoted (c :: cs) := by
  rintro as bs heq
  cases as with
  | nil => exact hc (List.cons.inj heq).1
  | cons a as =>
    obtain ⟨rfl, hrest⟩ := List.cons.inj heq
    exact h as bs hrest

/-- Pieces that can stand side by side with separators between them: none is split itself, and each but
    the last closes the quotes that it opens. -/
def Separable (separator : Char) : (quoted : Bool) → List (List Char) → Prop
  | _, [] => True
  | quoted, piece :: pieces => Unsplit separator quoted piece ∧
      (pieces ≠ [] → quotedAfter quoted piece = false) ∧ Separable separator false pieces

theorem piecesOutsideQuotes_ne_nil (quoted : Bool) (cs : List Char) :
    piecesOutsideQuotes separator quoted cs ≠ [] := by
  fun_induction piecesOutsideQuotes separator quoted cs with
  | case1 => simp
  | case2 quoted cs ih =>
    obtain ⟨piece, pieces, heq⟩ := List.exists_cons_of_ne_nil ih
    rw [heq]
    simp [prepend]
  | case3 => simp
  | case4 quoted c cs _ _ ih =>
    obtain ⟨piece, pieces, heq⟩ := List.exists_cons_of_ne_nil ih
    rw [heq]
    simp [prepend]

theorem Separable.prepend {quoted : Bool} {c : Char} {pieces : List (List Char)}
    (hc : c = separator → quoted = true) (hne : pieces ≠ [])
    (h : Separable separator (if c = '"' then !quoted else quoted) pieces) :
    Separable separator quoted (prepend c pieces) := by
  obtain ⟨piece, pieces, rfl⟩ := List.exists_cons_of_ne_nil hne
  exact ⟨h.1.cons hc, h.2.1, h.2.2⟩

/-- Cutting gives pieces that can stand side by side. -/
theorem separable_piecesOutsideQuotes (hsep : separator ≠ '"') (quoted : Bool) (cs : List Char) :
    Separable separator quoted (piecesOutsideQuotes separator quoted cs) := by
  have hnil : ∀ quoted, Unsplit separator quoted [] := fun quoted as bs h => by simp at h
  fun_induction piecesOutsideQuotes separator quoted cs with
  | case1 quoted => exact ⟨hnil quoted, fun h => absurd rfl h, trivial⟩
  | case2 quoted cs ih =>
    refine Separable.prepend (fun h => absurd h.symm hsep) (piecesOutsideQuotes_ne_nil _ cs) ?_
    rwa [if_pos rfl]
  | case3 quoted c cs _ hc ih =>
    obtain ⟨-, rfl⟩ := hc
    exact ⟨hnil false, fun _ => rfl, ih⟩
  | case4 quoted c cs hquote hc ih =>
    refine Separable.prepend (fun h => ?_) (piecesOutsideQuotes_ne_nil _ cs) ?_
    · cases quoted with
      | true => rfl
      | false => exact absurd ⟨h, rfl⟩ hc
    · rwa [if_neg hquote]

theorem Separable.map_trim {quoted : Bool} {pieces : List (List Char)}
    (h : Separable separator quoted pieces) : Separable separator quoted (pieces.map trim) := by
  induction pieces generalizing quoted with
  | nil => trivial
  | cons piece pieces ih =>
    obtain ⟨hunsplit, hclosed, hrest⟩ := h
    refine ⟨hunsplit.trim, fun hne => ?_, ih hrest⟩
    rw [quotedAfter_trim]
    exact hclosed fun hnil => hne (by rw [hnil]; rfl)

/-- Dropping pieces leaves the rest separable: only the last one may leave a quote open. -/
theorem Separable.filter {p : List Char → Bool} {pieces : List (List Char)}
    (h : Separable separator false pieces) : Separable separator false (pieces.filter p) := by
  induction pieces with
  | nil => trivial
  | cons piece pieces ih =>
    obtain ⟨hunsplit, hclosed, hrest⟩ := h
    rw [List.filter_cons]
    split
    · refine ⟨hunsplit, fun hne => hclosed fun hnil => hne (by rw [hnil]; rfl), ih hrest⟩
    · exact ih hrest

/-! ## Cutting what was put together -/

theorem Unsplit.head {quoted : Bool} {c : Char} {cs : List Char}
    (h : Unsplit separator quoted (c :: cs)) : ¬ (c = separator ∧ quoted = false) := by
  rintro ⟨rfl, rfl⟩
  cases h [] cs rfl

theorem Unsplit.tail {quoted : Bool} {c : Char} {cs : List Char}
    (h : Unsplit separator quoted (c :: cs)) :
    Unsplit separator (if c = '"' then !quoted else quoted) cs := by
  rintro as bs rfl
  exact h (c :: as) bs rfl

/-- One character further, as long as no separator outside quotes is met. -/
theorem piecesOutsideQuotes_cons {quoted : Bool} {c : Char} {cs : List Char}
    (hc : ¬ (c = separator ∧ quoted = false)) :
    piecesOutsideQuotes separator quoted (c :: cs) =
      prepend c (piecesOutsideQuotes separator (if c = '"' then !quoted else quoted) cs) := by
  rw [piecesOutsideQuotes, if_neg hc]
  split
  · rfl
  · rfl

theorem Unsplit.pieces_eq {quoted : Bool} {cs : List Char} (h : Unsplit separator quoted cs) :
    piecesOutsideQuotes separator quoted cs = [cs] := by
  induction cs generalizing quoted with
  | nil => rfl
  | cons c cs ih =>
    rw [piecesOutsideQuotes_cons h.head, ih h.tail]
    rfl

theorem Unsplit.pieces_append {quoted : Bool} {cs : List Char} (hsep : separator ≠ '"')
    (h : Unsplit separator quoted cs) (hclosed : quotedAfter quoted cs = false) (rest : List Char) :
    piecesOutsideQuotes separator quoted (cs ++ separator :: rest) =
      cs :: piecesOutsideQuotes separator false rest := by
  induction cs generalizing quoted with
  | nil =>
    obtain rfl : quoted = false := hclosed
    rw [List.nil_append, piecesOutsideQuotes, if_neg hsep, if_pos ⟨rfl, rfl⟩]
  | cons c cs ih =>
    rw [List.cons_append, piecesOutsideQuotes_cons h.head, ih h.tail hclosed]
    rfl

/-- Pieces put together with a separator and a space between them come back, with the space in front of
    each but the first. -/
theorem pieces_intercalate (hsep : separator ≠ '"') (hspace : separator ≠ ' ') (piece : List Char)
    (pieces : List (List Char)) (h : Separable separator false (piece :: pieces)) :
    piecesOutsideQuotes separator false ([separator, ' '].intercalate (piece :: pieces)) =
      piece :: pieces.map (' ' :: ·) := by
  induction pieces generalizing piece with
  | nil =>
    rw [List.intercalate_singleton, h.1.pieces_eq]
    rfl
  | cons next pieces ih =>
    obtain ⟨hunsplit, hclosed, hrest⟩ := h
    have hput : [separator, ' '].intercalate (piece :: next :: pieces) =
        piece ++ separator :: ' ' :: [separator, ' '].intercalate (next :: pieces) := by
      rw [List.intercalate_cons_cons]
      simp
    rw [hput, hunsplit.pieces_append hsep (hclosed (by simp)),
      piecesOutsideQuotes_cons (fun hc => hspace hc.1.symm)]
    rw [show (if ' ' = '"' then !false else false) = false from rfl, ih next hrest]
    rfl

end QubitBasic.Text
