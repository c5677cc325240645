/-
  Where an `IF` is cut: the first word `THEN` outside double quotes.

  `ThenAt cs before behind` describes one place where a text could be cut, with no reference to how it
  is searched: the four letters, in upper or lower case, with no quoted text open, at the start or after
  a delimiter, and at the end or before a delimiter.  The search finds exactly the first such place
  (`splitThen?_eq_some_iff`).
-/
import QubitBasic.Proofs.Text.Quotes
import QubitBasic.Statement.Parser

namespace QubitBasic.Statement

open Text

theorem upper_eq_then_iff {word : List Char} :
    upper word = "THEN" ↔ word.map Char.toUpper = ['T', 'H', 'E', 'N'] := by
  rw [upper, ← String.toList_inj, String.toList_ofList]
  rfl

theorem length_of_upper_eq_then {word : List Char} (h : upper word = "THEN") : word.length = 4 := by
  have hlength := congrArg List.length (upper_eq_then_iff.1 h)
  rwa [List.length_map] at hlength

theorem not_mem_of_upper_eq_then {word : List Char} (h : upper word = "THEN") {c : Char}
    (hc : c.toUpper ∉ ['T', 'H', 'E', 'N']) : c ∉ word := by
  intro hmem
  rw [← upper_eq_then_iff.1 h] at hc
  exact hc (List.mem_map_of_mem hmem)

/-- A text can be cut between `before` and `behind`, at a word `THEN` of its own.  `boundary` tells
    whether a word may start where the text does, `quoted` whether quoted text is open there. -/
structure ThenAt (boundary quoted : Bool) (cs before behind : List Char) : Prop where
  word : ∃ word, upper word = "THEN" ∧ cs = before ++ word ++ behind
  unquoted : quotedAfter quoted before = false
  starts : (before.getLast?.map isDelimiter).getD boundary = true
  ends : behind.head?.all isDelimiter = true

theorem starts_eq_all (before : List Char) :
    (before.getLast?.map isDelimiter).getD true = before.getLast?.all isDelimiter := by
  cases before.getLast? <;> rfl

theorem ThenAt.length_eq {boundary quoted : Bool} {cs before behind : List Char}
    (h : ThenAt boundary quoted cs before behind) :
    cs.length = before.length + 4 + behind.length := by
  obtain ⟨word, hword, rfl⟩ := h.word
  rw [List.length_append, List.length_append, length_of_upper_eq_then hword]

theorem afterThen?_eq_some_iff {cs rest : List Char} :
    afterThen? cs = some rest ↔
      (∃ word, upper word = "THEN" ∧ cs = word ++ rest) ∧ rest.head?.all isDelimiter = true := by
  constructor
  · intro h
    unfold afterThen? at h
    split at h
    · rename_i t h' e n tail
      split at h
      · rename_i hcond
        obtain rfl := Option.some.inj h
        rw [Bool.and_eq_true, beq_iff_eq] at hcond
        exact ⟨⟨[t, h', e, n], hcond.1, rfl⟩, hcond.2⟩
      · cases h
    · cases h
  · rintro ⟨⟨word, hword, rfl⟩, hends⟩
    have hlength := length_of_upper_eq_then hword
    match word, hlength with
    | [t, h, e, n], _ =>
      have hcond : (upper [t, h, e, n] == "THEN" && rest.head?.all isDelimiter) = true := by
        rw [Bool.and_eq_true, beq_iff_eq]
        exact ⟨hword, hends⟩
      exact if_pos hcond

/-! ## One character at a time -/

theorem thenAt_nil_iff {boundary quoted : Bool} {cs behind : List Char} :
    ThenAt boundary quoted cs [] behind ↔
      boundary = true ∧ quoted = false ∧ afterThen? cs = some behind := by
  rw [afterThen?_eq_some_iff]
  constructor
  · rintro ⟨hword, hunquoted, hstarts, hends⟩
    exact ⟨hstarts, hunquoted, hword, hends⟩
  · rintro ⟨hstarts, hunquoted, hword, hends⟩
    exact ⟨hword, hunquoted, hstarts, hends⟩

theorem thenAt_cons_iff {boundary quoted : Bool} {c : Char} {cs before behind : List Char} :
    ThenAt boundary quoted (c :: cs) (c :: before) behind ↔
      ThenAt (isDelimiter c) (if c = '"' then !quoted else quoted) cs before behind := by
  have hstart : ((c :: before).getLast?.map isDelimiter).getD boundary =
      (before.getLast?.map isDelimiter).getD (isDelimiter c) := by
    cases before with
    | nil => rfl
    | cons d before =>
      rw [List.getLast?_cons_cons, List.getLast?_eq_some_getLast (List.cons_ne_nil d before)]
      rfl
  constructor
  · rintro ⟨⟨word, hword, heq⟩, hunquoted, hstarts, hends⟩
    exact ⟨⟨word, hword, (List.cons.inj heq).2⟩, hunquoted, hstart ▸ hstarts, hends⟩
  · rintro ⟨⟨word, hword, rfl⟩, hunquoted, hstarts, hends⟩
    exact ⟨⟨word, hword, rfl⟩, hunquoted, hstart ▸ hstarts, hends⟩

/-- What stands before a place is where the text starts. -/
theorem ThenAt.eq_nil_or_cons {boundary quoted : Bool} {c : Char} {cs before behind : List Char}
    (h : ThenAt boundary quoted (c :: cs) before behind) :
    before = [] ∨ ∃ rest, before = c :: rest := by
  cases before with
  | nil => exact Or.inl rfl
  | cons d rest =>
    obtain ⟨word, -, heq⟩ := h.word
    exact Or.inr ⟨rest, by rw [(List.cons.inj heq).1]⟩

/-! ## Texts that are continued -/

/-- A place in a text is a place in every continuation of it, unless a word goes on where the text
    ended. -/
theorem ThenAt.append {boundary quoted : Bool} {cs before behind : List Char}
    (h : ThenAt boundary quoted cs before behind) (rest : List Char)
    (hrest : behind = [] → rest.head?.all isDelimiter = true) :
    ThenAt boundary quoted (cs ++ rest) before (behind ++ rest) := by
  obtain ⟨⟨word, hword, rfl⟩, hunquoted, hstarts, hends⟩ := h
  refine ⟨⟨word, hword, by simp⟩, hunquoted, hstarts, ?_⟩
  cases behind with
  | nil => exact hrest rfl
  | cons c behind => exact hends

/-- Conversely, a place that starts within a text ends within it if a space follows. -/
theorem ThenAt.of_append_space {boundary quoted : Bool} {cs rest before behind : List Char}
    (h : ThenAt boundary quoted (cs ++ ' ' :: rest) before behind)
    (hle : before.length ≤ cs.length) :
    ∃ inner, behind = inner ++ ' ' :: rest ∧ ThenAt boundary quoted cs before inner := by
  obtain ⟨⟨word, hword, heq⟩, hunquoted, hstarts, hends⟩ := h
  rcases List.append_eq_append_iff.1 heq with ⟨outer, houter, hrest⟩ | ⟨inner, rfl, rfl⟩
  · cases outer with
    | nil =>
      obtain rfl : ' ' :: rest = behind := hrest
      exact ⟨[], rfl, ⟨⟨word, hword, by simpa using houter.symm⟩, hunquoted, hstarts, rfl⟩⟩
    | cons c outer =>
      -- The space would be one of the four letters.
      obtain ⟨rfl, -⟩ := List.cons.inj hrest
      have hmem : ' ' ∈ word := by
        rcases List.append_eq_append_iff.1 houter with
          ⟨letters, -, hletters⟩ | ⟨extra, hbefore, hletters⟩
        · rw [hletters]
          simp
        · have hlength := congrArg List.length hbefore
          rw [List.length_append] at hlength
          obtain rfl : extra = [] := List.eq_nil_of_length_eq_zero (by omega)
          rw [← List.nil_append word, ← hletters]
          exact List.mem_cons_self
      exact absurd hmem (not_mem_of_upper_eq_then hword (by decide))
  · refine ⟨inner, rfl, ⟨⟨word, hword, rfl⟩, hunquoted, hstarts, ?_⟩⟩
    cases inner with
    | nil => rfl
    | cons c inner => exact hends

/-! ## The search -/

/-- **The search finds the first place.**  A text is cut where it can be cut and nowhere earlier could
    be. -/
theorem splitThen?_eq_some_iff {boundary quoted : Bool} {cs before behind : List Char} :
    splitThen? boundary quoted cs = some (before, behind) ↔
      ThenAt boundary quoted cs before behind ∧
      ∀ before' behind', ThenAt boundary quoted cs before' behind' →
        before.length ≤ before'.length := by
  induction cs generalizing boundary quoted before with
  | nil =>
    constructor
    · intro h
      cases h
    · rintro ⟨hat, -⟩
      have hlength := hat.length_eq
      rw [List.length_nil] at hlength
      omega
  | cons c cs ih =>
    rw [splitThen?]
    by_cases hhere : ∃ rest, ThenAt boundary quoted (c :: cs) [] rest
    · -- The text can be cut right at its start, and that is the first place.
      obtain ⟨rest, hrest⟩ := hhere
      obtain ⟨rfl, rfl, hafter⟩ := thenAt_nil_iff.1 hrest
      rw [show (if true && !false then afterThen? (c :: cs) else none) = some rest from hafter]
      constructor
      · intro h
        obtain ⟨rfl, rfl⟩ : [] = before ∧ rest = behind := by simpa using h
        exact ⟨hrest, fun _ _ _ => Nat.zero_le _⟩
      · rintro ⟨hat, hfirst⟩
        obtain rfl : before = [] := List.eq_nil_of_length_eq_zero (Nat.le_zero.1 (hfirst [] rest hrest))
        obtain ⟨-, -, hafter'⟩ := thenAt_nil_iff.1 hat
        rw [Option.some.inj (hafter.symm.trans hafter')]
    · -- Every place lies behind the first character, which only moves the start of the text.
      have hnone : (if boundary && !quoted then afterThen? (c :: cs) else none) = none := by
        split
        · rename_i hcond
          obtain ⟨hb, hq⟩ := Bool.and_eq_true_iff.1 hcond
          cases hafter : afterThen? (c :: cs) with
          | none => rfl
          | some rest =>
            exact absurd ⟨rest, thenAt_nil_iff.2 ⟨hb, by simpa using hq, hafter⟩⟩ hhere
        · rfl
      rw [hnone]
      constructor
      · intro h
        obtain ⟨⟨left, right⟩, hsplit, heq⟩ := Option.map_eq_some_iff.1 h
        obtain ⟨rfl, rfl⟩ : c :: left = before ∧ right = behind := by simpa using heq
        obtain ⟨hat, hfirst⟩ := ih.1 hsplit
        refine ⟨thenAt_cons_iff.2 hat, fun before' behind' hat' => ?_⟩
        rcases hat'.eq_nil_or_cons with rfl | ⟨left', rfl⟩
        · exact absurd ⟨_, hat'⟩ hhere
        · exact Nat.succ_le_succ (hfirst left' behind' (thenAt_cons_iff.1 hat'))
      · rintro ⟨hat, hfirst⟩
        rcases hat.eq_nil_or_cons with rfl | ⟨left, rfl⟩
        · exact absurd ⟨_, hat⟩ hhere
        · have hsplit := ih.2 ⟨thenAt_cons_iff.1 hat, fun left' behind' hat' =>
            Nat.le_of_succ_le_succ (hfirst (c :: left') behind' (thenAt_cons_iff.2 hat'))⟩
          simp [hsplit]

end QubitBasic.Statement
