/-
  Canonical texts decode back.

  Decoding the text that a statement is shown as gives the statement again (`parse_display`), with one
  exception.  A word `THEN` may stand at the end of a condition if the blank behind it is no delimiter:
  with a no-break space behind the first `THEN`, the condition of `IF A THEN  THEN END` is `A THEN`.
  The canonical text has a plain space there, so it is cut one `THEN` too early, and what is left,
  `THEN END`, is an unknown statement.

  For an action this is `Canonical.parseChars_display`.  For an `IF` all depends on where its text is
  cut.  The condition comes from a cut at the first place, so no place lies in it but at its end
  (`CutOff`), and the space behind it keeps the letters on both sides from making a new one.
-/
import Mathlib
import QubitBasic.Proofs.Statement.Canonical

namespace QubitBasic.Statement

open Text

/-! ## Decoding a statement -/

/-- A statement whose first word is a keyword is an action. -/
theorem parseChars_keyword {cs word operands : List Char} {keyword : Keyword}
    (hword : firstWord (trim cs) = (word, operands)) (hif : upper word ≠ "IF")
    (hfind : Keyword.all.find? (·.spelling == upper word) = some keyword) :
    parseChars cs = (parseAction keyword (trim cs) operands).map .simple := by
  rw [parseChars]
  simp only [hword]
  rw [if_neg hif, hfind]

theorem parseChars_unknown {cs word operands : List Char}
    (hword : firstWord (trim cs) = (word, operands)) (hif : upper word ≠ "IF")
    (hfind : Keyword.all.find? (·.spelling == upper word) = none) :
    parseChars cs = .error (.unknown (String.ofList (trim cs))) := by
  rw [parseChars]
  simp only [hword]
  rw [if_neg hif, hfind]

/-- A statement that starts with `IF` and is cut before a body that is no line number decodes as its
    body does. -/
theorem parseChars_if {cs word operands left right body : List Char}
    (hword : firstWord (trim cs) = (word, operands)) (hif : upper word = "IF")
    (hsplit : splitThen? true false operands = some (left, right)) (hbody : trim right = body)
    (hne : body.isEmpty = false) (hdigits : body.all Char.isDigit = false) :
    (∀ error, parseChars body = .error error → parseChars cs = .error error) ∧
    (∀ action, parseChars body = .ok (.simple action) →
      parseChars cs = .ok (.conditional (String.ofList (trim left)) action)) := by
  subst hbody
  rw [parseChars.eq_def cs]
  simp only [hword, hif, if_true]
  split
  · rename_i hnone
    simp only [hword, hsplit] at hnone
    cases hnone
  · rename_i left' right' hsome
    simp only [hword] at hsome
    obtain ⟨rfl, rfl⟩ := Prod.mk.inj (Option.some.inj (hsplit.symm.trans hsome))
    rw [if_neg (by rw [hne]; decide), if_neg (by rw [hdigits]; decide)]
    constructor
    · intro error herror
      rw [herror]
    · intro action haction
      rw [haction]

/-- What decoding a statement comes to: an action, or a condition and an action cut apart at a word
    `THEN`. -/
theorem parseChars_cases {cs : List Char} {s : Statement} (h : parseChars cs = .ok s) :
    (∃ action, s = .simple action ∧ Canonical action) ∨
    (∃ operands left right action, s = .conditional (String.ofList (trim left)) action ∧
      Canonical action ∧ Trimmed operands ∧
      splitThen? true false operands = some (left, right)) := by
  induction hn : cs.length using Nat.strongRecOn generalizing cs s with
  | ind n ih =>
    rw [parseChars] at h
    simp only at h
    split at h
    · split at h
      · cases h
      rename_i left right hsplit
      have hoperands := trimmed_firstWord (trim cs)
      split at h
      · cases h
      rename_i hne
      split at h
      · -- Digits alone are the target of a `GOTO`.
        obtain rfl := Except.ok.inj h
        have hgoto : parseAction .goto [] (trim right) = .ok (.goto (String.ofList (trim right))) := by
          rw [parseAction, operand_of_ne_nil [] (by simpa using hne)]
          rfl
        exact Or.inr ⟨_, left, right, _, rfl,
          canonical_of_parseAction (trimmed_trim right) hgoto, hoperands, hsplit⟩
      split at h
      · cases h
      · cases h
      rename_i action hbody
      obtain rfl := Except.ok.inj h
      have hlt : (trim right).length < n := by
        have h₁ := length_trim_le right
        have h₂ := length_splitThen?_lt hsplit
        have h₃ := length_firstWord_le (trim cs)
        have h₄ := length_trim_le cs
        omega
      rcases ih _ hlt hbody rfl with ⟨action', heq, hcanonical⟩ | ⟨_, _, _, _, heq, -⟩
      · obtain rfl := Statement.simple.inj heq
        exact Or.inr ⟨_, left, right, action, rfl, hcanonical, hoperands, hsplit⟩
      · cases heq
    · split at h
      · cases h
      rename_i keyword _
      cases haction : parseAction keyword (trim cs) (firstWord (trim cs)).2 with
      | error error =>
        rw [haction] at h
        cases h
      | ok action =>
        rw [haction] at h
        obtain rfl := Except.ok.inj h
        exact Or.inl ⟨action, rfl,
          canonical_of_parseAction (trimmed_firstWord (trim cs)) haction⟩

/-- The text of a canonical action decodes back. -/
theorem Canonical.parseChars_display {action : Action} (h : Canonical action) :
    parseChars action.display.toList = .ok (.simple action) := by
  have htrim := h.trimmed_display.trim_eq
  have hupper := action.keyword.upper_spelling
  have hkeyword : parseChars action.display.toList =
      (parseAction action.keyword (trim action.display.toList) action.operands.toList).map .simple := by
    refine parseChars_keyword (htrim.symm ▸ h.firstWord_display) ?_ ?_
    · rw [hupper]
      exact action.keyword.spelling_ne_if
    · rw [hupper]
      exact action.keyword.find?_spelling
  rw [hkeyword, h.decodes]
  rfl

/-! ## Conditions -/

/-- A text ends in the word `THEN`, in upper or lower case, at its start or after a delimiter. -/
def EndsInThen (cs : List Char) : Prop :=
  ∃ before word, cs = before ++ word ∧ upper word = "THEN" ∧ before.getLast?.all isDelimiter = true

instance (cs : List Char) : Decidable (EndsInThen cs) :=
  decidable_of_iff (upper (cs.drop (cs.length - 4)) = "THEN" ∧
      (cs.take (cs.length - 4)).getLast?.all isDelimiter = true) <| by
    constructor
    · rintro ⟨hword, hstarts⟩
      exact ⟨_, _, (List.take_append_drop _ cs).symm, hword, hstarts⟩
    · rintro ⟨before, word, rfl, hword, hstarts⟩
      have hlength : (before ++ word).length - 4 = before.length := by
        rw [List.length_append, length_of_upper_eq_then hword, Nat.add_sub_cancel]
      rw [hlength, List.drop_left, List.take_left]
      exact ⟨hword, hstarts⟩

/-- The word at the end is a place where the text could be cut, as long as no quotes are open there. -/
theorem EndsInThen.thenAt {cs : List Char} (h : EndsInThen cs)
    (hclosed : quotedAfter false cs = false) : ∃ before, ThenAt true false cs before [] := by
  obtain ⟨before, word, rfl, hword, hstarts⟩ := h
  refine ⟨before, ⟨⟨word, hword, by simp⟩, ?_, ?_, rfl⟩⟩
  · -- The four letters are no quotes.
    have hquote : '"' ∉ word := not_mem_of_upper_eq_then hword (by decide)
    rwa [quotedAfter_append, quotedAfter_of_not_mem hquote] at hclosed
  · rw [starts_eq_all]
    exact hstarts

theorem ThenAt.endsInThen {cs before : List Char} (h : ThenAt true false cs before []) :
    EndsInThen cs := by
  obtain ⟨⟨word, hword, rfl⟩, -, hstarts, -⟩ := h
  rw [starts_eq_all] at hstarts
  exact ⟨before, word, by simp, hword, hstarts⟩

/-- What a condition inherits from the place where it was cut off: no quoted text is left open, and it
    could be cut again at its very end only. -/
structure CutOff (condition : List Char) : Prop where
  trimmed : Trimmed condition
  closed : quotedAfter false condition = false
  atEnd : ∀ before behind, ThenAt true false condition before behind → behind = []

theorem cutOff_of_splitThen? {operands left right : List Char} (htrimmed : Trimmed operands)
    (h : splitThen? true false operands = some (left, right)) : CutOff (trim left) := by
  obtain ⟨hat, hfirst⟩ := splitThen?_eq_some_iff.1 h
  obtain ⟨as, bs, ha, hb, htrim, hleft⟩ := exists_trim left
  obtain ⟨word, hword, hoperands⟩ := hat.word
  -- The operands start with no blank, so neither does what stands before the place.
  obtain rfl : as = [] := by
    cases as with
    | nil => rfl
    | cons a as =>
      have hblank := ha a List.mem_cons_self
      rw [htrimmed.head a (by rw [hoperands, hleft]; rfl)] at hblank
      cases hblank
  refine ⟨htrim, (quotedAfter_trim false left).trans hat.unquoted, fun before behind hinner => ?_⟩
  apply Classical.byContradiction
  intro hne
  -- A place further ahead would have been found first.
  have hahead : ThenAt true false operands before (behind ++ (bs ++ word ++ right)) := by
    have happend := hinner.append (bs ++ word ++ right) fun hnil => absurd hnil hne
    rwa [hoperands, hleft, List.nil_append, List.append_assoc, List.append_assoc,
      ← List.append_assoc bs]
  have hle := hfirst _ _ hahead
  have hlength := congrArg List.length hleft
  simp only [List.length_append, hinner.length_eq] at hlength
  omega

/-! ## Cutting the text of a statement -/

/-- The word `THEN` and a body behind it. -/
def thenBody (body : List Char) : List Char := ['T', 'H', 'E', 'N'] ++ ' ' :: body

theorem trimmed_thenBody {body : List Char} (h : Trimmed body) (hne : body ≠ []) :
    Trimmed (thenBody body) := by
  have happend : Trimmed (['T', 'H', 'E', 'N'] ++ [' '] ++ body) :=
    Trimmed.append (trimmed_of_any_isBlank (by decide)) h (by decide) hne
  exact happend

/-- What stands before the word `THEN` in the operands of an `IF`.  Without a condition that is nothing,
    as blanks behind the keyword do not count. -/
def lead (condition : List Char) : List Char :=
  if condition = [] then [] else condition ++ [' ']

theorem trim_lead {condition : List Char} (h : Trimmed condition) :
    trim (lead condition) = condition := by
  unfold lead
  split
  · rename_i hnil
    rw [hnil]
    rfl
  · exact h.trim_concat_space

theorem lead_append_thenBody {condition : List Char} (h : condition ≠ []) (body : List Char) :
    lead condition ++ thenBody body = condition ++ ' ' :: thenBody body := by
  rw [lead, if_neg h]
  simp

theorem trim_append_thenBody {condition body : List Char} (hcondition : Trimmed condition)
    (hbody : Trimmed body) (hne : body ≠ []) :
    trim (condition ++ ' ' :: thenBody body) = lead condition ++ thenBody body := by
  have hthen := trimmed_thenBody hbody hne
  by_cases hnil : condition = []
  · subst hnil
    exact hthen.trim_space_cons
  · have hall : Trimmed (condition ++ [' '] ++ thenBody body) :=
      hcondition.append hthen hnil (by simp [thenBody])
    rw [lead_append_thenBody hnil]
    simpa using hall.trim_eq

/-- The condition is cut off again, unless it ends in a word `THEN` of its own. -/
theorem CutOff.splitThen?_eq {condition : List Char} (h : CutOff condition)
    (hends : ¬ EndsInThen condition) (body : List Char) :
    splitThen? true false (lead condition ++ thenBody body) = some (lead condition, ' ' :: body) := by
  have hupper : upper ['T', 'H', 'E', 'N'] = "THEN" := by decide
  have hword : lead condition ++ thenBody body =
      lead condition ++ ['T', 'H', 'E', 'N'] ++ ' ' :: body := by
    rw [thenBody, List.append_assoc]
  by_cases hnil : condition = []
  · subst hnil
    exact splitThen?_eq_some_iff.2
      ⟨⟨⟨_, hupper, hword⟩, rfl, rfl, rfl⟩, fun before' _ _ => Nat.zero_le before'.length⟩
  · have hlead : lead condition = condition ++ [' '] := if_neg hnil
    refine splitThen?_eq_some_iff.2 ⟨⟨⟨_, hupper, hword⟩, ?_, ?_, rfl⟩, ?_⟩
    · rw [hlead, quotedAfter_append, h.closed]
      rfl
    · rw [hlead, List.getLast?_concat]
      rfl
    · -- A place before the space lies in the condition, and so at its end.
      intro before behind hat
      apply Classical.byContradiction
      intro hlt
      rw [lead_append_thenBody hnil] at hat
      rw [hlead, List.length_append, List.length_singleton] at hlt
      obtain ⟨inner, -, hinner⟩ := hat.of_append_space (by omega)
      obtain rfl := h.atEnd before inner hinner
      exact hends hinner.endsInThen

/-- A condition that ends in `THEN` is cut right there, and the body starts with the other `THEN`. -/
theorem CutOff.splitThen?_eq_of_endsInThen {condition : List Char} (h : CutOff condition)
    (hends : EndsInThen condition) (body : List Char) :
    ∃ before, splitThen? true false (lead condition ++ thenBody body) =
      some (before, ' ' :: thenBody body) := by
  obtain ⟨before, hat⟩ := hends.thenAt h.closed
  have hlength := hat.length_eq
  have hnil : condition ≠ [] := by
    intro hnil
    rw [hnil, List.length_nil] at hlength
    omega
  rw [lead_append_thenBody hnil]
  refine ⟨before, splitThen?_eq_some_iff.2 ⟨hat.append _ fun _ => rfl, ?_⟩⟩
  -- Both places are at the end of the condition.
  intro before' behind' hat'
  apply Classical.byContradiction
  intro hlt
  obtain ⟨inner, -, hinner⟩ := hat'.of_append_space (by omega)
  obtain rfl := h.atEnd before' inner hinner
  have hlength' := hinner.length_eq
  rw [List.length_nil] at hlength hlength'
  omega

/-! ## The text of an `IF` -/

/-- The keyword of an `IF` and its operands. -/
theorem firstWord_display_conditional {condition : String} {action : Action}
    (hcondition : CutOff condition.toList) (haction : Canonical action) :
    firstWord (trim (Statement.conditional condition action).display.toList) =
      (['I', 'F'], lead condition.toList ++ thenBody action.display.toList) := by
  have hbody := haction.trimmed_display
  have hne := display_ne_nil action
  have htext : (Statement.conditional condition action).display.toList =
      ['I', 'F'] ++ ' ' :: (condition.toList ++ ' ' :: thenBody action.display.toList) := by
    show ("IF " ++ condition ++ " THEN " ++ action.display).toList = _
    simp [thenBody]
  have htrimmed : Trimmed (['I', 'F'] ++ (' ' :: condition.toList ++ [' ']) ++
      thenBody action.display.toList) :=
    Trimmed.append (trimmed_of_any_isBlank (by decide)) (trimmed_thenBody hbody hne) (by decide)
      (by simp [thenBody])
  have htrim : trim (Statement.conditional condition action).display.toList =
      (Statement.conditional condition action).display.toList := by
    rw [htext]
    simpa using htrimmed.trim_eq
  rw [htrim, htext, firstWord_append (by decide),
    trim_append_thenBody hcondition.trimmed hbody hne]

theorem parseChars_display_conditional {condition : String} {action : Action}
    (hcondition : CutOff condition.toList) (haction : Canonical action)
    (hends : ¬ EndsInThen condition.toList) :
    parseChars (Statement.conditional condition action).display.toList =
      .ok (.conditional condition action) := by
  obtain ⟨-, hif⟩ := parseChars_if (firstWord_display_conditional hcondition haction) (by decide)
    (hcondition.splitThen?_eq hends _) haction.trimmed_display.trim_space_cons
    (by simpa using display_ne_nil action) (not_all_isDigit_display action)
  rw [hif action haction.parseChars_display, trim_lead hcondition.trimmed, String.ofList_toList]

/-- Cut too early, the body starts with the word `THEN`, which is no keyword. -/
theorem parseChars_display_of_endsInThen {condition : String} {action : Action}
    (hcondition : CutOff condition.toList) (haction : Canonical action)
    (hends : EndsInThen condition.toList) :
    ∃ statement, parseChars (Statement.conditional condition action).display.toList =
      .error (.unknown statement) := by
  obtain ⟨before, hsplit⟩ := hcondition.splitThen?_eq_of_endsInThen hends action.display.toList
  have hthen := trimmed_thenBody haction.trimmed_display (display_ne_nil action)
  have hword : firstWord (trim (thenBody action.display.toList)) =
      (['T', 'H', 'E', 'N'], trim action.display.toList) := by
    rw [hthen.trim_eq, thenBody, firstWord_append (by decide)]
  obtain ⟨hif, -⟩ := parseChars_if (firstWord_display_conditional hcondition haction) (by decide)
    hsplit hthen.trim_space_cons (by simp [thenBody]) (by simp [thenBody])
  exact ⟨_, hif _ (parseChars_unknown hword (by decide) (by decide))⟩

/-! ## Canonical texts -/

/-- The statement is an `IF` whose condition ends in a word `THEN` of its own. -/
def Ambiguous : Statement → Prop
  | .simple _ => False
  | .conditional condition _ => EndsInThen condition.toList

instance : (s : Statement) → Decidable s.Ambiguous
  | .simple _ => inferInstanceAs (Decidable False)
  | .conditional condition _ => inferInstanceAs (Decidable (EndsInThen condition.toList))

/-- **Canonical texts decode back.**  What a text decodes to, its canonical text decodes to as well,
    with one exception: where the condition of an `IF` ends in a word `THEN` of its own, the canonical
    text is cut there, and the rest is an unknown statement. -/
theorem parse_display {text : String} {s : Statement} (h : parse text = .ok s) :
    (¬ s.Ambiguous → parse s.display = .ok s) ∧
    (s.Ambiguous → ∃ statement, parse s.display = .error (.unknown statement)) := by
  rcases parseChars_cases h with ⟨action, rfl, haction⟩ |
    ⟨operands, left, right, action, rfl, haction, htrimmed, hsplit⟩
  · constructor
    · intro _
      exact haction.parseChars_display
    · intro hambiguous
      exact hambiguous.elim
  · have hcondition : CutOff (String.ofList (trim left)).toList :=
      String.toList_ofList.symm ▸ cutOff_of_splitThen? htrimmed hsplit
    constructor
    · intro hends
      exact parseChars_display_conditional hcondition haction hends
    · intro hends
      exact parseChars_display_of_endsInThen hcondition haction hends

/-- A word `THEN` in quotes is read again, one before a no-break space is not. -/
theorem parse_display_word_then :
    (∃ s, parse "if A=\" then \"  then 40" = .ok s ∧ parse s.display = .ok s) ∧
    (∃ s, parse "IF A THEN\u00A0 THEN PRINT \"B\";;C" = .ok s ∧
      ∃ statement, parse s.display = .error (.unknown statement)) := by
  have hquoted : parse "if A=\" then \"  then 40" =
      .ok (.conditional "A=\" then \"" (.goto "40")) := by cbv
  have hbeyond : parse "IF A THEN\u00A0 THEN PRINT \"B\";;C" =
      .ok (.conditional "A THEN" (.print ["\"B\"", "C"])) := by cbv
  exact ⟨⟨_, hquoted, (parse_display hquoted).1 (by decide)⟩,
    ⟨_, hbeyond, (parse_display hbeyond).2 (by decide)⟩⟩

end QubitBasic.Statement
