/-
  Decoding makes up no characters.

  Whatever is trimmed or cut loses characters and gains none, and a statement is decoded by trimming and
  cutting alone: its operands are made of characters of its text (`Statement.subset_of_parse`).  The
  text of a statement is cut out of one line of the source in the same way.  So neither holds a line
  feed, which is where the source was cut into lines (`Listing.newline_not_mem_statement`).
-/
import QubitBasic.Proofs.Listing.Insertion
import QubitBasic.Proofs.Statement.Display

namespace QubitBasic

open Text

/-! ## Texts -/

namespace Text

theorem trim_subset {cs ds : List Char} (h : cs ⊆ ds) : trim cs ⊆ ds :=
  fun _ hc => h (mem_of_mem_trim hc)

theorem subset_of_cut? {p : Char → Bool} {cs left right : List Char}
    (h : cut? p cs = some (left, right)) : left ⊆ cs ∧ right ⊆ cs := by
  obtain ⟨c, -, rfl⟩ := cut?_eq_some h
  exact ⟨List.subset_append_left _ _, List.subset_append_of_subset_right _ (List.subset_cons_self _ _)⟩

theorem subset_of_mem_prepend {c : Char} {parts : List (List Char)} {cs part : List Char}
    (hparts : ∀ part ∈ parts, part ⊆ cs) (h : part ∈ prepend c parts) : part ⊆ c :: cs := by
  cases parts with
  | nil =>
    obtain rfl := List.mem_singleton.1 h
    exact List.cons_subset_cons c (List.nil_subset cs)
  | cons first rest =>
    rcases List.mem_cons.1 h with rfl | hrest
    · exact List.cons_subset_cons c (hparts first List.mem_cons_self)
    · exact List.subset_cons_of_subset c (hparts part (List.mem_cons_of_mem first hrest))

theorem subset_of_mem_piecesOutsideQuotes {separator : Char} {quoted : Bool} {cs part : List Char}
    (h : part ∈ piecesOutsideQuotes separator quoted cs) : part ⊆ cs := by
  induction cs generalizing quoted part with
  | nil =>
    rw [List.mem_singleton.1 h]
    exact List.nil_subset _
  | cons c cs ih =>
    rw [piecesOutsideQuotes] at h
    split at h
    · exact subset_of_mem_prepend (fun _ => ih) h
    · split at h
      · rcases List.mem_cons.1 h with rfl | h
        · exact List.nil_subset _
        · exact List.subset_cons_of_subset c (ih h)
      · exact subset_of_mem_prepend (fun _ => ih) h

end Text

/-! ## Statements -/

/-- The operands of an action. -/
def Action.texts : Action → List String
  | .print items => items
  | .assign name expr => [name, expr]
  | .controlledNot control target => [control, target]
  | .prepare text | .hadamard text | .flip text | .measure text | .goto text | .remark text => [text]
  | .stop => []

namespace Statement

/-- The operands of a statement, among them the condition of an `IF`. -/
def texts : Statement → List String
  | .simple action => action.texts
  | .conditional condition action => condition :: action.texts

theorem firstWord_subset (cs : List Char) : (firstWord cs).2 ⊆ cs := by
  unfold firstWord
  split
  · exact List.nil_subset cs
  · rename_i word rest hcut
    exact trim_subset (subset_of_cut? hcut).2

theorem subset_of_splitThen? {boundary quoted : Bool} {cs left right : List Char}
    (h : splitThen? boundary quoted cs = some (left, right)) : left ⊆ cs ∧ right ⊆ cs := by
  obtain ⟨word, -, rfl⟩ := (splitThen?_eq_some_iff.1 h).1.word
  refine ⟨?_, List.subset_append_right _ _⟩
  rw [List.append_assoc]
  exact List.subset_append_left _ _

/-- The one operand of an action that has one. -/
theorem subset_of_operand {text operands : List Char} {make : String → Action}
    (htexts : ∀ s, (make s).texts = [s]) {action : Action}
    (h : (operand text operands).map make = .ok action) {t : String} (ht : t ∈ action.texts) :
    t.toList ⊆ operands := by
  cases hoperand : operand text operands with
  | error error =>
    rw [hoperand] at h
    cases h
  | ok s =>
    rw [hoperand] at h
    cases h
    rw [htexts] at ht
    obtain rfl := List.mem_singleton.1 ht
    obtain ⟨-, rfl⟩ := operand_eq_ok hoperand
    rw [String.toList_ofList]
    exact List.Subset.refl _

theorem subset_of_assignment {text operands : List Char} {action : Action}
    (h : assignment text operands = .ok action) {t : String} (ht : t ∈ action.texts) :
    t.toList ⊆ operands := by
  unfold assignment at h
  split at h
  · cases h
  rename_i left right hcut
  obtain ⟨hleft, hright⟩ := subset_of_cut? hcut
  simp only at h
  split at h
  · cases h
  split at h
  · cases h
  obtain rfl := Except.ok.inj h
  rcases List.mem_pair.1 ht with rfl | rfl
  · rw [String.toList_ofList]
    exact trim_subset hleft
  · rw [String.toList_ofList]
    exact trim_subset hright

theorem subset_of_controlledNot {text operands : List Char} {action : Action}
    (h : controlledNot text operands = .ok action) {t : String} (ht : t ∈ action.texts) :
    t.toList ⊆ operands := by
  unfold controlledNot at h
  split at h
  · cases h
  rename_i left right hcut
  obtain ⟨hleft, hright⟩ := subset_of_cut? hcut
  cases hcontrol : operand text (trim left) with
  | error error =>
    rw [hcontrol] at h
    cases h
  | ok control =>
    cases htarget : operand text (trim right) with
    | error error =>
      rw [hcontrol, htarget] at h
      cases h
    | ok target =>
      rw [hcontrol, htarget] at h
      cases h
      obtain ⟨-, rfl⟩ := operand_eq_ok hcontrol
      obtain ⟨-, rfl⟩ := operand_eq_ok htarget
      rcases List.mem_pair.1 ht with rfl | rfl
      · rw [String.toList_ofList]
        exact trim_subset hleft
      · rw [String.toList_ofList]
        exact trim_subset hright

theorem subset_of_parseAction {keyword : Keyword} {text operands : List Char} {action : Action}
    (h : parseAction keyword text operands = .ok action) {t : String} (ht : t ∈ action.texts) :
    t.toList ⊆ operands := by
  cases keyword with
  | print =>
    obtain rfl := Except.ok.inj h
    obtain ⟨item, hitem, rfl⟩ := List.mem_map.1 ht
    obtain ⟨part, hpart, rfl⟩ := List.mem_map.1 (List.mem_filter.1 hitem).1
    rw [String.toList_ofList]
    exact trim_subset (subset_of_mem_piecesOutsideQuotes hpart)
  | assign => exact subset_of_assignment h ht
  | controlledNot => exact subset_of_controlledNot h ht
  | prepare | hadamard | flip | measure | goto => exact subset_of_operand (fun _ => rfl) h ht
  | stop =>
    rw [parseAction] at h
    split at h
    · obtain rfl := Except.ok.inj h
      cases ht
    · cases h
  | remark =>
    obtain rfl := Except.ok.inj h
    obtain rfl := List.mem_singleton.1 ht
    rw [String.toList_ofList]
    exact List.Subset.refl _

/-- **Decoding makes up no characters.** -/
theorem subset_of_parseChars {cs : List Char} {s : Statement} (h : parseChars cs = .ok s) {t : String}
    (ht : t ∈ s.texts) : t.toList ⊆ cs := by
  induction hn : cs.length using Nat.strongRecOn generalizing cs s t with
  | ind n ih =>
    have hoperands : (firstWord (trim cs)).2 ⊆ cs :=
      List.Subset.trans (firstWord_subset (trim cs)) (trim_subset (List.Subset.refl cs))
    rw [parseChars] at h
    simp only at h
    split at h
    · split at h
      · cases h
      rename_i left right hsplit
      obtain ⟨hleft, hright⟩ := subset_of_splitThen? hsplit
      have hcondition : (String.ofList (trim left)).toList ⊆ cs := by
        rw [String.toList_ofList]
        exact trim_subset (List.Subset.trans hleft hoperands)
      have hbody : trim right ⊆ cs := trim_subset (List.Subset.trans hright hoperands)
      split at h
      · cases h
      split at h
      · obtain rfl := Except.ok.inj h
        rcases List.mem_pair.1 ht with rfl | rfl
        · exact hcondition
        · rwa [String.toList_ofList]
      split at h
      · cases h
      · cases h
      rename_i action hparse
      obtain rfl := Except.ok.inj h
      rcases List.mem_cons.1 ht with rfl | ht
      · exact hcondition
      · -- The body is shorter than the text, and its operands are those of the statement.
        have hlt : (trim right).length < n := by
          have h₁ := length_trim_le right
          have h₂ := length_splitThen?_lt hsplit
          have h₃ := length_firstWord_le (trim cs)
          have h₄ := length_trim_le cs
          omega
        exact List.Subset.trans (ih _ hlt hparse ht rfl) hbody
    · split at h
      · cases h
      rename_i keyword _
      cases haction : parseAction keyword (trim cs) (firstWord (trim cs)).2 with
      | error error =>
        rw [haction] at h
        cases h
      | ok action =>
        rw [haction] at h
        obtain rfl := Except.ok.inj h
        exact List.Subset.trans (subset_of_parseAction haction ht) hoperands

theorem subset_of_parse {text : String} {s : Statement} (h : parse text = .ok s) {t : String}
    (ht : t ∈ s.texts) : t.toList ⊆ text.toList :=
  subset_of_parseChars h ht

end Statement

/-! ## Listings -/

/-- The statement of a line is part of the text that the line is written as. -/
theorem Line.Written.subset {text : List Char} {line : Line} (h : Written text line) :
    line.statement.toList ⊆ text := by
  obtain @⟨digits, blanks, statement, -, -, -, -, -, -, -⟩ := h
  rw [String.toList_ofList]
  exact List.subset_append_right _ _

/-- Every line of a listing is written somewhere in the source. -/
theorem Listing.exists_written {texts : List (List Char)} {lines : List Line}
    (h : List.Forall₂ Line.Written texts lines) {line : Line} (hline : line ∈ lines) :
    ∃ text ∈ texts, Line.Written text line := by
  induction h with
  | nil => cases hline
  | @cons text first texts lines hfirst _ ih =>
    rcases List.mem_cons.1 hline with rfl | hrest
    · exact ⟨text, List.mem_cons_self, hfirst⟩
    · obtain ⟨text', htext', hwritten⟩ := ih hrest
      exact ⟨text', List.mem_cons_of_mem text htext', hwritten⟩

/-- The source is cut at its line feeds, so no statement holds one. -/
theorem Listing.newline_not_mem_statement {duplicates : DuplicatePolicy} {source : String}
    {listing : Listing} (h : parse duplicates source = .ok listing) {index : Nat} {line : Line}
    (hline : listing.line? index = some line) : '\n' ∉ line.statement.toList := by
  obtain ⟨lines, hlists, rfl, -⟩ := parse_eq_ok_iff.1 h
  have hsorted : line ∈ sort lines := by simpa using Array.mem_of_getElem? hline
  have hmem : line ∈ lines := (stableSort_sort lines).perm.mem_iff.1 hsorted
  obtain ⟨text, htext, hwritten⟩ := exists_written hlists hmem
  obtain ⟨part, hpart, rfl⟩ := List.mem_map.1 (List.mem_filter.1 htext).1
  intro hnewline
  exact not_mem_of_mem_pieces hpart (mem_of_mem_trim (hwritten.subset hnewline))

end QubitBasic
