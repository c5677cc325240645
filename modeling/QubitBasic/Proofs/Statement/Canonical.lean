/-
  Canonical actions: their operands decode back.

  An action is shown as its keyword and, after one space, its operands.  Each keyword puts its operands
  together in its own way, and an action is `Canonical` if cutting them apart in that way gives the
  action again.  Whatever is decoded is canonical (`canonical_of_parseAction`): the operands were
  trimmed, a `LET` has no equals sign and a `CNOT` no comma in what stands first, and the items of a
  `PRINT` are what cutting at semicolons leaves.
-/
import QubitBasic.Proofs.Statement.Then

namespace QubitBasic

open Text

/-! ## Keywords -/

namespace Keyword

theorem spelling_ne_nil (keyword : Keyword) : keyword.spelling.toList ≠ [] := by
  cases keyword <;> decide

theorem any_isBlank_spelling (keyword : Keyword) : keyword.spelling.toList.any isBlank = false := by
  cases keyword <;> decide

theorem any_isDigit_spelling (keyword : Keyword) :
    keyword.spelling.toList.any Char.isDigit = false := by
  cases keyword <;> decide

theorem upper_spelling (keyword : Keyword) :
    Statement.upper keyword.spelling.toList = keyword.spelling := by
  cases keyword <;> decide

theorem spelling_ne_if (keyword : Keyword) : keyword.spelling ≠ "IF" := by
  cases keyword <;> decide

theorem find?_spelling (keyword : Keyword) :
    all.find? (·.spelling == keyword.spelling) = some keyword := by
  cases keyword <;> decide

end Keyword

namespace Statement

/-! ## Words -/

theorem not_isBlank_of_mem {word : List Char} (h : word.any isBlank = false) :
    ∀ c ∈ word, isBlank c = false := by
  intro c hc
  simpa using List.any_eq_false.1 h c hc

theorem trimmed_of_any_isBlank {word : List Char} (h : word.any isBlank = false) : Trimmed word :=
  trimmed_of_forall (not_isBlank_of_mem h)

/-- A single word is its own first word. -/
theorem firstWord_of_any_isBlank {word : List Char} (h : word.any isBlank = false) :
    firstWord word = (word, []) := by
  rw [firstWord, cut?_eq_none (not_isBlank_of_mem h)]

theorem firstWord_append {word : List Char} (h : word.any isBlank = false) (rest : List Char) :
    firstWord (word ++ ' ' :: rest) = (word, trim rest) := by
  rw [firstWord, cut?_eq_some_iff.2 ⟨not_isBlank_of_mem h, ' ', by decide, rfl⟩]

theorem trimmed_firstWord (cs : List Char) : Trimmed (firstWord cs).2 := by
  unfold firstWord
  split
  · exact trimmed_nil
  · exact trimmed_trim _

/-! ## Actions -/

/-- The text of the operands decodes back to the action. -/
structure Canonical (action : Action) : Prop where
  trimmed : Trimmed action.operands.toList
  decodes : ∀ text, parseAction action.keyword text action.operands.toList = .ok action

theorem operand_eq_ok {text cs : List Char} {s : String} (h : operand text cs = .ok s) :
    cs ≠ [] ∧ s = String.ofList cs := by
  unfold operand at h
  split at h
  · cases h
  · rename_i hne
    exact ⟨by simpa using hne, (Except.ok.inj h).symm⟩

theorem operand_of_ne_nil (text : List Char) {cs : List Char} (h : cs ≠ []) :
    operand text cs = .ok (String.ofList cs) := by
  rw [operand, if_neg (by simpa using h)]

theorem trimmed_intercalate {glue item : List Char} {items : List (List Char)}
    (h : ∀ i ∈ item :: items, Trimmed i ∧ i ≠ []) :
    Trimmed (glue.intercalate (item :: items)) ∧ glue.intercalate (item :: items) ≠ [] := by
  obtain ⟨hitem, hne⟩ := h item List.mem_cons_self
  induction items generalizing item with
  | nil =>
    rw [List.intercalate_singleton]
    exact ⟨hitem, hne⟩
  | cons next items ih =>
    have hrest := fun i hi => h i (List.mem_cons_of_mem item hi)
    obtain ⟨hnext, hnextne⟩ := hrest next List.mem_cons_self
    obtain ⟨htrimmed, htne⟩ := ih hrest hnext hnextne
    rw [List.intercalate_cons_cons]
    exact ⟨hitem.append htrimmed hne htne, by simp [hne]⟩

/-- Items of a `PRINT` statement, put together with semicolons, are read as they were. -/
theorem printItems_intercalate {items : List (List Char)} (hsep : Separable ';' false items)
    (h : ∀ i ∈ items, Trimmed i ∧ i ≠ []) :
    printItems ([';', ' '].intercalate items) = items.map String.ofList := by
  cases items with
  | nil => rfl
  | cons item items =>
    have htrim : (item :: items.map (' ' :: ·)).map trim = item :: items := by
      rw [List.map_cons, (h item List.mem_cons_self).1.trim_eq, List.map_map]
      congr 1
      conv => rhs; rw [← List.map_id items]
      exact List.map_congr_left fun i hi => (h i (List.mem_cons_of_mem item hi)).1.trim_space_cons
    have hfilter : (item :: items).filter (!·.isEmpty) = item :: items := by
      rw [List.filter_eq_self]
      intro i hi
      simpa using (h i hi).2
    rw [printItems, pieces_intercalate (by decide) (by decide) item items hsep, htrim, hfilter]

theorem canonical_print (operands : List Char) : Canonical (.print (printItems operands)) := by
  let items := ((piecesOutsideQuotes ';' false operands).map trim).filter (!·.isEmpty)
  have hsep : Separable ';' false items :=
    (separable_piecesOutsideQuotes (by decide) false operands).map_trim.filter
  have hitems : ∀ i ∈ items, Trimmed i ∧ i ≠ [] := by
    intro i hi
    obtain ⟨hmem, hne⟩ := List.mem_filter.1 hi
    obtain ⟨piece, -, rfl⟩ := List.mem_map.1 hmem
    exact ⟨trimmed_trim piece, by simpa using hne⟩
  have htext : (Action.operands (.print (printItems operands))).toList =
      [';', ' '].intercalate items := by
    show ("; ".intercalate (items.map String.ofList)).toList = _
    rw [String.toList_intercalate, List.map_map]
    simp [Function.comp_def]
  constructor
  · rw [htext]
    cases hcases : items with
    | nil => exact trimmed_nil
    | cons item rest => exact (trimmed_intercalate (hcases ▸ hitems)).1
  · intro text
    rw [htext]
    show Except.ok (Action.print (printItems _)) = _
    rw [printItems_intercalate hsep hitems]
    rfl

theorem canonical_assign {text operands : List Char} {action : Action}
    (h : assignment text operands = .ok action) : Canonical action := by
  unfold assignment at h
  split at h
  · cases h
  rename_i left right hcut
  obtain ⟨hleft, -⟩ := cut?_eq_some_iff.1 hcut
  simp only at h
  split at h
  · cases h
  rename_i hname
  split at h
  · cases h
  rename_i hexpr
  obtain rfl := Except.ok.inj h
  have htext : (Action.operands (.assign (String.ofList (trim left))
      (String.ofList (trim right)))).toList = trim left ++ [' ', '=', ' '] ++ trim right := by
    show (String.ofList (trim left) ++ " = " ++ String.ofList (trim right)).toList = _
    simp
  constructor
  · rw [htext]
    refine (trimmed_trim left).append (trimmed_trim right) ?_ (by simpa using hexpr)
    intro hnil
    rw [hnil] at hname
    exact hname rfl
  · -- The name holds no equals sign, so the first one is the one put in between.
    intro text'
    have hcut' : cut? (· == '=') (trim left ++ [' ', '=', ' '] ++ trim right) =
        some (trim left ++ [' '], ' ' :: trim right) := by
      refine cut?_eq_some_iff.2 ⟨fun c hc => ?_, '=', by decide, by simp⟩
      rcases List.mem_append.1 hc with hc | hc
      · exact hleft c (mem_of_mem_trim hc)
      · rw [List.mem_singleton.1 hc]
        decide
    rw [htext]
    show assignment text' _ = _
    rw [assignment, hcut']
    simp only [(trimmed_trim left).trim_concat_space, (trimmed_trim right).trim_space_cons]
    rw [if_neg hname, if_neg hexpr]

theorem canonical_controlledNot {text operands : List Char} {action : Action}
    (h : controlledNot text operands = .ok action) : Canonical action := by
  unfold controlledNot at h
  split at h
  · cases h
  rename_i left right hcut
  obtain ⟨hleft, -⟩ := cut?_eq_some_iff.1 hcut
  cases hcontrol : operand text (trim left) with
  | error error =>
    rw [hcontrol] at h
    cases h
  | ok control =>
    cases htarget : operand text (trim right) with
    | error error =>
      rw [hcontrol, htarget] at h
      cases h
    | ok target =>
      rw [hcontrol, htarget] at h
      obtain rfl := Except.ok.inj h
      obtain ⟨hleftne, rfl⟩ := operand_eq_ok hcontrol
      obtain ⟨hrightne, rfl⟩ := operand_eq_ok htarget
      have htext : (Action.operands (.controlledNot (String.ofList (trim left))
          (String.ofList (trim right)))).toList = trim left ++ [','] ++ trim right := by
        show (String.ofList (trim left) ++ "," ++ String.ofList (trim right)).toList = _
        simp
      constructor
      · rw [htext]
        exact (trimmed_trim left).append (trimmed_trim right) hleftne hrightne
      · -- Nor does the control hold a comma.
        intro text'
        have hcut' : cut? (· == ',') (trim left ++ [','] ++ trim right) =
            some (trim left, trim right) :=
          cut?_eq_some_iff.2
            ⟨fun c hc => hleft c (mem_of_mem_trim hc), ',', by decide, by simp⟩
        rw [htext]
        show controlledNot text' _ = _
        rw [controlledNot, hcut']
        simp only [(trimmed_trim left).trim_eq, (trimmed_trim right).trim_eq]
        rw [operand_of_ne_nil text' hleftne, operand_of_ne_nil text' hrightne]
        rfl

/-- An action with a single operand. -/
theorem canonical_operand {text operands : List Char} {action : Action} {make : String → Action}
    (hparse : ∀ text cs, parseAction (make (String.ofList cs)).keyword text cs =
      (operand text cs).map make)
    (hoperands : ∀ s, (make s).operands = s) (htrimmed : Trimmed operands)
    (h : (operand text operands).map make = .ok action) : Canonical action := by
  cases hoperand : operand text operands with
  | error error =>
    rw [hoperand] at h
    cases h
  | ok s =>
    rw [hoperand] at h
    obtain rfl := Except.ok.inj h
    obtain ⟨hne, rfl⟩ := operand_eq_ok hoperand
    constructor
    · rw [hoperands, String.toList_ofList]
      exact htrimmed
    · intro text'
      rw [hoperands, String.toList_ofList, hparse, operand_of_ne_nil text' hne]
      rfl

/-- Every action that is decoded is canonical. -/
theorem canonical_of_parseAction {keyword : Keyword} {text operands : List Char} {action : Action}
    (htrimmed : Trimmed operands) (h : parseAction keyword text operands = .ok action) :
    Canonical action := by
  cases keyword with
  | print =>
    obtain rfl := Except.ok.inj h
    exact canonical_print operands
  | assign => exact canonical_assign h
  | prepare => exact canonical_operand (fun _ _ => rfl) (fun _ => rfl) htrimmed h
  | hadamard => exact canonical_operand (fun _ _ => rfl) (fun _ => rfl) htrimmed h
  | flip => exact canonical_operand (fun _ _ => rfl) (fun _ => rfl) htrimmed h
  | controlledNot => exact canonical_controlledNot h
  | measure => exact canonical_operand (fun _ _ => rfl) (fun _ => rfl) htrimmed h
  | goto => exact canonical_operand (fun _ _ => rfl) (fun _ => rfl) htrimmed h
  | stop =>
    rw [parseAction] at h
    split at h
    · obtain rfl := Except.ok.inj h
      exact ⟨trimmed_nil, fun _ => rfl⟩
    · cases h
  | remark =>
    obtain rfl := Except.ok.inj h
    have htext : (Action.operands (.remark (String.ofList operands))).toList = operands :=
      String.toList_ofList
    refine ⟨htext.symm ▸ htrimmed, fun text' => ?_⟩
    rw [htext]
    rfl

/-! ## The text of an action -/

theorem toList_display (action : Action) :
    action.display.toList = action.keyword.spelling.toList ++
      if action.operands.toList = [] then [] else ' ' :: action.operands.toList := by
  unfold Action.display
  by_cases h : action.operands = ""
  · rw [if_pos h, h]
    simp
  · have hne : action.operands.toList ≠ [] := by simpa using h
    rw [if_neg h, if_neg hne]
    show (action.keyword.spelling ++ " " ++ action.operands).toList = _
    simp

theorem Canonical.trimmed_display {action : Action} (h : Canonical action) :
    Trimmed action.display.toList := by
  have hword := trimmed_of_any_isBlank action.keyword.any_isBlank_spelling
  rw [toList_display]
  split
  · rw [List.append_nil]
    exact hword
  · rename_i hne
    have happend : Trimmed (action.keyword.spelling.toList ++ [' '] ++ action.operands.toList) :=
      hword.append h.trimmed action.keyword.spelling_ne_nil hne
    simpa using happend

theorem Canonical.firstWord_display {action : Action} (h : Canonical action) :
    firstWord action.display.toList = (action.keyword.spelling.toList, action.operands.toList) := by
  have hword := action.keyword.any_isBlank_spelling
  rw [toList_display]
  split
  · rename_i hnil
    rw [List.append_nil, firstWord_of_any_isBlank hword, hnil]
  · rw [firstWord_append hword, h.trimmed.trim_eq]

theorem display_ne_nil (action : Action) : action.display.toList ≠ [] := by
  rw [toList_display]
  simp [action.keyword.spelling_ne_nil]

theorem not_all_isDigit_display (action : Action) : action.display.toList.all Char.isDigit = false := by
  obtain ⟨c, cs, hcs⟩ := List.exists_cons_of_ne_nil action.keyword.spelling_ne_nil
  have hdigits := action.keyword.any_isDigit_spelling
  rw [hcs, List.any_cons, Bool.or_eq_false_iff] at hdigits
  rw [toList_display, hcs, List.cons_append, List.all_cons, hdigits.1]
  rfl

end Statement

end QubitBasic
