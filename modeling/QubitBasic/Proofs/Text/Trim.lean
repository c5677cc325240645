/-
  Trimming and cutting.

  A text is `Trimmed` if it neither starts nor ends with a blank.  Trimming splits a text into blanks, a
  trimmed middle and blanks (`exists_trim`), and whenever a text splits that way the middle is what
  trimming gives (`trim_append`): so trimming can be computed without looking at characters.  In the same
  way a cut is made exactly where no earlier character could have been cut at (`cut?_eq_some_iff`).
-/
import QubitBasic.Text.Blank
import QubitBasic.Text.Split

namespace QubitBasic.Text

/-! ## Trimmed texts -/

/-- All characters are blanks. -/
def Blanks (cs : List Char) : Prop := ∀ c ∈ cs, isBlank c = true

/-- The text neither starts nor ends with a blank. -/
structure Trimmed (cs : List Char) : Prop where
  head : ∀ c ∈ cs.head?, isBlank c = false
  last : ∀ c ∈ cs.getLast?, isBlank c = false

theorem trimmed_of_forall {cs : List Char} (h : ∀ c ∈ cs, isBlank c = false) : Trimmed cs where
  head c hc := h c (List.mem_of_head? hc)
  last c hc := h c (List.mem_of_getLast? hc)

theorem trimmed_nil : Trimmed [] := trimmed_of_forall fun _ h => by cases h

/-- Two trimmed texts with anything between them make a trimmed text. -/
theorem Trimmed.append {as bs cs : List Char} (ha : Trimmed as) (hc : Trimmed cs) (hane : as ≠ [])
    (hcne : cs ≠ []) : Trimmed (as ++ bs ++ cs) := by
  constructor
  · intro c h
    obtain ⟨a, as, rfl⟩ := List.exists_cons_of_ne_nil hane
    exact ha.head c h
  · intro c h
    rw [List.getLast?_append, List.getLast?_eq_some_getLast hcne, Option.some_or] at h
    exact hc.last c (List.getLast?_eq_some_getLast hcne ▸ h)

/-- A trimmed text ends with no blanks. -/
theorem Trimmed.eq_nil_of_blanks {as bs : List Char} (h : Trimmed (as ++ bs)) (hb : Blanks bs) :
    bs = [] := by
  cases hlast : bs.getLast? with
  | none => exact List.getLast?_eq_none_iff.1 hlast
  | some c =>
    have hc : isBlank c = false := by
      refine h.last c ?_
      rw [List.getLast?_append, hlast]
      rfl
    rw [hb c (List.mem_of_getLast? hlast)] at hc
    cases hc

theorem dropWhile_blanks_append {as cs : List Char} (ha : Blanks as)
    (hc : ∀ c ∈ cs.head?, isBlank c = false) : (as ++ cs).dropWhile isBlank = cs := by
  rw [List.dropWhile_append_of_pos ha]
  cases cs with
  | nil => rfl
  | cons c cs => rw [List.dropWhile_cons_of_neg (by rw [hc c rfl]; decide)]

/-- Whatever blanks stand around a trimmed text, trimming gives the text. -/
theorem trim_append {as bs cs : List Char} (ha : Blanks as) (hb : Blanks bs) (hc : Trimmed cs) :
    trim (as ++ cs ++ bs) = cs := by
  have hbr : Blanks bs.reverse := fun c h => hb c (List.mem_reverse.1 h)
  cases hcs : cs with
  | nil =>
    -- Nothing but blanks: the start of the trimming takes them all.
    have hall : Blanks (as ++ [] ++ bs) := by
      intro c h
      rcases List.mem_append.1 h with h | h
      · exact ha c (by simpa using h)
      · exact hb c h
    have hstart : trimStart (as ++ [] ++ bs) = [] := by
      have hdrop : (as ++ [] ++ bs ++ []).dropWhile isBlank = [] :=
        dropWhile_blanks_append hall (fun _ h => by cases h)
      rwa [List.append_nil] at hdrop
    rw [trim, hstart]
    rfl
  | cons c rest =>
    rw [← hcs]
    have hstart : trimStart (as ++ cs ++ bs) = cs ++ bs := by
      rw [trimStart, List.append_assoc]
      refine dropWhile_blanks_append ha fun d hd => hc.head d ?_
      rw [hcs] at hd ⊢
      exact hd
    rw [trim, hstart, trimEnd, List.reverse_append, dropWhile_blanks_append hbr, List.reverse_reverse]
    intro d hd
    rw [List.head?_reverse] at hd
    exact hc.last d hd

theorem blanks_nil : Blanks [] := fun _ h => by cases h

theorem blanks_space : Blanks [' '] := by
  intro c h
  rw [List.mem_singleton.1 h]
  decide

theorem Trimmed.trim_eq {cs : List Char} (h : Trimmed cs) : trim cs = cs := by
  simpa using trim_append blanks_nil blanks_nil h

theorem Trimmed.trim_space_cons {cs : List Char} (h : Trimmed cs) : trim (' ' :: cs) = cs := by
  simpa using trim_append blanks_space blanks_nil h

theorem Trimmed.trim_concat_space {cs : List Char} (h : Trimmed cs) : trim (cs ++ [' ']) = cs := by
  simpa using trim_append blanks_nil blanks_space h

theorem blanks_takeWhile (cs : List Char) : Blanks (cs.takeWhile isBlank) := by
  intro c h
  exact List.all_eq_true.1 List.all_takeWhile c h

theorem head?_dropWhile_isBlank (cs : List Char) :
    ∀ c ∈ (cs.dropWhile isBlank).head?, isBlank c = false := by
  intro c h
  have hnot := List.head?_dropWhile_not isBlank cs
  rw [Option.mem_def.1 h] at hnot
  simpa using hnot

/-- A text is blanks, what trimming gives, and blanks. -/
theorem exists_trim (cs : List Char) :
    ∃ as bs, Blanks as ∧ Blanks bs ∧ Trimmed (trim cs) ∧ cs = as ++ trim cs ++ bs := by
  have hend : trimStart cs = trim cs ++ ((trimStart cs).reverse.takeWhile isBlank).reverse := by
    rw [trim, trimEnd, ← List.reverse_append, List.takeWhile_append_dropWhile, List.reverse_reverse]
  refine ⟨cs.takeWhile isBlank, ((trimStart cs).reverse.takeWhile isBlank).reverse,
    blanks_takeWhile cs, ?_, ⟨?_, ?_⟩, ?_⟩
  · intro c h
    exact blanks_takeWhile _ c (List.mem_reverse.1 h)
  · intro c h
    refine head?_dropWhile_isBlank cs c ?_
    show c ∈ (trimStart cs).head?
    rw [hend, List.head?_append, Option.mem_def.1 h]
    rfl
  · intro c h
    rw [trim, trimEnd, List.getLast?_reverse] at h
    exact head?_dropWhile_isBlank _ c h
  · rw [List.append_assoc, ← hend, trimStart, List.takeWhile_append_dropWhile]

theorem trimmed_trim (cs : List Char) : Trimmed (trim cs) := by
  obtain ⟨as, bs, -, -, htrimmed, -⟩ := exists_trim cs
  exact htrimmed

theorem mem_of_mem_trim {c : Char} {cs : List Char} (h : c ∈ trim cs) : c ∈ cs := by
  obtain ⟨as, bs, -, -, -, hcs⟩ := exists_trim cs
  rw [hcs]
  exact List.mem_append_left _ (List.mem_append_right _ h)

/-! ## Cuts -/

/-- A cut is made at the first character of the class. -/
theorem cut?_eq_some_iff {p : Char → Bool} {cs l r : List Char} :
    cut? p cs = some (l, r) ↔ (∀ c ∈ l, p c = false) ∧ ∃ c, p c = true ∧ cs = l ++ c :: r := by
  induction cs generalizing l with
  | nil => simp [cut?]
  | cons d cs ih =>
    rw [cut?]
    cases hd : p d with
    | true =>
      constructor
      · intro h
        obtain ⟨rfl, rfl⟩ : [] = l ∧ cs = r := by simpa using h
        exact ⟨List.forall_mem_nil _, d, hd, rfl⟩
      · rintro ⟨hl, c, -, hcs⟩
        cases l with
        | nil =>
          obtain ⟨rfl, rfl⟩ := List.cons.inj hcs
          rfl
        | cons e l =>
          obtain ⟨rfl, -⟩ := List.cons.inj hcs
          rw [hl d List.mem_cons_self] at hd
          cases hd
    | false =>
      constructor
      · intro h
        obtain ⟨⟨l', r'⟩, hcut, heq⟩ := Option.map_eq_some_iff.1 h
        obtain ⟨rfl, rfl⟩ : d :: l' = l ∧ r' = r := by simpa using heq
        obtain ⟨hl, c, hc, rfl⟩ := ih.1 hcut
        refine ⟨fun e he => ?_, c, hc, rfl⟩
        rcases List.mem_cons.1 he with rfl | he
        · exact hd
        · exact hl e he
      · rintro ⟨hl, c, hc, hcs⟩
        cases l with
        | nil =>
          obtain ⟨rfl, -⟩ := List.cons.inj hcs
          rw [hc] at hd
          cases hd
        | cons e l =>
          obtain ⟨rfl, hrest⟩ := List.cons.inj hcs
          have hcut := ih.2 ⟨fun e he => hl e (List.mem_cons_of_mem d he), c, hc, hrest⟩
          simp [hcut]

theorem cut?_eq_none {p : Char → Bool} {cs : List Char} (h : ∀ c ∈ cs, p c = false) :
    cut? p cs = none := by
  cases hcut : cut? p cs with
  | none => rfl
  | some parts =>
    obtain ⟨-, c, hc, rfl⟩ := cut?_eq_some_iff.1 hcut
    rw [h c (by simp)] at hc
    cases hc

end QubitBasic.Text
