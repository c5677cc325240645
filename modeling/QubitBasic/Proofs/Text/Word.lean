/-
  Numbers of 64 bits as whole texts.

  A text denotes a number if it is a run of digits, after a plus sign if there is one, and the number has
  at most 64 bits (`Denotes`).  Digits that do not get past the bound `Fits`, and so do their first few.
  Hence a text that denotes no number has a first character which spoils it, because it is no digit or
  because it carries the number past the bound (`WordFault`).  Reading passes over digits that fit
  (`boundedNat_append`), so it ends with the number (`Denotes.word_eq`) or stops at that character
  (`WordFault.word_eq`), and one of the two is the case (`denotes_or_wordFault`).
-/
import Mathlib.Data.List.Induction
import QubitBasic.Text.Digits

namespace QubitBasic.Text

/-- Digits whose number has at most 64 bits. -/
structure Fits (ds : List Char) : Prop where
  digits : ∀ c ∈ ds, c.isDigit = true
  bounded : ofDigits ds ≤ greatestWord

/-- The text is digits, after a plus sign if there is one, and they are those of `n`, which has at most
    64 bits. -/
def Denotes (cs : List Char) (n : Nat) : Prop :=
  ∃ ds, (cs = ds ∨ cs = '+' :: ds) ∧ ds ≠ [] ∧ Fits ds ∧ ofDigits ds = n

/-- What follows a plus sign.  A plus sign that nothing follows is no sign. -/
def unsigned : List Char → List Char
  | '+' :: d :: ds => d :: ds
  | cs => cs

/-- Why a text denotes no number: there is none, or a character spoils the digits before it, which fit. -/
inductive WordFault (cs : List Char) : NumeralError → Prop
  | empty : cs = [] → WordFault cs .empty
  | invalidDigit {as bs : List Char} {c : Char} : unsigned cs = as ++ c :: bs → Fits as →
      c.isDigit = false → WordFault cs .invalidDigit
  | tooLarge {as bs : List Char} {c : Char} : unsigned cs = as ++ c :: bs → Fits as →
      c.isDigit = true → greatestWord < ofDigits (as ++ [c]) → WordFault cs .tooLarge

/-! ## Digits that fit -/

theorem ofDigits_concat (ds : List Char) (c : Char) :
    ofDigits (ds ++ [c]) = 10 * ofDigits ds + digitValue c := by
  rw [ofDigits, List.foldl_append]
  rfl

theorem fits_nil : Fits [] := ⟨by simp, Nat.zero_le _⟩

theorem fits_concat_iff {ds : List Char} {c : Char} :
    Fits (ds ++ [c]) ↔ Fits ds ∧ c.isDigit = true ∧ ofDigits (ds ++ [c]) ≤ greatestWord := by
  constructor
  · rintro ⟨hdigits, hbounded⟩
    have hsmaller : ofDigits ds ≤ greatestWord := by
      rw [ofDigits_concat] at hbounded
      omega
    exact ⟨⟨fun d hd => hdigits d (List.mem_append_left _ hd), hsmaller⟩, hdigits c (by simp),
      hbounded⟩
  · rintro ⟨⟨hdigits, -⟩, hc, hbounded⟩
    refine ⟨fun d hd => ?_, hbounded⟩
    rcases List.mem_append.1 hd with hd | hd
    · exact hdigits d hd
    · rwa [List.mem_singleton.1 hd]

/-- Either all characters fit, or one of them is the first that does not. -/
theorem fits_or_exists (cs : List Char) :
    Fits cs ∨ ∃ as c bs, cs = as ++ c :: bs ∧ Fits as ∧ ¬ Fits (as ++ [c]) := by
  induction cs using List.reverseRecOn with
  | nil => exact .inl fits_nil
  | append_singleton cs c ih =>
    rcases ih with hfits | ⟨as, d, bs, rfl, has, hd⟩
    · by_cases hc : Fits (cs ++ [c])
      · exact .inl hc
      · exact .inr ⟨cs, c, [], rfl, hfits, hc⟩
    · exact .inr ⟨as, d, bs ++ [c], by simp, has, hd⟩

/-! ## Reading -/

/-- Reading passes over digits that fit. -/
theorem boundedNat_append {as : List Char} (h : Fits as) (cs : List Char) :
    boundedNat greatestWord 0 (as ++ cs) = boundedNat greatestWord (ofDigits as) cs := by
  induction as using List.reverseRecOn generalizing cs with
  | nil => rfl
  | append_singleton as c ih =>
    obtain ⟨has, hc, hbounded⟩ := fits_concat_iff.1 h
    rw [List.append_assoc, ih has, List.singleton_append, boundedNat, ofDigits_concat]
    rw [ofDigits_concat] at hbounded
    simp [hc, Nat.not_lt.2 hbounded]

theorem boundedNat_of_fits {ds : List Char} (h : Fits ds) :
    boundedNat greatestWord 0 ds = .ok (ofDigits ds) := by
  have hread := boundedNat_append h []
  rwa [List.append_nil] at hread

theorem boundedNat_of_not_isDigit {as bs : List Char} {c : Char} (h : Fits as)
    (hc : c.isDigit = false) :
    boundedNat greatestWord 0 (as ++ c :: bs) = .error .invalidDigit := by
  rw [boundedNat_append h, boundedNat]
  simp [hc]

theorem boundedNat_of_greatestWord_lt {as bs : List Char} {c : Char} (h : Fits as)
    (hc : c.isDigit = true) (hlarge : greatestWord < ofDigits (as ++ [c])) :
    boundedNat greatestWord 0 (as ++ c :: bs) = .error .tooLarge := by
  rw [boundedNat_append h, boundedNat]
  rw [ofDigits_concat] at hlarge
  simp [hc, hlarge]

/-! ## Whole texts -/

theorem unsigned_cons (c : Char) (cs : List Char) : unsigned (c :: cs) ≠ [] := by
  unfold unsigned
  split
  · simp
  · simp

theorem word_of_ne_nil {cs : List Char} (h : cs ≠ []) :
    word cs = boundedNat greatestWord 0 (unsigned cs) := by
  rw [word.eq_def]
  split
  · exact absurd rfl h
  · rfl
  · rename_i hsign
    rw [unsigned.eq_def]
    split
    · exact absurd rfl (hsign _ _)
    · rfl

/-- A run of digits starts with no sign. -/
theorem unsigned_of_fits {ds : List Char} (h : Fits ds) : unsigned ds = ds := by
  rw [unsigned.eq_def]
  split
  · exact absurd (h.digits '+' List.mem_cons_self) (by decide)
  · rfl

theorem denotes_iff {cs : List Char} {n : Nat} :
    Denotes cs n ↔ cs ≠ [] ∧ Fits (unsigned cs) ∧ ofDigits (unsigned cs) = n := by
  constructor
  · rintro ⟨ds, rfl | rfl, hne, hfits, rfl⟩
    · rw [unsigned_of_fits hfits]
      exact ⟨hne, hfits, rfl⟩
    · obtain ⟨d, ds, rfl⟩ := List.exists_cons_of_ne_nil hne
      exact ⟨List.cons_ne_nil _ _, hfits, rfl⟩
  · rintro ⟨hne, hfits, rfl⟩
    refine ⟨unsigned cs, ?_, ?_, hfits, rfl⟩
    · rw [unsigned.eq_def]
      split
      · exact .inr rfl
      · exact .inl rfl
    · obtain ⟨c, cs, rfl⟩ := List.exists_cons_of_ne_nil hne
      exact unsigned_cons c cs

theorem WordFault.word_eq {cs : List Char} {error : NumeralError} (h : WordFault cs error) :
    word cs = .error error := by
  have hne : ∀ {as bs : List Char} {c : Char}, unsigned cs = as ++ c :: bs → cs ≠ [] := by
    rintro as bs c hcs rfl
    simp [unsigned] at hcs
  cases h with
  | empty hnil =>
    rw [hnil]
    rfl
  | invalidDigit hcs has hc => rw [word_of_ne_nil (hne hcs), hcs, boundedNat_of_not_isDigit has hc]
  | tooLarge hcs has hc hlarge =>
    rw [word_of_ne_nil (hne hcs), hcs, boundedNat_of_greatestWord_lt has hc hlarge]

/-- A text denotes a number, or something is wrong with it. -/
theorem denotes_or_wordFault (cs : List Char) :
    (∃ n, Denotes cs n) ∨ ∃ error, WordFault cs error := by
  by_cases hnil : cs = []
  · exact .inr ⟨.empty, .empty hnil⟩
  rcases fits_or_exists (unsigned cs) with hfits | ⟨as, c, bs, hcs, has, hspoilt⟩
  · exact .inl ⟨_, denotes_iff.2 ⟨hnil, hfits, rfl⟩⟩
  · cases hc : c.isDigit with
    | false => exact .inr ⟨_, .invalidDigit hcs has hc⟩
    | true =>
      refine .inr ⟨_, .tooLarge hcs has hc (Nat.lt_of_not_le fun hbounded => ?_)⟩
      exact hspoilt (fits_concat_iff.2 ⟨has, hc, hbounded⟩)

theorem Denotes.word_eq {cs : List Char} {n : Nat} (h : Denotes cs n) : word cs = .ok n := by
  obtain ⟨hne, hfits, rfl⟩ := denotes_iff.1 h
  rw [word_of_ne_nil hne, boundedNat_of_fits hfits]

theorem Denotes.le_greatestWord {cs : List Char} {n : Nat} (h : Denotes cs n) :
    n ≤ greatestWord := by
  obtain ⟨ds, -, -, hfits, rfl⟩ := h
  exact hfits.bounded

end QubitBasic.Text
