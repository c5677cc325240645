/-
  The order of a listing, and lines that share a number.

  Sorting puts lines in the order of their numbers and is stable: it loses and adds nothing, and the
  lines of one number stay in the order they stand in (`stableSort_sort`).  That leaves it no choice.
  The first line of an ordered list has the least number there is and is the first one of that number,
  so two ordered lists in which every number has the same lines are equal (`Sorted.eq_of_numbered`).

  In an ordered list lines that share a number are neighbours, and the first two of them have the least
  number that occurs twice (`duplicate?_spec`).
-/
import Mathlib.Data.List.Basic
import Mathlib.Order.Bounds.Defs
import QubitBasic.Proofs.Listing.Search

namespace QubitBasic.Listing

/-! ## Stability -/

/-- The lines of one number, in the order they stand in. -/
def numbered (number : Nat) (lines : List Line) : List Line :=
  lines.filter fun line => line.number = number

theorem numbered_append (number : Nat) (lines lines' : List Line) :
    numbered number (lines ++ lines') = numbered number lines ++ numbered number lines' :=
  List.filter_append _ _

theorem numbered_eq_nil {number : Nat} {lines : List Line} (h : ∀ line ∈ lines, line.number ≠ number) :
    numbered number lines = [] :=
  List.filter_eq_nil_iff.2 fun line hline => by simpa using h line hline

/-- `ordered` holds the lines in the order of their numbers, and those of equal number in the order they
    stand in. -/
structure StableSort (lines ordered : List Line) : Prop where
  perm : ordered.Perm lines
  sorted : Sorted ordered
  stable : ∀ number, numbered number ordered = numbered number lines

theorem perm_insert (line : Line) (lines : List Line) :
    (insert line lines).Perm (line :: lines) := by
  induction lines with
  | nil => exact List.Perm.refl _
  | cons first rest ih =>
    rw [insert]
    split
    · exact List.Perm.refl _
    · exact (ih.cons first).trans (List.Perm.swap line first rest)

/-- A line passes only lines of smaller numbers, never one of its own. -/
theorem numbered_insert (number : Nat) (line : Line) (lines : List Line) :
    numbered number (insert line lines) = numbered number (line :: lines) := by
  induction lines with
  | nil => rfl
  | cons first rest ih =>
    rw [insert]
    split
    case isTrue _ => rfl
    case isFalse hle =>
      have hne : ¬ (line.number = number ∧ first.number = number) := by omega
      rw [numbered, List.filter_cons, ← numbered, ih]
      by_cases hfirst : first.number = number
      · have hline : ¬ line.number = number := fun h => hne ⟨h, hfirst⟩
        simp [numbered, hfirst, hline]
      · simp [numbered, List.filter_cons, hfirst]

theorem stableSort_sort (lines : List Line) : StableSort lines (sort lines) := by
  refine ⟨?_, sorted_sort lines, ?_⟩
  · induction lines with
    | nil => exact List.Perm.refl _
    | cons line rest ih => exact (perm_insert line (sort rest)).trans (ih.cons line)
  · intro number
    induction lines with
    | nil => rfl
    | cons line rest ih =>
      show numbered number (insert line (sort rest)) = _
      rw [numbered_insert, numbered, numbered, List.filter_cons, List.filter_cons, ← numbered, ih]
      rfl

/-! ## Uniqueness -/

theorem numbered_cons_self (line : Line) (lines : List Line) :
    numbered line.number (line :: lines) = line :: numbered line.number lines := by
  rw [numbered, List.filter_cons_of_pos (by simp)]
  rfl

theorem mem_of_mem_numbered {number : Nat} {line : Line} {lines : List Line}
    (h : line ∈ numbered number lines) : line ∈ lines :=
  (List.mem_filter.1 h).1

theorem Sorted.head_le {first line : Line} {rest : List Line} (h : Sorted (first :: rest))
    (hline : line ∈ first :: rest) : first.number ≤ line.number := by
  rcases List.mem_cons.1 hline with rfl | hrest
  · exact Nat.le_refl _
  · exact (List.pairwise_cons.1 h).1 line hrest

/-- No list with the same lines of each number starts with a smaller number than an ordered one. -/
theorem Sorted.head_le_of_numbered {first first' : Line} {rest rest' : List Line}
    (h : Sorted (first :: rest))
    (hsame : ∀ number, numbered number (first :: rest) = numbered number (first' :: rest')) :
    first.number ≤ first'.number := by
  have hmem : first' ∈ numbered first'.number (first :: rest) := by
    rw [hsame, numbered_cons_self]
    exact List.mem_cons_self
  exact h.head_le (mem_of_mem_numbered hmem)

/-- The lines of each number determine an ordered list. -/
theorem Sorted.eq_of_numbered {lines lines' : List Line} (h : Sorted lines) (h' : Sorted lines')
    (hsame : ∀ number, numbered number lines = numbered number lines') : lines = lines' := by
  induction lines generalizing lines' with
  | nil =>
    cases lines' with
    | nil => rfl
    | cons first' rest' =>
      have hnil := hsame first'.number
      rw [numbered_cons_self] at hnil
      cases hnil
  | cons first rest ih =>
    cases lines' with
    | nil =>
      have hnil := hsame first.number
      rw [numbered_cons_self] at hnil
      cases hnil
    | cons first' rest' =>
      -- Both start with the least number there is, and with the first line of that number.
      have hle := h.head_le_of_numbered hsame
      have hge := h'.head_le_of_numbered fun number => (hsame number).symm
      have hnumber : first.number = first'.number := Nat.le_antisymm hle hge
      have hfirst := hsame first.number
      rw [numbered_cons_self, hnumber, numbered_cons_self] at hfirst
      obtain rfl : first = first' := (List.cons.inj hfirst).1
      refine congrArg (first :: ·) (ih (List.pairwise_cons.1 h).2 (List.pairwise_cons.1 h').2 ?_)
      intro number
      have hrest := hsame number
      rw [numbered, numbered, List.filter_cons, List.filter_cons] at hrest
      split at hrest
      · exact (List.cons.inj hrest).2
      · exact hrest

theorem StableSort.eq {lines lines' ordered ordered' : List Line} (h : StableSort lines ordered)
    (h' : StableSort lines' ordered')
    (hsame : ∀ number, numbered number lines = numbered number lines') : ordered = ordered' := by
  refine h.sorted.eq_of_numbered h'.sorted fun number => ?_
  rw [h.stable, hsame, ← h'.stable]

/-! ## Lines that share a number -/

/-- More than one line has the number. -/
def Repeated (lines : List Line) (number : Nat) : Prop :=
  1 < (lines.map Line.number).count number

instance (lines : List Line) (number : Nat) : Decidable (Repeated lines number) :=
  inferInstanceAs (Decidable (1 < _))

theorem Repeated.exists_mem {lines : List Line} {number : Nat} (h : Repeated lines number) :
    ∃ line ∈ lines, line.number = number :=
  List.mem_map.1 (List.count_pos_iff.1 (Nat.lt_trans Nat.zero_lt_one h))

/-- A line whose number no other line has repeats nothing. -/
theorem repeated_cons {line : Line} {lines : List Line}
    (hnew : ∀ other ∈ lines, other.number ≠ line.number) (number : Nat) :
    Repeated (line :: lines) number ↔ Repeated lines number := by
  have hcount : (lines.map Line.number).count line.number = 0 := by
    rw [List.count_eq_zero]
    intro hmem
    obtain ⟨other, hother, hnumber⟩ := List.mem_map.1 hmem
    exact hnew other hother hnumber
  rw [Repeated, Repeated, List.map_cons, List.count_cons]
  by_cases h : line.number = number
  · rw [← h, hcount]
    simp
  · simp [h]

/-- What the scan for neighbours of equal numbers finds in an ordered list. -/
theorem duplicate?_spec {lines : List Line} (h : Sorted lines) :
    match duplicate? lines with
    | some number => IsLeast {n | Repeated lines n} number
    | none => ∀ number, ¬ Repeated lines number := by
  induction lines with
  | nil => exact fun number hrep => absurd hrep (by simp [Repeated])
  | cons first rest ih =>
    obtain ⟨hfirst, hrest⟩ := List.pairwise_cons.1 h
    cases rest with
    | nil =>
      intro number hrep
      have hle := List.count_le_length (a := number) (l := [first].map Line.number)
      exact absurd hrep (Nat.not_lt_of_le hle)
    | cons second rest =>
      rw [duplicate?]
      by_cases hsame : first.number = second.number
      · rw [if_pos hsame]
        refine ⟨?_, fun number hrep => ?_⟩
        · show 1 < _
          simp only [List.map_cons, ← hsame, List.count_cons_self]
          omega
        · obtain ⟨line, hline, rfl⟩ := Repeated.exists_mem hrep
          exact h.head_le hline
      · -- The first number is smaller than all that follow.
        have hnew : ∀ other ∈ second :: rest, other.number ≠ first.number := by
          intro other hother
          have hle := Sorted.head_le hrest hother
          have hlt := Nat.lt_of_le_of_ne (hfirst second List.mem_cons_self) hsame
          omega
        have hrep : Repeated (first :: second :: rest) = Repeated (second :: rest) :=
          funext fun number => propext (repeated_cons hnew number)
        rw [if_neg hsame, hrep]
        exact ih hrest

theorem repeated_of_perm {lines lines' : List Line} (h : lines.Perm lines') :
    Repeated lines = Repeated lines' := by
  funext number
  rw [Repeated, Repeated, (h.map Line.number).count_eq]

end QubitBasic.Listing
