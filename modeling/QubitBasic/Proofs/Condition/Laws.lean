/-
  The laws of comparisons.

  Two sides and a comparison between them make a condition that is cut at that comparison again
  (`Side.holds_append`): the left side hides all its marks in quotes and closes them, and the right side
  does not start with a mark that would make the comparison longer.  So whether the condition holds is a
  question about the loose order of the two values alone, and the laws that a reader expects of `<`, `=`
  and the others are laws of that order: it turns around with the sides, and it is one of three unless one
  of two numbers is no number (`conditions_obey_order`).
-/
import Mathlib.Logic.ExistsUnique
import QubitBasic.Proofs.Condition.Split
import QubitBasic.Proofs.Value.Order

namespace QubitBasic

namespace Comparison

/-! ## Comparisons of an order that may be missing -/

/-- The comparison that says the same with the sides exchanged. -/
def converse : Comparison → Comparison
  | .eq => .eq
  | .ne => .ne
  | .lt => .gt
  | .gt => .lt
  | .le => .ge
  | .ge => .le

theorem holds_converse (op : Comparison) (o : Option Ordering) :
    op.converse.holds (o.map Ordering.swap) = op.holds o := by
  cases o with
  | none => cases op <;> rfl
  | some o => cases op <;> cases o <;> rfl

theorem holds_ne (o : Option Ordering) : ne.holds o = !eq.holds o := rfl

theorem holds_le_iff (o : Option Ordering) :
    le.holds o = true ↔ lt.holds o = true ∨ eq.holds o = true :=
  Bool.or_eq_true_iff

/-- An order is exactly one of three, if there is one. -/
theorem existsUnique_holds_iff (o : Option Ordering) :
    (∃! op, op ∈ [lt, eq, gt] ∧ op.holds o = true) ↔ o ≠ none := by
  constructor
  · rintro ⟨op, ⟨hop, hholds⟩, -⟩ rfl
    cases op <;> simp_all [holds]
  · intro ho
    cases o with
    | none => exact absurd rfl ho
    | some o =>
      cases o with
      | lt => exact ⟨lt, ⟨by simp, rfl⟩, fun op hop => by cases op <;> simp_all [holds]⟩
      | eq => exact ⟨eq, ⟨by simp, rfl⟩, fun op hop => by cases op <;> simp_all [holds]⟩
      | gt => exact ⟨gt, ⟨by simp, rfl⟩, fun op hop => by cases op <;> simp_all [holds]⟩

end Comparison

namespace Condition

open Comparison

/-- A side does not start with a mark. -/
theorem Side.longestBefore {right : String} (h : Side right) (op : Comparison) :
    op.LongestBefore right.toList := by
  have hhead : ∀ c, IsMark c → right.toList.head? ≠ some c := by
    intro c hc hsome
    obtain ⟨rest, hrest⟩ := List.head?_eq_some_iff.1 hsome
    exact absurd (h.covered [] c rest hrest hc) (by decide)
  exact ⟨fun _ => ⟨hhead '>' (by decide), hhead '=' (by decide)⟩, fun _ => hhead '=' (by decide)⟩

/-- Two sides are compared by the comparison that is written between them. -/
theorem Side.holds_append {left right : String} (hleft : Side left) (hright : Side right)
    (vars : Variables) (op : Comparison) :
    holds vars (left ++ op.symbol ++ right) =
      op.holds ((evaluate vars left).compare? (evaluate vars right)) := by
  have hsplit := split?_eq_some_iff.2 ⟨rfl, hleft, hright.longestBefore op⟩
  rw [holds, hsplit]

/-- **Comparisons are those of an order.**  For any two sides and whatever variables: `<` and `>`, and
    `<=` and `>=`, say the same with the sides exchanged, and so do `=` and `<>`; `<>` is what `=` is not,
    `<=` is `<` or `=`; and exactly one of `<`, `=` and `>` holds unless both sides read as numbers and
    one of them is no number. -/
theorem conditions_obey_order (vars : Variables) {left right : String} (hleft : Side left)
    (hright : Side right) :
    (holds vars (left ++ "<" ++ right) = holds vars (right ++ ">" ++ left)) ∧
    (holds vars (left ++ "<=" ++ right) = holds vars (right ++ ">=" ++ left)) ∧
    (holds vars (left ++ "=" ++ right) = holds vars (right ++ "=" ++ left)) ∧
    (holds vars (left ++ "<>" ++ right) = holds vars (right ++ "<>" ++ left)) ∧
    (holds vars (left ++ "<>" ++ right) = !holds vars (left ++ "=" ++ right)) ∧
    (holds vars (left ++ "<=" ++ right) = true ↔
      holds vars (left ++ "<" ++ right) = true ∨ holds vars (left ++ "=" ++ right) = true) ∧
    ((∃! op : Comparison, op ∈ [.lt, .eq, .gt] ∧ holds vars (left ++ op.symbol ++ right) = true) ↔
      ¬ (evaluate vars left).Unordered (evaluate vars right)) := by
  have hhere := hleft.holds_append hright vars
  have hexchanged : ∀ op : Comparison, holds vars (left ++ op.symbol ++ right) =
      holds vars (right ++ op.converse.symbol ++ left) := by
    intro op
    rw [hhere, hright.holds_append hleft, ← holds_converse, ← Value.compare?_swap]
  refine ⟨hexchanged .lt, hexchanged .le, hexchanged .eq, hexchanged .ne, ?_, ?_, ?_⟩
  · have hne := holds_ne ((evaluate vars left).compare? (evaluate vars right))
    rw [← hhere, ← hhere] at hne
    exact hne
  · have hle := holds_le_iff ((evaluate vars left).compare? (evaluate vars right))
    rw [← hhere, ← hhere, ← hhere] at hle
    exact hle
  · simp only [hhere, existsUnique_holds_iff, Ne, Value.compare?_eq_none_iff]

/-- A text in quotes that reads as a number, against a name: compared as numbers, not as texts. -/
theorem conditions_obey_order_mixed :
    let vars : Variables := ⟨[("A", .number (Decimal.toFloat ⟨9, 0⟩))]⟩
    Side "\"10\" " ∧ Side " A" ∧ holds vars "\"10\" > A" = true ∧ holds vars " A<\"10\" " = true ∧
      holds vars "\"10\" <= A" = false ∧
      ∃! op : Comparison, op ∈ [.lt, .eq, .gt] ∧ holds vars ("\"10\" " ++ op.symbol ++ " A") = true := by
  intro vars
  have hleft : Side "\"10\" " := ⟨by decide, split?_eq_none_iff.1 rfl⟩
  have hright : Side " A" := ⟨by decide, split?_eq_none_iff.1 rfl⟩
  obtain ⟨hlt, -, -, -, -, -, -⟩ := conditions_obey_order vars hright hleft
  obtain ⟨-, -, -, -, -, -, hone⟩ := conditions_obey_order vars hleft hright
  have hgt : holds vars "\"10\" > A" = true := by decide +kernel
  have horder : (evaluate vars "\"10\" ").compare? (evaluate vars " A") = some .gt := by
    decide +kernel
  refine ⟨hleft, hright, hgt, hlt.trans hgt, by decide +kernel, hone.2 fun hunordered => ?_⟩
  rw [Value.compare?_eq_none_iff.2 hunordered] at horder
  cases horder

end Condition

end QubitBasic
