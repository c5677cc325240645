/-
  The loose order of values.

  Two values that both read as numbers are compared as doubles, any other two as texts.  Texts are totally
  ordered.  Doubles are too, but for what is no number: the three questions that a comparison of doubles
  asks (smaller, greater, equal) are one question about their unpacked forms (`compareNumbers_eq`), whose
  answer turns around when the two are exchanged and is missing exactly if one of them is no number.

  Both facts carry over to values (`compare?_swap`, `compare?_eq_none_iff`), since it does not depend on
  the order in which two values are given how they are compared.
-/
import Mathlib
import QubitBasic.Value

namespace QubitBasic

open Float.Model (UnpackedFloat)

/-! ## Doubles -/

theorem compare_sign_swap (s t : UnpackedFloat.Sign) : compare t s = (compare s t).swap := by
  cases s <;> cases t <;> rfl

theorem unpacked_compare_swap (a b : UnpackedFloat) :
    b.compare a = (a.compare b).map Ordering.swap := by
  cases a with
  | notANumber => cases b <;> rfl
  | infinity s =>
    cases b with
    | notANumber => cases s <;> rfl
    | infinity t => exact congrArg some (compare_sign_swap s t)
    | zero t => cases s <;> rfl
    | finite t m e hm => cases s <;> cases t <;> rfl
  | zero s =>
    cases b with
    | notANumber => rfl
    | infinity t => cases t <;> rfl
    | zero t => rfl
    | finite t m e hm => cases t <;> rfl
  | finite s m e hm =>
    cases b with
    | notANumber => cases s <;> rfl
    | infinity t => cases s <;> cases t <;> rfl
    | zero t => cases s <;> rfl
    | finite t m' e' hm' =>
      -- Only numbers of one sign are compared by their exponents and mantissas.
      cases s <;> cases t
      case negative.positive => rfl
      case positive.negative => rfl
      case negative.negative =>
        simp [UnpackedFloat.compare, Ordering.swap_then, Int.compare_swap, Nat.compare_swap]
      case positive.positive =>
        simp [UnpackedFloat.compare, Ordering.swap_then, Int.compare_swap, Nat.compare_swap]

theorem unpacked_compare_eq_none_iff {a b : UnpackedFloat} :
    a.compare b = none ↔ a.isNaN = true ∨ b.isNaN = true := by
  fun_cases UnpackedFloat.compare a b <;> simp [UnpackedFloat.isNaN]

variable {a b : Float}

theorem lt_iff_compare : a < b ↔ a.toModel.unpack.compare b.toModel.unpack = some .lt := by
  show decide (a.toModel < b.toModel) = true ↔ _
  rw [decide_eq_true_iff]
  exact beq_iff_eq

theorem beq_iff_compare :
    (a == b) = true ↔ a.toModel.unpack.compare b.toModel.unpack = some .eq := by
  show (a.toModel.unpack.compare b.toModel.unpack == some .eq) = true ↔ _
  exact beq_iff_eq

/-- The questions whether a double is smaller, greater or equal are one question. -/
theorem compareNumbers_eq (a b : Float) :
    compareNumbers a b = a.toModel.unpack.compare b.toModel.unpack := by
  have hgt : b < a ↔ a.toModel.unpack.compare b.toModel.unpack = some .gt := by
    rw [lt_iff_compare, unpacked_compare_swap]
    cases a.toModel.unpack.compare b.toModel.unpack with
    | none => simp
    | some o => cases o <;> simp
  rw [compareNumbers]
  simp only [lt_iff_compare (a := a), hgt, beq_iff_compare]
  cases a.toModel.unpack.compare b.toModel.unpack with
  | none => rfl
  | some o => cases o <;> rfl

theorem compareNumbers_swap (a b : Float) :
    compareNumbers b a = (compareNumbers a b).map Ordering.swap := by
  rw [compareNumbers_eq, compareNumbers_eq, unpacked_compare_swap]

theorem compareNumbers_eq_none_iff :
    compareNumbers a b = none ↔ a.isNaN = true ∨ b.isNaN = true := by
  rw [compareNumbers_eq]
  exact unpacked_compare_eq_none_iff

theorem compareNumbers_self (h : a.isNaN = false) : compareNumbers a a = some .eq := by
  have hswap := compareNumbers_swap a a
  cases hself : compareNumbers a a with
  | none =>
    rcases compareNumbers_eq_none_iff.1 hself with hnan | hnan
    all_goals
      rw [h] at hnan
      cases hnan
  | some o =>
    rw [hself] at hswap
    cases o with
    | eq => rfl
    | lt => cases hswap
    | gt => cases hswap

/-! ## Values -/

namespace Value

/-- Both values read as numbers, and one of the two is no number. -/
def Unordered (left right : Value) : Prop :=
  ∃ a b, left.number? = some a ∧ right.number? = some b ∧ (a.isNaN = true ∨ b.isNaN = true)

theorem compare?_swap (left right : Value) :
    right.compare? left = (left.compare? right).map Ordering.swap := by
  rw [compare?, compare?]
  cases left.number? with
  | none =>
    cases right.number? with
    | none => exact congrArg some Std.OrientedCmp.eq_swap
    | some b => exact congrArg some Std.OrientedCmp.eq_swap
  | some a =>
    cases right.number? with
    | none => exact congrArg some Std.OrientedCmp.eq_swap
    | some b => exact compareNumbers_swap a b

theorem compare?_eq_none_iff {left right : Value} :
    left.compare? right = none ↔ Unordered left right := by
  rw [compare?, Unordered]
  cases left.number? with
  | none => simp
  | some a =>
    cases right.number? with
    | none => simp
    | some b => simp [compareNumbers_eq_none_iff]

end Value

end QubitBasic
