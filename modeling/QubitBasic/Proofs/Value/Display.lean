/-
  A value loosely equals the text that it is displayed as.

  Whether two values are compared as numbers or as texts is decided by what both of them read as, so a
  value and its text need not be compared as two equal values are.  For a number it depends on the text:
  that of a finite number is a literal, and read back it is the number itself (`numberLiteral?_finite`) or,
  for either zero, the positive one.  The words for what is not finite are no literals (`number?_display`),
  and then the two texts are compared, which are the same.

  A text is its own display.  One that is a literal is compared as a number, and equals itself because no
  literal denotes what is no number (`isNaN_of_numberLiteral?`).
-/
import QubitBasic.Proofs.Decimal.ReadBack
import QubitBasic.Proofs.Expr.Literal
import QubitBasic.Proofs.Value.Order

namespace QubitBasic

open Binary64

/-! ## Literals denote numbers -/

theorem Binary64.ofDecimal_le_infinity (d : Decimal) : ofDecimal d ≤ infinity := by
  rw [ofDecimal]
  split
  · exact Nat.zero_le _
  · split
    · split
      · exact Nat.le_refl _
      · exact Nat.min_le_right _ _
    · split
      · exact Nat.zero_le _
      · exact Nat.min_le_right _ _

/-- A literal denotes a number or, if it is too large, an infinite one. -/
theorem isNaN_of_numberLiteral? {cs : List Char} {x : Float} (h : numberLiteral? cs = some x) :
    x.isNaN = false := by
  obtain ⟨_, _, _, _, d, -, -, -, -, hx⟩ := exists_sign_of_numberLiteral? h
  have hle := ofDecimal_le_infinity d
  rcases hx with ⟨-, rfl⟩ | ⟨-, rfl⟩
  · exact isNaN_toFloat hle false
  · rw [Decimal.toFloat, neg_toFloat hle]
    exact isNaN_toFloat hle true

/-! ## Displayed numbers -/

namespace Value

/-- What a number is displayed as reads as that number, unless it is not finite; a zero loses its
    sign. -/
theorem number?_display (x : Float) :
    (text (number x).display).number? =
      if x.isNaN || x.isInf then none else if x == 0 then some 0 else some x := by
  rw [number?, display]
  cases hnan : x.isNaN with
  | true =>
    show numberLiteral? "NaN".toList = none
    decide
  | false =>
    cases hinf : x.isInf with
    | true =>
      cases isNegative x with
      | true =>
        show numberLiteral? "-Infinity".toList = none
        decide
      | false =>
        show numberLiteral? "Infinity".toList = none
        decide
    | false =>
      cases x == 0 with
      | true =>
        show numberLiteral? "0".toList = some 0
        decide
      | false =>
        show numberLiteral? (String.ofList (Layout.plain.finite x)).toList = some x
        rw [String.toList_ofList]
        exact numberLiteral?_finite (magnitude_lt_infinity hnan hinf)

theorem compare?_of_number?_eq_none {left right : Value}
    (h : left.number? = none ∨ right.number? = none) :
    left.compare? right = some (compare left.display right.display) := by
  rw [compare?]
  rcases h with h | h
  · rw [h]
  · rw [h]
    cases left.number? <;> rfl

/-- A value and the text that it is displayed as compare equal. -/
theorem compare?_own_display (v : Value) : v.compare? (.text v.display) = some .eq := by
  have htexts (h : (text v.display).number? = none) : v.compare? (.text v.display) = some .eq := by
    rw [compare?_of_number?_eq_none (.inr h)]
    exact congrArg some Std.ReflCmp.compare_self
  have hnumbers {a b : Float} (ha : v.number? = some a) (hb : (text v.display).number? = some b) :
      v.compare? (.text v.display) = compareNumbers a b := by
    rw [compare?, ha, hb]
  cases v with
  | text s =>
    cases hs : (text s).number? with
    | none => exact htexts hs
    | some x =>
      rw [hnumbers hs hs]
      exact compareNumbers_self (isNaN_of_numberLiteral? hs)
  | number x =>
    have hread := number?_display x
    split at hread
    case isTrue => exact htexts hread
    case isFalse hfinite =>
      split at hread
      case isTrue hzero =>
        -- Either zero is displayed without a sign, and the two zeros are equal.
        rw [hnumbers rfl hread, compareNumbers_eq]
        exact beq_iff_compare.1 hzero
      case isFalse =>
        rw [hnumbers rfl hread]
        refine compareNumbers_self ?_
        rw [Bool.or_eq_true, not_or] at hfinite
        exact Bool.eq_false_of_not_eq_true hfinite.1

end Value

end QubitBasic
