/-
  The shortest decimal of a double reads back as the double.

  A double is a whole number of units, and rounding leaves it as it is, whatever fraction it is given as
  (`Binary64.nearest_of_units`).  So its exact decimal reads back, and every shorter one that is tried is
  kept only if it does (`Decimal.ofDecimal_shortest`).  Written out behind its sign, the shortest decimal
  is then a literal of the double, negative zero included (`numberLiteral?_finite`).
-/
import QubitBasic.Proofs.Decimal.Sign
import QubitBasic.Proofs.Decimal.Written

namespace QubitBasic

/-! ## Rounding a double -/

namespace Binary64

theorem significand_lt (w : Nat) : significand w < 2 ^ 53 := by
  rw [significand, span_eq]
  split <;> omega

/-- A magnitude is the sum of its two parts. -/
theorem shift_mul_span_add (w : Nat) : shift w * span + significand w = w := by
  rw [shift, significand, span_eq]
  split <;> omega

theorem units_eq (w : Nat) : units w = significand w * 2 ^ shift w := Nat.shiftLeft_eq _ _

theorem units_pos {w : Nat} (h : w ≠ 0) : 0 < units w := by
  rw [units_eq]
  refine Nat.mul_pos ?_ (Nat.two_pow_pos _)
  rw [significand, span_eq]
  split <;> omega

/-- A double is shifted as far as rounding shifts it. -/
theorem log2_units (w : Nat) : (units w).log2 - 52 = shift w := by
  by_cases hspan : w < span
  · -- Below the least number with a leading bit nothing is shifted.
    have hshift : shift w = 0 := by
      rw [shift, Nat.div_eq_of_lt hspan]
    rw [units_eq, hshift, significand, if_pos hspan, Nat.pow_zero, Nat.mul_one]
    by_cases hzero : w = 0
    · rw [hzero, Nat.log2_zero]
    · have hlog : w.log2 < 52 := (Nat.log2_lt hzero).2 hspan
      omega
  · have hlow : 2 ^ 52 ≤ significand w := by
      rw [significand, if_neg hspan, span_eq]
      exact Nat.le_add_right _ _
    have hlog : (units w).log2 = 52 + shift w := by
      have hpos : 0 < 2 ^ shift w := Nat.two_pow_pos _
      rw [units_eq, Nat.log2_eq_iff (Nat.mul_ne_zero (by omega) (by omega)), Nat.add_right_comm,
        Nat.pow_add, Nat.pow_add]
      exact ⟨Nat.mul_le_mul_right _ hlow, Nat.mul_lt_mul_of_pos_right (significand_lt w) hpos⟩
    omega

/-- A double is its own nearest double, whatever fraction it is given as. -/
theorem nearest_of_units {num den w : Nat} (hden : 0 < den) (hw : w < infinity)
    (h : num * one = units w * den) : nearest num den = w := by
  have hscale : 0 < den * 2 ^ shift w := Nat.mul_pos hden (Nat.two_pow_pos _)
  have hquotient : roundDiv (units w * den) (den * 2 ^ shift w) = significand w := by
    have heq : units w * den = significand w * (den * 2 ^ shift w) := by
      rw [units_eq, Nat.mul_assoc, Nat.mul_comm (2 ^ shift w)]
    rw [roundDiv_of_dvd hscale (heq ▸ Nat.dvd_mul_left _ _), heq, Nat.mul_div_cancel _ hscale]
  have hnearest : nearest num den =
      min (shift w * span + roundDiv (units w * den) (den * 2 ^ shift w)) infinity := by
    simp only [nearest, h, Nat.mul_div_cancel _ hden, log2_units, Nat.shiftLeft_eq]
  rw [hnearest, hquotient, shift_mul_span_add, Nat.min_eq_left (Nat.le_of_lt hw)]

end Binary64

namespace Decimal

open Binary64

/-! ## The exact decimal -/

theorem five_pow_mul (k : Nat) : Nat.pow 5 k * 1 <<< k = Nat.pow 10 k := by
  rw [Nat.one_shiftLeft]
  exact (Nat.mul_pow 5 2 k).symm

/-- The scale of the units, with a variable for the exponent, so that no proof computes the powers. -/
theorem exists_scale : ∃ k, k = 1074 ∧ unitExpansion = Nat.pow 5 k ∧ one = 1 <<< k := by
  refine ⟨1074, rfl, ?_, ?_⟩
  · delta unitExpansion
    exact rfl
  · delta one
    exact rfl

/-- A unit of `2 ^ -1074` is `5 ^ 1074` units of `10 ^ -1074`. -/
theorem unitExpansion_mul_one : unitExpansion * one = tenTo 1074 := by
  obtain ⟨k, hk, hunit, hone⟩ := exists_scale
  rw [hunit, hone, five_pow_mul, ← hk, tenTo]

/-- Every factor of five adds two bits at least. -/
theorem le_log2_mul_five_pow {n : Nat} (hn : 0 < n) (k : Nat) : 2 * k ≤ (n * Nat.pow 5 k).log2 := by
  have hfive : 2 ^ (2 * k) ≤ Nat.pow 5 k := by
    rw [Nat.pow_mul]
    exact Nat.pow_le_pow_left (by decide) k
  have hle : 2 ^ (2 * k) ≤ n * Nat.pow 5 k := Nat.le_trans hfive (Nat.le_mul_of_pos_left _ hn)
  exact (Nat.le_log2 (Nat.ne_of_gt (Nat.lt_of_lt_of_le (Nat.two_pow_pos _) hle))).2 hle

theorem tenTo_pos (e : Nat) : 0 < tenTo e := Nat.pow_pos (by decide)

theorem ofDecimal_negSucc {n k : Nat} (hn : n ≠ 0) (hlog : 3 * (k + 1) < n.log2 + 1 + 1075) :
    ofDecimal ⟨n, .negSucc k⟩ = nearest n (tenTo (k + 1)) := by
  rw [ofDecimal, if_neg hn]
  dsimp only
  rw [if_neg (Nat.not_le_of_lt hlog)]

/-- The exact decimal reads back: it has too many digits to be taken for zero. -/
theorem ofDecimal_exact {w : Nat} (hpos : w ≠ 0) (hw : w < infinity) : ofDecimal (exact w) = w := by
  have hlog : 2 * 1074 ≤ (units w * unitExpansion).log2 := by
    obtain ⟨k, hk, hunit, -⟩ := exists_scale
    rw [hunit, ← hk]
    exact le_log2_mul_five_pow (units_pos hpos) k
  have hdigits : units w * unitExpansion ≠ 0 := by
    intro hzero
    rw [hzero, Nat.log2_zero] at hlog
    omega
  show ofDecimal ⟨units w * unitExpansion, .negSucc 1073⟩ = w
  rw [ofDecimal_negSucc hdigits (by omega)]
  refine nearest_of_units (tenTo_pos _) hw ?_
  rw [Nat.mul_assoc, unitExpansion_mul_one]

/-! ## Shorter decimals -/

/-- Both neighbours are kept only if they read back. -/
theorem ofDecimal_of_candidate? {tie : Tie} {w whole size count : Nat} {d : Decimal}
    (h : candidate? tie w whole size count = some d) : ofDecimal d = w := by
  simp only [candidate?] at h
  split at h
  case isTrue hlower =>
    split at h
    case isTrue hupper => exact Option.some.inj h ▸ hupper.1
    case isFalse => exact Option.some.inj h ▸ hlower
  case isFalse =>
    split at h
    case isTrue hupper => exact Option.some.inj h ▸ hupper
    case isFalse => cases h

/-- The shortest decimal reads back. -/
theorem ofDecimal_shortest (tie : Tie) {w : Nat} (hw : w < infinity) :
    ofDecimal (shortest tie w) = w := by
  by_cases hpos : w = 0
  · subst hpos
    rfl
  · rw [shortest, if_neg hpos]
    dsimp only
    cases hfind : (List.range' 1 17).findSome?
        (candidate? tie w (exact w).digits (digitCount (exact w).digits)) with
    | none => exact ofDecimal_exact hpos hw
    | some d =>
      obtain ⟨count, -, hcount⟩ := List.exists_of_findSome?_eq_some hfind
      exact ofDecimal_of_candidate? hcount

/-! ## The literal of a double -/

/-- Zeros that are written out take the place of an exponent, as long as the number is finite. -/
theorem ofDecimal_spelled {d : Decimal} (h : ofDecimal d < infinity) :
    ofDecimal d.spelled = ofDecimal d := by
  obtain ⟨n, e⟩ := d
  cases e with
  | negSucc k => rfl
  | ofNat e =>
    show ofDecimal ⟨n * tenTo e, 0⟩ = _
    by_cases hn : n = 0
    · rw [hn, Nat.zero_mul, ofDecimal, if_pos rfl, ofDecimal, if_pos rfl]
    · have hvalue : ofDecimal ⟨n, .ofNat e⟩ =
          if 308 < e then infinity else nearest (n * tenTo e) 1 := by
        rw [ofDecimal, if_neg hn]
      have hsmall : ¬ 308 < e := by
        intro hlt
        rw [hvalue, if_pos hlt] at h
        exact Nat.lt_irrefl _ h
      have hdigits : n * tenTo e ≠ 0 := Nat.mul_ne_zero hn (Nat.ne_of_gt (tenTo_pos e))
      rw [hvalue, if_neg hsmall, ofDecimal_of_ne_zero hdigits]

end Decimal

open Binary64

theorem toFloat_spelled_shortest (tie : Decimal.Tie) {w : Nat} (h : w < infinity) :
    (Decimal.shortest tie w).spelled.toFloat = toFloat false w := by
  have hshortest := Decimal.ofDecimal_shortest tie h
  rw [Decimal.toFloat, Decimal.ofDecimal_spelled (hshortest.symm ▸ h), hshortest]

/-- A finite double is written as a literal of itself. -/
theorem numberLiteral?_finite {x : Float} (h : magnitude x < infinity) :
    numberLiteral? (Layout.plain.finite x) = some x := by
  have hwritten := Decimal.written_positional (Decimal.shortest .upward (magnitude x))
  have hfloat := toFloat_spelled_shortest .upward h
  have hx := toFloat_magnitude h
  rw [Layout.finite]
  cases hsign : isNegative x with
  | false =>
    rw [hsign] at hx
    have hliteral := hwritten.numberLiteral?_eq
    rwa [hfloat, hx] at hliteral
  | true =>
    rw [hsign] at hx
    have hliteral := hwritten.numberLiteral?_minus
    rwa [hfloat, neg_toFloat (Nat.le_of_lt h), hx] at hliteral

end QubitBasic
