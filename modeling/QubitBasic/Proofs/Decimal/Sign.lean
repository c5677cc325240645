/-
  Doubles as sign and magnitude.

  The greatest bit of a double is its sign, and the others are its magnitude.  Exponent and mantissa are
  read from the magnitude alone, so exchanging the sign is all that negation does (`neg_toFloat`), and
  what is neither infinite nor no number has a magnitude below `infinity` (`magnitude_lt_infinity`).  Such
  a double is put together again from its sign and its magnitude (`toFloat_magnitude`).
-/
import QubitBasic.Proofs.Decimal.WholeNumber

namespace QubitBasic.Binary64

open Float.Model (Format)
open Float.Model.UnpackedFloat

/-! ## The parts of a word -/

variable {a : UInt64}

theorem toNat_unpackMantissa (a : UInt64) :
    (@unpackMantissa .binary64 a.toBitVec).toNat = a.toNat % signBit % span := by
  simp only [unpackMantissa, BitVec.toNat_cast, BitVec.extractLsb_toNat, Nat.shiftRight_zero,
    UInt64.toNat_toBitVec]
  rw [span_eq, signBit_eq]
  omega

theorem toNat_unpackSign (a : UInt64) :
    (@unpackSign .binary64 a.toBitVec).toNat = a.toNat / signBit := by
  have ha : a.toNat < 2 ^ 64 := a.toNat_lt
  simp only [unpackSign, BitVec.toNat_cast, BitVec.extractLsb_toNat, Nat.shiftRight_eq_div_pow,
    UInt64.toNat_toBitVec]
  rw [signBit_eq]
  omega

/-! ## Numbers -/

/-- Only what is infinite or no number has a magnitude beyond the numbers. -/
theorem magnitude_lt_infinity {x : Float} (hnan : x.isNaN = false) (hinf : x.isInf = false) :
    magnitude x < infinity := by
  refine Nat.lt_of_not_le fun hle => ?_
  have hexponent : @unpackExponent .binary64 x.toBits.toBitVec = -1#_ := unpackExponent_eq_iff.2 hle
  have hunpack : (unpack .binary64 x.toBits.toBitVec).isNaN = true ∨
      (unpack .binary64 x.toBits.toBitVec).isInf = true := by
    rw [unpack]
    simp only [if_pos hexponent]
    split
    · exact .inr rfl
    · exact .inl rfl
  rcases hunpack with h | h
  · exact Bool.false_ne_true (hnan.symm.trans h)
  · exact Bool.false_ne_true (hinf.symm.trans h)

theorem eq_of_toBits_eq {x y : Float} (h : x.toBits = y.toBits) : x = y := by
  obtain ⟨⟨b, hb⟩⟩ := x
  obtain ⟨⟨c, hc⟩⟩ := y
  obtain rfl : b = c := h
  rfl

/-- A number is its sign and its magnitude. -/
theorem toFloat_magnitude {x : Float} (h : magnitude x < infinity) :
    toFloat (isNegative x) (magnitude x) = x := by
  have hword : (if isNegative x = true then magnitude x + signBit else magnitude x) =
      x.toBits.toNat := by
    have hlt : x.toBits.toNat < 2 ^ 64 := x.toBits.toNat_lt
    cases hsign : isNegative x with
    | true =>
      have hle : signBit ≤ x.toBits.toNat := of_decide_eq_true hsign
      rw [if_pos rfl, magnitude]
      rw [signBit_eq] at hle ⊢
      omega
    | false =>
      have hle : ¬ signBit ≤ x.toBits.toNat := of_decide_eq_false hsign
      rw [if_neg Bool.false_ne_true, magnitude, Nat.mod_eq_of_lt (Nat.lt_of_not_le hle)]
  rw [toFloat, hword, UInt64.ofNat_toNat]
  exact eq_of_toBits_eq (toBits_ofBits h)

/-! ## Negation -/

/-- What is unpacked from words that differ in the sign differs in the sign. -/
theorem unpack_eq_neg {b c : BitVec Format.binary64.numBits}
    (hmantissa : unpackMantissa c = unpackMantissa b)
    (hexponent : unpackExponent c = unpackExponent b)
    (hsign : Sign.ofBitVec (unpackSign c) = -Sign.ofBitVec (unpackSign b)) :
    unpack .binary64 c = (unpack .binary64 b).neg := by
  rw [unpack, unpack]
  simp only [hmantissa, hexponent, hsign]
  split
  · split
    · rfl
    · rfl
  · split
    · split
      · rfl
      · rfl
    · rfl

/-- The words of the two signs of a magnitude, as numbers. -/
theorem toNat_ofNat_of_lt {w : Nat} (h : w < infinity) :
    (UInt64.ofNat w).toNat = w ∧ (UInt64.ofNat (w + signBit)).toNat = w + signBit := by
  have hsmall := lt_signBit h
  rw [UInt64.toNat_ofNat', UInt64.toNat_ofNat']
  rw [signBit_eq] at hsmall ⊢
  omega

/-- What is packed into a number is unpacked from it again. -/
theorem unpack_ofBits (h : a.toNat % signBit < infinity) :
    (Float.ofBits a).toModel.unpack = unpack .binary64 a.toBitVec := by
  show unpack .binary64 (pack .binary64 (unpack .binary64 a.toBitVec)) = _
  rw [pack_unpack (unpackExponent_ne h)]

/-- Negation exchanges the sign. -/
theorem neg_toFloat {w : Nat} (h : w ≤ infinity) : -toFloat false w = toFloat true w := by
  rcases Nat.lt_or_eq_of_le h with hlt | rfl
  · have hsmall := lt_signBit hlt
    obtain ⟨hplus, hminus⟩ := toNat_ofNat_of_lt hlt
    have hunpack : unpack .binary64 (UInt64.ofNat (w + signBit)).toBitVec =
        (unpack .binary64 (UInt64.ofNat w).toBitVec).neg := by
      refine unpack_eq_neg (BitVec.eq_of_toNat_eq ?_) (BitVec.eq_of_toNat_eq ?_) ?_
      · rw [toNat_unpackMantissa, toNat_unpackMantissa, hplus, hminus, Nat.add_mod_right]
      · rw [toNat_unpackExponent, toNat_unpackExponent, hplus, hminus, Nat.add_mod_right]
      · have hpositive : @unpackSign .binary64 (UInt64.ofNat w).toBitVec = 0#1 := by
          refine BitVec.eq_of_toNat_eq ?_
          rw [toNat_unpackSign, hplus, Nat.div_eq_of_lt hsmall]
          rfl
        have hnegative : @unpackSign .binary64 (UInt64.ofNat (w + signBit)).toBitVec = 1#1 := by
          refine BitVec.eq_of_toNat_eq ?_
          rw [toNat_unpackSign, hminus, Nat.add_div_right _ (by decide), Nat.div_eq_of_lt hsmall]
          rfl
        rw [hpositive, hnegative]
        rfl
    show Float.ofModel (Float.Model.pack (Float.ofBits (UInt64.ofNat w)).toModel.unpack.neg) =
      Float.ofModel (Float.Model.pack (unpack .binary64 (UInt64.ofNat (w + signBit)).toBitVec))
    rw [unpack_ofBits (by rwa [hplus, Nat.mod_eq_of_lt hsmall]), hunpack]
  · decide +kernel

theorem isNaN_ofBits (h : a.toNat % signBit < infinity) : (Float.ofBits a).isNaN = false := by
  show (Float.ofBits a).toModel.unpack.isNaN = false
  rw [unpack_ofBits h, unpack]
  simp only [if_neg (unpackExponent_ne h)]
  split
  · split
    · rfl
    · rfl
  · rfl

/-- A sign and a magnitude up to the infinite one never make what is no number. -/
theorem isNaN_toFloat {w : Nat} (h : w ≤ infinity) (negative : Bool) :
    (toFloat negative w).isNaN = false := by
  rcases Nat.lt_or_eq_of_le h with hlt | rfl
  · obtain ⟨hplus, hminus⟩ := toNat_ofNat_of_lt hlt
    have hmod := Nat.mod_eq_of_lt (lt_signBit hlt)
    cases negative with
    | false => exact isNaN_ofBits (by rw [if_neg Bool.false_ne_true, hplus, hmod]; exact hlt)
    | true => exact isNaN_ofBits (by rw [if_pos rfl, hminus, Nat.add_mod_right, hmod]; exact hlt)
  · cases negative <;> decide +kernel

end QubitBasic.Binary64
