/-
  Whole numbers that are read as doubles.

  A numeral is read as the double nearest to it.  The bits of that double are computed as a magnitude
  and put into a word, and a double is taken apart into its bits again where a whole number is wanted.
  The two are inverse on all numbers (`toBits_ofBits`): a double is packed as it was unpacked, since its
  sign, exponent and mantissa are all there is to it.

  So what is left of a whole number is what rounding leaves of it.  A number of at most 53 bits, shifted
  left, is a double and stays as it is.  Any other number of at most 64 bits is rounded to 53 bits, which
  leaves a whole number of no fewer bits than before (`exists_toInt?`).
-/
import Mathlib
import QubitBasic.Decimal.Binary64

namespace QubitBasic.Binary64

open Float.Model (Format)
open Float.Model.UnpackedFloat

/-! ## Bits -/

theorem toBitVec_ofBitVec (b : BitVec 1) : (Sign.ofBitVec b).toBitVec = b := by
  revert b
  decide

/-- Sign, exponent and mantissa are all there is to a double. -/
theorem packComponents_unpack (b : BitVec Format.binary64.numBits) :
    packComponents .binary64 (Sign.ofBitVec (unpackSign b)) (unpackExponent b) (unpackMantissa b) =
      b := by
  rw [packComponents, toBitVec_ofBitVec]
  simp only [unpackSign, unpackExponent, unpackMantissa, BitVec.extractLsb]
  ext i hi
  grind

theorem log2_of_normal {m : Nat} (hm : m < 2 ^ 52) : (2 ^ 52 + m).log2 = 52 := by
  have hlow : 52 ≤ (2 ^ 52 + m).log2 := (Nat.le_log2 (by omega)).2 (by omega)
  have hhigh : (2 ^ 52 + m).log2 < 53 := (Nat.log2_lt (by omega)).2 (by omega)
  omega

/-- A number is packed as it was unpacked. -/
theorem pack_unpack {b : BitVec Format.binary64.numBits} (h : unpackExponent b ≠ -1#_) :
    pack .binary64 (unpack .binary64 b) = b := by
  refine Eq.trans ?_ (packComponents_unpack b)
  have hmantissa : (unpackMantissa b).toNat < 2 ^ 52 := (unpackMantissa b).isLt
  rw [unpack]
  simp only [if_neg h]
  split
  case isTrue hzero =>
    -- Below the least number with a leading bit the exponent is zero, and the mantissa is all of it.
    split
    case isTrue hmantissa =>
      rw [pack, packedZero, hzero, hmantissa]
      rfl
    case isFalse hne =>
      have hlog : ((unpackMantissa b).toNat).log2 < 52 :=
        (Nat.log2_lt fun h => hne (BitVec.eq_of_toNat_eq h)).2 hmantissa
      rw [pack]
      simp only [hzero, Format.exponentBias, Format.mantissaBits]
      rw [if_neg (by decide), if_neg (by omega), BitVec.ofNat_toNat, BitVec.setWidth_eq]
  case isFalse hzero =>
    -- The leading bit that unpacking adds is the one that packing takes off.
    have hexponent : (unpackExponent b).toNat < 2 ^ 11 := (unpackExponent b).isLt
    have hne : (unpackExponent b).toNat ≠ 2047 := fun hmax => h (BitVec.eq_of_toNat_eq hmax)
    have hfull : (1#1 ++ unpackMantissa b).toNat = 2 ^ 52 + (unpackMantissa b).toNat := by
      rw [BitVec.toNat_append, ← Nat.shiftLeft_add_eq_or_of_lt (unpackMantissa b).isLt]
      rfl
    have hbiased : ((unpackExponent b).toNat - ((Format.binary64.exponentBias : Nat) + (52 : Nat)) +
        (Format.binary64.exponentBias : Nat) + (52 : Nat) : Int).toNat = (unpackExponent b).toNat := by
      omega
    rw [pack]
    simp only [hfull, log2_of_normal hmantissa, hbiased]
    rw [if_neg (by omega), if_pos (by rfl), BitVec.ofNat_toNat, BitVec.setWidth_eq]
    congr 1
    apply BitVec.eq_of_toNat_eq
    rw [BitVec.toNat_ofNat, Nat.add_mod_left, Nat.mod_eq_of_lt hmantissa]

theorem span_eq : span = 2 ^ 52 := rfl

theorem signBit_eq : signBit = 2 ^ 63 := rfl

variable {a : UInt64}

theorem toNat_unpackExponent (a : UInt64) :
    (@unpackExponent .binary64 a.toBitVec).toNat = a.toNat % signBit / span := by
  simp only [unpackExponent, BitVec.toNat_cast, BitVec.extractLsb_toNat, Nat.shiftRight_eq_div_pow,
    UInt64.toNat_toBitVec]
  rw [span_eq, signBit_eq]
  omega

/-- The exponent of what is infinite or no number is the greatest, and that of numbers is not. -/
theorem unpackExponent_eq_iff :
    @unpackExponent .binary64 a.toBitVec = -1#_ ↔ infinity ≤ a.toNat % signBit := by
  have hexponent := toNat_unpackExponent a
  have hlt : (@unpackExponent .binary64 a.toBitVec).toNat < 2 ^ 11 := BitVec.isLt _
  have hmax : (-1#_ : BitVec Format.binary64.exponentBits).toNat = 2047 := rfl
  rw [← BitVec.toNat_inj, hmax]
  rw [signBit_eq, span_eq] at hexponent
  rw [infinity, span_eq, signBit_eq]
  omega

theorem unpackExponent_ne (h : a.toNat % signBit < infinity) :
    @unpackExponent .binary64 a.toBitVec ≠ -1#_ :=
  fun hmax => Nat.not_le_of_lt h (unpackExponent_eq_iff.1 hmax)

/-- The bits of a number make that number. -/
theorem toBits_ofBits (h : a.toNat % signBit < infinity) : (Float.ofBits a).toBits = a := by
  show UInt64.ofBitVec (pack .binary64 (unpack .binary64 a.toBitVec)) = a
  rw [pack_unpack (unpackExponent_ne h), UInt64.ofBitVec_toBitVec]

/-! ## Magnitudes -/

theorem lt_signBit {w : Nat} (h : w < infinity) : w < signBit := by
  rw [infinity, span_eq] at h
  rw [signBit_eq]
  omega

theorem toNat_toBits_toFloat {w : Nat} (h : w < infinity) : (toFloat false w).toBits.toNat = w := by
  have hsmall := lt_signBit h
  have hword : (UInt64.ofNat w).toNat = w := by
    rw [signBit_eq] at hsmall
    rw [UInt64.toNat_ofNat']
    omega
  rw [toFloat, if_neg (by decide), toBits_ofBits, hword]
  rw [hword, Nat.mod_eq_of_lt hsmall]
  exact h

theorem two_pow_add_mul_one (e : Nat) : 2 ^ (e + 1074) = 2 ^ e * one := by
  rw [one, Nat.one_shiftLeft, Nat.pow_add]

theorem one_pos : 0 < one := by
  rw [one, Nat.one_shiftLeft]
  exact Nat.two_pow_pos 1074

theorem toInt?_toFloat {w n : Nat} (h : w < infinity) (hunits : units w = n * one) :
    toInt? (toFloat false w) = some (n : Int) := by
  have hsmall := lt_signBit h
  simp only [toInt?, magnitude, isNegative, toNat_toBits_toFloat h, Nat.mod_eq_of_lt hsmall, hunits,
    Nat.mul_mod_left, Nat.mul_div_cancel _ one_pos, if_neg (Nat.not_le_of_lt h), if_true,
    Nat.not_le_of_lt hsmall, decide_false, Bool.false_eq_true, if_false]

/-! ## Rounding -/

theorem roundDiv_of_dvd {num den : Nat} (hden : 0 < den) (h : den ∣ num) :
    roundDiv num den = num / den := by
  rw [roundDiv]
  simp only [Nat.mod_eq_zero_of_dvd h]
  rw [if_pos (by omega)]

theorem div_le_roundDiv (num den : Nat) : num / den ≤ roundDiv num den := by
  rw [roundDiv]
  split
  · exact Nat.le_refl _
  · split <;> omega

theorem roundDiv_le (num den : Nat) : roundDiv num den ≤ num / den + 1 := by
  rw [roundDiv]
  split
  · omega
  · split <;> omega

/-- The magnitude of `m · 2 ^ s` units, also when `m` is already `2 ^ 53`. -/
theorem units_add {m : Nat} (hlow : 2 ^ 52 ≤ m) (hhigh : m ≤ 2 ^ 53) (s : Nat) :
    units (s * span + m) = m * 2 ^ s := by
  rcases Nat.lt_or_eq_of_le hhigh with hlt | rfl
  · have hdiv : (s * span + m) / span = s + 1 := by
      rw [span_eq]
      omega
    have hmod : (s * span + m) % span = m - 2 ^ 52 := by
      rw [span_eq]
      omega
    rw [units, significand, shift, hdiv, hmod, if_neg (by rw [span_eq]; omega), Nat.shiftLeft_eq]
    rw [span_eq, Nat.add_sub_cancel' hlow, Nat.add_sub_cancel]
  · have hdiv : (s * span + 2 ^ 53) / span = s + 2 := by
      rw [span_eq]
      omega
    have hmod : (s * span + 2 ^ 53) % span = 0 := by
      rw [span_eq]
      omega
    rw [units, significand, shift, hdiv, hmod, if_neg (by rw [span_eq]; omega), Nat.shiftLeft_eq]
    rw [span_eq, show s + 2 - 1 = s + 1 from rfl, Nat.pow_succ]
    omega

/-! ## Whole numbers -/

theorem log2_mul_one {n : Nat} (hpos : n ≠ 0) : (n * one).log2 = n.log2 + 1074 := by
  rw [Nat.log2_eq_iff (Nat.mul_ne_zero hpos (Nat.ne_of_gt one_pos)), two_pow_add_mul_one,
    Nat.add_right_comm, two_pow_add_mul_one]
  exact ⟨Nat.mul_le_mul_right _ (Nat.log2_self_le hpos),
    Nat.mul_lt_mul_of_pos_right Nat.lt_log2_self one_pos⟩

/-- The first 53 bits of a number. -/
theorem leading_bits {n s : Nat} (hpos : n ≠ 0) (hlog : n.log2 = s + 52) :
    2 ^ 52 ≤ n / 2 ^ s ∧ n / 2 ^ s < 2 ^ 53 := by
  have hscale : 0 < 2 ^ s := Nat.two_pow_pos s
  obtain ⟨hlow, hhigh⟩ := (Nat.log2_eq_iff hpos).1 hlog
  rw [Nat.le_div_iff_mul_le hscale, Nat.div_lt_iff_lt_mul hscale, ← Nat.pow_add, ← Nat.pow_add]
  constructor
  · rw [Nat.add_comm 52 s]
    exact hlow
  · rw [Nat.add_comm 53 s]
    exact hhigh

/-- The double nearest to a number of at most 64 bits has its first 53 bits, rounded. -/
theorem units_nearest {n s : Nat} (hpos : n ≠ 0) (hword : n < 2 ^ 64) (hs : s = n.log2 + 1022) :
    nearest n 1 < infinity ∧ units (nearest n 1) = roundDiv (n * one) (2 ^ s) * 2 ^ s := by
  have hlog : (n * one).log2 = s + 52 := by
    rw [log2_mul_one hpos, hs]
  have hshift : (n * one / 1).log2 - 52 = s := by
    rw [Nat.div_one, hlog, Nat.add_sub_cancel]
  have hone : n * one ≠ 0 := by
    intro hzero
    rw [hzero, Nat.log2_zero] at hlog
    omega
  obtain ⟨hlow, hhigh⟩ := leading_bits hone hlog
  have hround := div_le_roundDiv (n * one) (2 ^ s)
  have hround' := roundDiv_le (n * one) (2 ^ s)
  have hle : s * span + roundDiv (n * one) (2 ^ s) < infinity := by
    have hbits : n.log2 < 64 := (Nat.log2_lt hpos).2 hword
    rw [infinity, span_eq]
    omega
  have hnearest : nearest n 1 = s * span + roundDiv (n * one) (2 ^ s) := by
    simp only [nearest, hshift, Nat.one_shiftLeft]
    exact Nat.min_eq_left (Nat.le_of_lt hle)
  rw [hnearest]
  exact ⟨hle, units_add (by omega) (by omega) s⟩

/-- The whole number `n` is a double: a number of at most 53 bits, shifted left. -/
def IsDouble (n : Nat) : Prop := ∃ m e, m < 2 ^ 53 ∧ n = m * 2 ^ e

/-- A double is its own nearest double. -/
theorem IsDouble.units_nearest {n : Nat} (h : IsDouble n) (hpos : n ≠ 0) (hword : n < 2 ^ 64) :
    nearest n 1 < infinity ∧ units (nearest n 1) = n * one := by
  obtain ⟨hlt, hunits⟩ := Binary64.units_nearest hpos hword rfl
  obtain ⟨m, e, hm, rfl⟩ := h
  have hlog : (m * 2 ^ e).log2 < 53 + e := by
    rw [Nat.log2_lt hpos, Nat.pow_add]
    exact Nat.mul_lt_mul_of_pos_right hm (Nat.two_pow_pos e)
  have hshift : (m * 2 ^ e).log2 + 1022 ≤ e + 1074 := by omega
  have hdvd : 2 ^ ((m * 2 ^ e).log2 + 1022) ∣ m * 2 ^ e * one := by
    rw [Nat.mul_assoc, ← two_pow_add_mul_one]
    exact Nat.dvd_trans (Nat.pow_dvd_pow 2 hshift) (Nat.dvd_mul_left _ m)
  rw [roundDiv_of_dvd (Nat.two_pow_pos _) hdvd, Nat.div_mul_cancel hdvd] at hunits
  exact ⟨hlt, hunits⟩

/-- The nearest double to a number of more than 52 bits is a whole number of as many bits at least. -/
theorem exists_units_nearest {n s : Nat} (hpos : n ≠ 0) (hword : n < 2 ^ 64) (hlog : n.log2 = s + 52) :
    ∃ t, 2 ^ n.log2 ≤ t ∧ nearest n 1 < infinity ∧ units (nearest n 1) = t * one := by
  obtain ⟨hlt, hunits⟩ := units_nearest (s := s + 1074) hpos hword (by rw [hlog])
  have hdiv : n * one / 2 ^ (s + 1074) = n / 2 ^ s := by
    rw [two_pow_add_mul_one, Nat.mul_div_mul_right _ _ one_pos]
  refine ⟨roundDiv (n * one) (2 ^ (s + 1074)) * 2 ^ s, ?_, hlt, ?_⟩
  · calc 2 ^ n.log2 = 2 ^ 52 * 2 ^ s := by rw [hlog, Nat.pow_add, Nat.mul_comm]
      _ ≤ n / 2 ^ s * 2 ^ s := Nat.mul_le_mul_right _ (leading_bits hpos hlog).1
      _ ≤ roundDiv (n * one) (2 ^ (s + 1074)) * 2 ^ s :=
        Nat.mul_le_mul_right _ (hdiv ▸ div_le_roundDiv _ _)
  · rw [hunits, two_pow_add_mul_one, Nat.mul_assoc]

/-! ## Decimals -/

theorem ofDecimal_of_ne_zero {n : Nat} (hpos : n ≠ 0) : ofDecimal ⟨n, 0⟩ = nearest n 1 := by
  have hten : tenTo 0 = 1 := rfl
  rw [ofDecimal, if_neg hpos]
  split
  case h_1 e he =>
    obtain rfl : 0 = e := Int.ofNat.inj he
    rw [if_neg (by decide), hten, Nat.mul_one]
  case h_2 e he => cases he

/-- A double is read as itself. -/
theorem toInt?_of_isDouble {n : Nat} (h : IsDouble n) (hword : n < 2 ^ 64) :
    toInt? (Decimal.toFloat ⟨n, 0⟩) = some (n : Int) := by
  by_cases hpos : n = 0
  · subst hpos
    have hunits : units 0 = 0 * one := by
      rw [units, significand, if_pos (by decide), Nat.zero_shiftLeft, Nat.zero_mul]
    rw [Decimal.toFloat, ofDecimal, if_pos rfl]
    exact toInt?_toFloat (by decide) hunits
  · obtain ⟨hlt, hunits⟩ := h.units_nearest hpos hword
    rw [Decimal.toFloat, ofDecimal_of_ne_zero hpos]
    exact toInt?_toFloat hlt hunits

/-- Every number of at most 64 bits is read as a whole number, and none of 64 bits as one of fewer. -/
theorem exists_toInt? {n : Nat} (hword : n < 2 ^ 64) :
    ∃ t : Nat, toInt? (Decimal.toFloat ⟨n, 0⟩) = some (t : Int) ∧ (IsDouble n → t = n) ∧
      (2 ^ 63 ≤ n → 2 ^ 63 ≤ t) := by
  by_cases hdouble : IsDouble n
  · exact ⟨n, toInt?_of_isDouble hdouble hword, fun _ => rfl, id⟩
  · have hlarge : 2 ^ 53 ≤ n := by
      refine Nat.le_of_not_lt fun hsmall => hdouble ⟨n, 0, hsmall, ?_⟩
      rw [Nat.pow_zero, Nat.mul_one]
    have hpos : n ≠ 0 := by omega
    have hlog : 52 ≤ n.log2 := (Nat.le_log2 hpos).2 (by omega)
    obtain ⟨t, ht, hlt, hunits⟩ :=
      exists_units_nearest hpos hword (Nat.sub_add_cancel hlog).symm
    refine ⟨t, ?_, fun h => absurd h hdouble, fun hn => ?_⟩
    · rw [Decimal.toFloat, ofDecimal_of_ne_zero hpos]
      exact toInt?_toFloat hlt hunits
    · rw [(Nat.log2_eq_iff hpos).2 ⟨hn, hword⟩] at ht
      exact ht

end QubitBasic.Binary64
