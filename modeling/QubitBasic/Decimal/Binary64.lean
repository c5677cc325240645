/-
  Doubles, read as exact numbers.

  A nonnegative finite double is a whole number of units of `2 ^ -1074`, and its bits, read as a
  number `w` (its magnitude), say which: with `w / 2 ^ 52 = 0` it is `w` units, and otherwise
  `2 ^ 52 + w % 2 ^ 52` units shifted left by `w / 2 ^ 52 - 1` places.  The magnitude `infinity` is
  the first that denotes no number.  Magnitudes are ordered as the numbers are, so rounding to the
  nearest double (`nearest`) is one rounded division: `s · 2 ^ 52 + m` is the magnitude of
  `m · 2 ^ s` units, also when rounding has carried `m` to `2 ^ 53`.
-/
import QubitBasic.Decimal.Basic

namespace QubitBasic

/-- The quotient of `num` by `den`, rounded to the nearest number; a tie goes to the even one. -/
def roundDiv (num den : Nat) : Nat :=
  let q := num / den
  let r := num % den
  if 2 * r < den then q else if den < 2 * r then q + 1 else q + q % 2

namespace Binary64

/-- The number of magnitudes between two shifts, `2 ^ 52`. -/
def span : Nat := 1 <<< 52

/-- The magnitude of infinity. -/
def infinity : Nat := 2047 * span

/-- The number one in units of `2 ^ -1074`. -/
def one : Nat := 1 <<< 1074

/-- The whole number of which a finite magnitude is the shift. -/
def significand (w : Nat) : Nat := if w < span then w else span + w % span

/-- The number of places by which the significand of a magnitude is shifted. -/
def shift (w : Nat) : Nat := w / span - 1

/-- A finite magnitude in units of `2 ^ -1074`. -/
def units (w : Nat) : Nat := significand w <<< shift w

/-- The magnitude of the double nearest to `num / den`; a tie goes to the even one, and what
    rounds beyond the greatest double is infinite. -/
def nearest (num den : Nat) : Nat :=
  let n := num * one
  let s := (n / den).log2 - 52
  min (s * span + roundDiv n (den <<< s)) infinity

/-- The magnitude of the double nearest to a decimal.  Exponents so large that the number is beyond
    every double, or so small that it is below half of the least, are settled without writing the
    power of ten out. -/
def ofDecimal (d : Decimal) : Nat :=
  if d.digits = 0 then 0
  else match d.exponent with
    | .ofNat e => if 308 < e then infinity else nearest (d.digits * tenTo e) 1
    | .negSucc e =>
      if d.digits.log2 + 1 + 1075 ≤ 3 * (e + 1) then 0 else nearest d.digits (tenTo (e + 1))

/-! ## Doubles as sign and magnitude -/

/-- The place of the sign among the bits of a double, `2 ^ 63`. -/
def signBit : Nat := 1 <<< 63

/-- The sign bit of a double. -/
def isNegative (x : Float) : Bool := signBit ≤ x.toBits.toNat

/-- The bits of a double but for its sign. -/
def magnitude (x : Float) : Nat := x.toBits.toNat % signBit

/-- The double of the given sign and magnitude. -/
def toFloat (negative : Bool) (w : Nat) : Float :=
  Float.ofBits (UInt64.ofNat (if negative then w + signBit else w))

/-- The whole number that a double is; `none` for a fraction, an infinity or no number at all. -/
def toInt? (x : Float) : Option Int :=
  let w := magnitude x
  if infinity ≤ w then none
  else if units w % one = 0 then
    let n : Int := (units w / one : Nat)
    some (if isNegative x then -n else n)
  else none

end Binary64

/-- The double nearest to a decimal. -/
def Decimal.toFloat (d : Decimal) : Float := Binary64.toFloat false (Binary64.ofDecimal d)

end QubitBasic
