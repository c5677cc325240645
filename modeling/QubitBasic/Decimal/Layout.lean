/-
  Writing doubles.

  `Decimal.positional` writes every digit of a decimal in its place, `Decimal.scientific` one digit
  before the point and an exponent with its sign.  A `Layout` says which of the two a number gets;
  the digits are always the shortest that read back.  `fixed` is the third way of writing, with a
  given number of places and the exact number rounded to them.
-/
import QubitBasic.Decimal.Shortest

namespace QubitBasic

open Text

namespace Decimal

/-- All digits in their places; with `fraction`, a whole number ends in `.0`. -/
def positional (fraction : Bool) (d : Decimal) : List Char :=
  let ds := toDigits d.digits
  match d.exponent with
  | .ofNat e => ds ++ List.replicate e '0' ++ if fraction then ['.', '0'] else []
  | .negSucc k =>
    let places := k + 1
    if places < ds.length then ds.take (ds.length - places) ++ '.' :: ds.drop (ds.length - places)
    else '0' :: '.' :: (List.replicate (places - ds.length) '0' ++ ds)

/-- The exponent of the first digit of `d`. -/
def leadingExponent (d : Decimal) : Int := (toDigits d.digits).length - 1 + d.exponent

/-- One digit, the others after a point, and the exponent of the first with its sign. -/
def scientific (d : Decimal) : List Char :=
  let e := d.leadingExponent
  let mantissa := match toDigits d.digits with
    | [] => []
    | [c] => [c]
    | c :: cs => c :: '.' :: cs
  mantissa ++ 'e' :: (if e < 0 then '-' else '+') :: toDigits e.natAbs

end Decimal

/-- How doubles are written. -/
structure Layout where
  /-- The least and the greatest exponent of the first digit with which a number is written
      positionally; `none` if all are. -/
  positional : Option (Int × Int)
  /-- Whole numbers keep the fraction `.0`. -/
  fraction : Bool
  /-- Which of two equally near decimals is written. -/
  tie : Decimal.Tie

namespace Layout

/-- A decimal in this layout. -/
def decimal (l : Layout) (d : Decimal) : List Char :=
  match l.positional with
  | none => d.positional l.fraction
  | some (least, greatest) =>
    if least ≤ d.leadingExponent ∧ d.leadingExponent ≤ greatest then d.positional l.fraction
    else d.scientific

/-- A finite double in this layout; the sign of a negative zero is kept. -/
def finite (l : Layout) (x : Float) : List Char :=
  let text := l.decimal (Decimal.shortest l.tie (Binary64.magnitude x))
  if Binary64.isNegative x then '-' :: text else text

/-- Every number positionally, whole numbers without a fraction. -/
def plain : Layout := ⟨none, false, .upward⟩

end Layout

/-- A double in plain layout, with words for what is no finite number. -/
def plainText (x : Float) : String :=
  if x.isNaN then "NaN"
  else if x.isInf then (if Binary64.isNegative x then "-inf" else "inf")
  else String.ofList (Layout.plain.finite x)

/-- A finite double rounded to `places` places after the point; a tie goes to the even digit. -/
def fixed (places : Nat) (x : Float) : String :=
  let scale := tenTo places
  let n := roundDiv (Binary64.units (Binary64.magnitude x) * scale) Binary64.one
  let part := toDigits (n % scale)
  let text := toDigits (n / scale) ++ '.' :: (List.replicate (places - part.length) '0' ++ part)
  String.ofList (if Binary64.isNegative x then '-' :: text else text)

end QubitBasic
