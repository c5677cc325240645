/-
  Values: numbers and texts.

  A text that is a complete number literal counts as that number wherever a number is wanted
  (`Value.number?`), so `"5"` and `5` compare equal.  Comparison is loose in the same sense: two
  values that both read as numbers are compared as numbers, any other two by the texts they are
  displayed as, in the order of code points.  Numbers are doubles; only a comparison with what is no
  number has no answer.
-/
import QubitBasic.Decimal.Layout
import QubitBasic.Text.Blank

namespace QubitBasic

open Text

/-- The number that a text denotes if it is, blanks around it apart, a number literal with at most
    one sign.  Words such as `inf` are no literals. -/
def numberLiteral? (cs : List Char) : Option Float :=
  match trim cs with
  | '+' :: u => (Decimal.ofLiteral? u).map Decimal.toFloat
  | '-' :: u => (Decimal.ofLiteral? u).map fun d => -d.toFloat
  | u => (Decimal.ofLiteral? u).map Decimal.toFloat

/-- What a variable can hold. -/
inductive Value where
  | number (x : Float)
  | text (s : String)
  deriving DecidableEq, Repr

namespace Value

/-- The number that a value reads as. -/
def number? : Value → Option Float
  | .number x => some x
  | .text s => numberLiteral? s.toList

/-- The greatest signed number of 64 bits, `2 ^ 63 - 1`. -/
def greatestInteger : Int := 9223372036854775807

/-- The least signed number of 64 bits, `- 2 ^ 63`. -/
def leastInteger : Int := -9223372036854775808

/-- The signed number of 64 bits nearest to `n`. -/
def saturate (n : Int) : Int := max leastInteger (min greatestInteger n)

/-- The whole number that a value reads as, within 64 bits. -/
def integer? (v : Value) : Option Int := (v.number?.bind Binary64.toInt?).map saturate

/-- The text that a value is displayed as. -/
def display : Value → String
  | .text s => s
  | .number x =>
    if x.isNaN then "NaN"
    else if x.isInf then (if Binary64.isNegative x then "-Infinity" else "Infinity")
    else if x == 0 then "0"
    else String.ofList (Layout.plain.finite x)

end Value

/-! ## Comparison -/

/-- The order of two doubles; `none` if one of them is no number. -/
def compareNumbers (a b : Float) : Option Ordering :=
  if a < b then some .lt else if b < a then some .gt else if a == b then some .eq else none

/-- The loose order of two values. -/
def Value.compare? (left right : Value) : Option Ordering :=
  match left.number?, right.number? with
  | some a, some b => compareNumbers a b
  | _, _ => some (compare left.display right.display)

end QubitBasic
