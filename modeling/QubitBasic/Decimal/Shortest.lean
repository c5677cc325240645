/-
  The shortest decimal that reads back as a given double.

  Every finite double is a decimal exactly: one unit of `2 ^ -1074` is `5 ^ 1074` units of
  `10 ^ -1074`.  For 1, 2, … 17 digits, `candidate?` takes the exact number's two neighbours with that
  many digits and keeps those that round back to the double; the first count that leaves one wins,
  and of two the nearer is taken.  Two that are equally near are a `Tie`, which each way of writing
  settles as it likes.  That the result reads back holds by construction, since `Binary64.ofDecimal`
  itself is the test.
-/
import QubitBasic.Decimal.Binary64

namespace QubitBasic.Decimal

open Binary64

/-- The number of decimal digits of a positive number. -/
def digitCount (n : Nat) : Nat :=
  let k := n.log2 * 30103 / 100000
  if tenTo (k + 1) ≤ n then k + 2 else k + 1

/-- One unit of `2 ^ -1074` in units of `10 ^ -1074`. -/
def unitExpansion : Nat := Nat.pow 5 1074

/-- The magnitude `w` as a decimal, exactly. -/
def exact (w : Nat) : Decimal := ⟨units w * unitExpansion, -1074⟩

/-- Which of two equally near decimals is written: the upper one, or the one whose last digit is
    even. -/
inductive Tie where
  | upward
  | even
  deriving DecidableEq, Repr

/-- Whether the upper neighbour is taken, where `step` is the distance of the two neighbours, `rest`
    that of the number from the lower one, and `low` the digits of that one. -/
def Tie.isUp (tie : Tie) (low rest step : Nat) : Bool :=
  if 2 * rest = step then (match tie with | .upward => true | .even => low % 2 == 1)
  else step < 2 * rest

/-- The number of `count` digits above `low · 10 ^ e`, written without a zero at its end. -/
def successor (low count : Nat) (e : Int) : Decimal :=
  if low + 1 = tenTo count then ⟨1, e + count⟩ else ⟨low + 1, e⟩

/-- The neighbour with `count` digits of `whole · 10 ^ -1074` that reads back as `w`, where `size` is
    the number of digits of `whole`. -/
def candidate? (tie : Tie) (w whole size count : Nat) : Option Decimal :=
  let step := tenTo (size - count)
  let e : Int := ((size - count : Nat) : Int) - 1074
  let lower : Decimal := ⟨whole / step, e⟩
  let upper := successor (whole / step) count e
  if ofDecimal lower = w then
    if ofDecimal upper = w ∧ tie.isUp (whole / step) (whole % step) step then some upper
    else some lower
  else if ofDecimal upper = w then some upper
  else none

/-- The shortest decimal that reads back as the finite magnitude `w`. -/
def shortest (tie : Tie) (w : Nat) : Decimal :=
  if w = 0 then ⟨0, 0⟩
  else
    let d := exact w
    let size := digitCount d.digits
    ((List.range' 1 17).findSome? (candidate? tie w d.digits size)).getD d

end QubitBasic.Decimal
