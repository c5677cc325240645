/-
  Decimal numbers and the text of a number literal.

  A `Decimal` is `digits · 10 ^ exponent`, exactly.  A literal is a mantissa of digits with at most
  one point among or around them (`12`, `3.5`, `.5`, `2.`), then an exponent if there is one
  (`e3`, `E-7`).  A literal has no sign: signs are read by whoever reads literals.
-/
import QubitBasic.Text.Digits

namespace QubitBasic

open Text

/-- The number `digits · 10 ^ exponent`. -/
structure Decimal where
  digits : Nat
  exponent : Int
  deriving DecidableEq, Repr

/-- The power of ten with exponent `e`. -/
def tenTo (e : Nat) : Nat := Nat.pow 10 e

namespace Decimal

/-- The integer that a numeral denotes, after a sign if there is one. -/
def signedNumeral? (cs : List Char) : Option Int :=
  match cs with
  | '+' :: ds => if isNumeral ds then some (ofDigits ds) else none
  | '-' :: ds => if isNumeral ds then some (-(ofDigits ds : Int)) else none
  | ds => if isNumeral ds then some (ofDigits ds) else none

/-- The exponent at the end of a literal; zero if nothing stands there. -/
def exponent? : List Char → Option Int
  | [] => some 0
  | c :: cs => if c == 'e' || c == 'E' then signedNumeral? cs else none

/-- The digits after the point at the start of `cs`, and what follows them. -/
def fraction : List Char → List Char × List Char
  | [] => ([], [])
  | c :: cs => if c == '.' then (cs.takeWhile Char.isDigit, cs.dropWhile Char.isDigit) else ([], c :: cs)

/-- The number that an unsigned literal denotes. -/
def ofLiteral? (cs : List Char) : Option Decimal :=
  let whole := cs.takeWhile Char.isDigit
  let (part, rest) := fraction (cs.dropWhile Char.isDigit)
  if whole.isEmpty && part.isEmpty then none
  else (exponent? rest).map fun e => ⟨ofDigits (whole ++ part), e - part.length⟩

end Decimal

end QubitBasic
