/-
  Natural numbers in decimal digits, and identifiers.

  `ofDigits` reads a run of digits, `toDigits` writes one.  `boundedNat` reads a whole text as a
  number below a bound and says what is wrong with it otherwise: the text is read from the left, and
  the first character that is no digit or that carries the number past the bound decides.
-/
namespace QubitBasic.Text

/-- The value of one decimal digit. -/
def digitValue (c : Char) : Nat := c.toNat - '0'.toNat

/-- The number that a run of decimal digits denotes. -/
def ofDigits (cs : List Char) : Nat := cs.foldl (fun n c => 10 * n + digitValue c) 0

/-- The decimal digits of `n`, without leading zeros. -/
def toDigits (n : Nat) : List Char := Nat.toDigits 10 n

/-- The greatest number of 64 bits, `2 ^ 64 - 1`. -/
def greatestWord : Nat := 18446744073709551615

/-- A nonempty run of decimal digits and nothing else. -/
def isNumeral (cs : List Char) : Bool := !cs.isEmpty && cs.all Char.isDigit

/-- The number of at most 64 bits that a numeral denotes. -/
def wordOfNumeral? (cs : List Char) : Option Nat :=
  if isNumeral cs && ofDigits cs ≤ greatestWord then some (ofDigits cs) else none

/-! ## Reading a whole argument -/

/-- Why a text is no number of 64 bits. -/
inductive NumeralError where
  | empty
  | invalidDigit
  | tooLarge
  deriving DecidableEq, Repr

/-- The wording of a `NumeralError`. -/
def NumeralError.message : NumeralError → String
  | .empty => "cannot parse integer from empty string"
  | .invalidDigit => "invalid digit found in string"
  | .tooLarge => "number too large to fit in target type"

/-- Reads digits from the left after `n`; the first fault met is the one reported. -/
def boundedNat (bound : Nat) : (n : Nat) → List Char → Except NumeralError Nat
  | n, [] => .ok n
  | n, c :: cs =>
    if !c.isDigit then .error .invalidDigit
    else if bound < 10 * n + digitValue c then .error .tooLarge
    else boundedNat bound (10 * n + digitValue c) cs

/-- The 64-bit number that a text denotes: digits, after a plus sign if there is one. -/
def word (cs : List Char) : Except NumeralError Nat :=
  match cs with
  | [] => .error .empty
  | '+' :: d :: ds => boundedNat greatestWord 0 (d :: ds)
  | _ => boundedNat greatestWord 0 cs

/-! ## Identifiers -/

/-- A letter of ASCII or an underscore. -/
def isNameStart (c : Char) : Bool := c.isAlpha || c == '_'

/-- A letter or digit of ASCII or an underscore. -/
def isNameChar (c : Char) : Bool := c.isAlphanum || c == '_'

/-- A letter or underscore, then letters, digits and underscores. -/
def isIdentifier : List Char → Bool
  | [] => false
  | c :: cs => isNameStart c && cs.all isNameChar

end QubitBasic.Text
