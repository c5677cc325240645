/-
  The tokens of an expression.

  Blanks separate tokens and are dropped.  A number is a run of digits and points with an exponent
  behind it if a complete one stands there: in `1e` and `1e+` the `e` is a name of its own.  A run
  that is no literal (`1.2.3`, a lone point) is an error, as is a character that starts no token;
  the leftmost error is the one reported.
-/
import QubitBasic.Expr.Basic

namespace QubitBasic.Expr

open Text

/-- A token of an expression. -/
inductive Token where
  | number (x : Float)
  | name (text : String)
  | operator (op : Operator)
  | leftParen
  | rightParen
  deriving DecidableEq, Repr

/-- A token as it is quoted in messages. -/
def Token.display : Token → String
  | .number x => s!"'{plainText x}'"
  | .name text => s!"'{text}'"
  | .operator op => s!"'{op.symbol}'"
  | .leftParen => "'('"
  | .rightParen => "')'"

/-- Why a text is no expression. -/
inductive ParseError where
  | unexpectedChar (c : Char)
  | unexpectedToken (token : Token)
  | unexpectedEnd
  | badNumber (text : String)
  deriving DecidableEq, Repr

/-- The wording of a `ParseError`. -/
def ParseError.message : ParseError → String
  | .unexpectedChar c => s!"unexpected character '{c}'"
  | .unexpectedToken token => s!"unexpected token {token.display}"
  | .unexpectedEnd => "unexpected end of expression"
  | .badNumber text => s!"malformed number '{text}'"

namespace Token

/-- The token that is the single character `c`. -/
def ofChar? (c : Char) : Option Token :=
  if c = '+' then some (.operator .add)
  else if c = '-' then some (.operator .sub)
  else if c = '*' then some (.operator .mul)
  else if c = '/' then some (.operator .div)
  else if c = '(' then some .leftParen
  else if c = ')' then some .rightParen
  else none

/-- A character of a mantissa. -/
def isMantissa (c : Char) : Bool := c.isDigit || c == '.'

/-- The sign at the start of `cs`, if there is one, and what follows it. -/
def sign : List Char → List Char × List Char
  | [] => ([], [])
  | c :: cs => if c == '+' || c == '-' then ([c], cs) else ([], c :: cs)

/-- The exponent at the start of `cs` and what follows it.  Without a digit there is no exponent. -/
def exponent : List Char → List Char × List Char
  | [] => ([], [])
  | c :: cs =>
    if c == 'e' || c == 'E' then
      let (mark, ds) := sign cs
      if (ds.takeWhile Char.isDigit).isEmpty then ([], c :: cs)
      else (c :: mark ++ ds.takeWhile Char.isDigit, ds.dropWhile Char.isDigit)
    else ([], c :: cs)

/-- The text of the number at the start of `cs` and what follows it. -/
def numeral (cs : List Char) : List Char × List Char :=
  let (e, rest) := exponent (cs.dropWhile isMantissa)
  (cs.takeWhile isMantissa ++ e, rest)

theorem sign_append (cs : List Char) : (sign cs).1 ++ (sign cs).2 = cs := by
  cases cs with
  | nil => rfl
  | cons c cs => simp only [sign]; split <;> rfl

theorem exponent_append (cs : List Char) : (exponent cs).1 ++ (exponent cs).2 = cs := by
  cases cs with
  | nil => rfl
  | cons c cs =>
    simp only [exponent]
    split
    · split
      · rfl
      · simp only [List.cons_append, List.append_assoc, List.takeWhile_append_dropWhile, sign_append]
    · rfl

/-- A number and what follows it make up the text. -/
theorem numeral_append (cs : List Char) : (numeral cs).1 ++ (numeral cs).2 = cs := by
  simp only [numeral, List.append_assoc, exponent_append, List.takeWhile_append_dropWhile]

theorem length_numeral_lt {c : Char} {cs : List Char} (h : isMantissa c = true) :
    (numeral (c :: cs)).2.length < (c :: cs).length := by
  have happend := congrArg List.length (numeral_append (c :: cs))
  have hpos : 0 < (numeral (c :: cs)).1.length := by
    simp [numeral, h]
  rw [List.length_append] at happend
  omega

theorem length_name_lt {c : Char} {cs : List Char} :
    (cs.dropWhile isNameChar).length < (c :: cs).length := by
  have h := (List.dropWhile_suffix (l := cs) isNameChar).sublist.length_le
  simp only [List.length_cons]
  omega

/-- The tokens of a text, or its leftmost error. -/
def scan (cs : List Char) : Except ParseError (List Token) :=
  match cs with
  | [] => .ok []
  | c :: rest =>
    if isBlank c then scan rest
    else match ofChar? c with
      | some token => (scan rest).map (token :: ·)
      | none =>
        if h : isMantissa c then
          let lexeme := (numeral (c :: rest)).1
          have := @length_numeral_lt c rest h
          match Decimal.ofLiteral? lexeme with
          | none => .error (.badNumber (String.ofList lexeme))
          | some d => (scan (numeral (c :: rest)).2).map (.number d.toFloat :: ·)
        else if isNameStart c then
          have := @length_name_lt c rest
          (scan (rest.dropWhile isNameChar)).map
            (.name (String.ofList (c :: rest.takeWhile isNameChar)) :: ·)
        else .error (.unexpectedChar c)
termination_by cs.length
decreasing_by
  · exact Nat.lt_succ_self _
  · exact Nat.lt_succ_self _
  · exact this
  · exact this

end Token

end QubitBasic.Expr
