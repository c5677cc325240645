/-
  Reading expressions from left to right.

  The grammar is the usual one, all operations associating to the left:

      expr    := term (('+' | '-') term)*
      term    := unary (('*' | '/') unary)*
      unary   := ('-' | '+') unary | primary
      primary := NUMBER | NAME | '(' expr ')'

  It is read token by token with no look-ahead.  What has been read of one level of parentheses is a
  `Level`: the sum and the product still waiting for their right operand, and the number of minus
  signs in front of that operand.  A parenthesis opens a new level over the ones around it.  Between
  tokens the reader either expects an operand or has just completed one (`State`); each token moves
  it on (`State.step`) or is the one where the text stops being an expression.
-/
import QubitBasic.Expr.Token

namespace QubitBasic.Expr

/-- What waits on one level of parentheses for its next operand. -/
structure Level where
  /-- The left operand and operation of an open sum. -/
  sum : Option (Expr × Operator) := none
  /-- The left operand and operation of an open product. -/
  product : Option (Expr × Operator) := none
  /-- Minus signs in front of the operand. -/
  minuses : Nat := 0
  deriving DecidableEq, Repr

/-- The expression `e` under `n` minus signs. -/
def negate (n : Nat) (e : Expr) : Expr := Nat.repeat .neg n e

/-- The right operand `e` joined to what waits for it. -/
def join (pending : Option (Expr × Operator)) (e : Expr) : Expr :=
  match pending with
  | none => e
  | some (left, op) => .binary op left e

/-- The term so far once the operand `e` is complete. -/
def Level.term (level : Level) (e : Expr) : Expr := join level.product (negate level.minuses e)

/-- Where the reader stands between two tokens. -/
inductive State where
  /-- An operand is expected on `level`, inside the parentheses opened on the levels `outer`. -/
  | operand (outer : List Level) (level : Level)
  /-- The term `term` may end here; `sum` waits for it. -/
  | operator (outer : List Level) (sum : Option (Expr × Operator)) (term : Expr)
  deriving DecidableEq, Repr

namespace State

/-- The reader before the first token. -/
def start : State := .operand [] {}

/-- The operand `e` is complete. -/
def complete (outer : List Level) (level : Level) (e : Expr) : State :=
  .operator outer level.sum (level.term e)

/-- One token further, or the error that the token is. -/
def step (state : State) (token : Token) : Except ParseError State :=
  match state, token with
  | .operand outer level, .number x => .ok (complete outer level (.literal x))
  | .operand outer level, .name text => .ok (complete outer level (.var text))
  | .operand outer level, .leftParen => .ok (.operand (level :: outer) {})
  | .operand outer level, .operator .sub =>
    .ok (.operand outer { level with minuses := level.minuses + 1 })
  | .operand outer level, .operator .add => .ok (.operand outer level)
  | .operator outer sum term, .operator .add =>
    .ok (.operand outer { sum := some (join sum term, .add) })
  | .operator outer sum term, .operator .sub =>
    .ok (.operand outer { sum := some (join sum term, .sub) })
  | .operator outer sum term, .operator .mul =>
    .ok (.operand outer { sum, product := some (term, .mul) })
  | .operator outer sum term, .operator .div =>
    .ok (.operand outer { sum, product := some (term, .div) })
  | .operator (level :: outer) sum term, .rightParen => .ok (complete outer level (join sum term))
  | _, _ => .error (.unexpectedToken token)

/-- The expression that has been read, if the text may end here. -/
def finish : State → Except ParseError Expr
  | .operator [] sum term => .ok (join sum term)
  | _ => .error .unexpectedEnd

end State

/-- The expression that a list of tokens is. -/
def ofTokens (tokens : List Token) : Except ParseError Expr :=
  match tokens.foldlM State.step State.start with
  | .error e => .error e
  | .ok state => state.finish

/-- The expression that a text is. -/
def parse (source : String) : Except ParseError Expr :=
  match Token.scan source.toList with
  | .error e => .error e
  | .ok tokens => ofTokens tokens

end QubitBasic.Expr
