/-
  Arithmetic expressions and their values.

  An expression is a tree over number literals and variables.  Its value is computed with doubles,
  operands from left to right, so an expression that cannot be evaluated fails on its leftmost
  variable that is unbound or holds no number.
-/
import QubitBasic.Variables

namespace QubitBasic

/-- The four operations of arithmetic. -/
inductive Operator where
  | add
  | sub
  | mul
  | div
  deriving DecidableEq, Repr

namespace Operator

/-- The sign that an operation is written with. -/
def symbol : Operator → Char
  | .add => '+'
  | .sub => '-'
  | .mul => '*'
  | .div => '/'

/-- The result of an operation on doubles. -/
def apply : Operator → Float → Float → Float
  | .add, a, b => a + b
  | .sub, a, b => a - b
  | .mul, a, b => a * b
  | .div, a, b => a / b

end Operator

/-- An arithmetic expression. -/
inductive Expr where
  | literal (x : Float)
  | var (name : String)
  | neg (operand : Expr)
  | binary (op : Operator) (left right : Expr)
  deriving DecidableEq, Repr

namespace Expr

/-- Why an expression has no value. -/
inductive EvalError where
  | unbound (name : String)
  | notANumber (name : String)
  deriving DecidableEq, Repr

/-- The wording of an `EvalError`. -/
def EvalError.message : EvalError → String
  | .unbound name => s!"variable '{name}' is not bound"
  | .notANumber name => s!"variable '{name}' does not hold a number"

/-- The number that the variable `name` reads as. -/
def lookup (vars : Variables) (name : String) : Except EvalError Float :=
  match vars.get? name with
  | none => .error (.unbound name)
  | some value =>
    match value.number? with
    | none => .error (.notANumber name)
    | some x => .ok x

/-- The value of an expression; operands are evaluated from left to right. -/
def eval (vars : Variables) : Expr → Except EvalError Float
  | .literal x => .ok x
  | .var name => lookup vars name
  | .neg operand => (eval vars operand).map (- ·)
  | .binary op left right =>
    match eval vars left with
    | .error e => .error e
    | .ok a => (eval vars right).map (op.apply a)

end Expr

end QubitBasic
