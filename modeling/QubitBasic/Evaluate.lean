/-
  The value of a text in a program.

  Evaluation never fails.  Blanks around the text are dropped, and what is left is, in this order, a
  text in double quotes, the name of a variable, a number literal, an arithmetic expression that has
  a value, or else simply itself.
-/
import QubitBasic.Expr.Parser

namespace QubitBasic

open Text

/-- The text between double quotes, if `cs` starts and ends with one. -/
def quoted? : List Char → Option (List Char)
  | [] => none
  | c :: cs => if c = '"' ∧ cs.getLast? = some '"' then some cs.dropLast else none

/-- The number that an arithmetic expression evaluates to. -/
def arithmetic? (vars : Variables) (source : String) : Option Float :=
  match Expr.parse source with
  | .error _ => none
  | .ok e => (e.eval vars).toOption

/-- The value of a text that has no blanks at its ends. -/
def evaluateTrimmed (vars : Variables) (cs : List Char) : Value :=
  match quoted? cs with
  | some inner => .text (String.ofList inner)
  | none =>
    let source := String.ofList cs
    match vars.get? source with
    | some value => value
    | none =>
      match numberLiteral? cs with
      | some x => .number x
      | none =>
        match arithmetic? vars source with
        | some x => .number x
        | none => .text source

/-- The value of a text. -/
def evaluate (vars : Variables) (source : String) : Value :=
  evaluateTrimmed vars (trim source.toList)

end QubitBasic
