/-
  Conditions of `IF` statements.

  A condition is cut at its comparison: the earliest one outside double quotes, and where two start
  there the longer (`A <= 3` is cut at `<=`).  Both sides are evaluated and compared loosely.  A text
  without a comparison is a condition that does not hold.
-/
import QubitBasic.Evaluate

namespace QubitBasic

/-- The comparisons of a condition. -/
inductive Comparison where
  | eq
  | ne
  | lt
  | gt
  | le
  | ge
  deriving DecidableEq, Repr

namespace Comparison

/-- The text that a comparison is written with. -/
def symbol : Comparison → String
  | .eq => "="
  | .ne => "<>"
  | .lt => "<"
  | .gt => ">"
  | .le => "<="
  | .ge => ">="

/-- A comparison holds of the order of two values; only `ne` holds of values without an order. -/
def holds : Comparison → Option Ordering → Bool
  | .eq, o => o == some .eq
  | .ne, o => o != some .eq
  | .lt, o => o == some .lt
  | .gt, o => o == some .gt
  | .le, o => o == some .lt || o == some .eq
  | .ge, o => o == some .gt || o == some .eq

/-- The longest comparison at the start of a text, and what follows it. -/
def leading? : List Char → Option (Comparison × List Char)
  | [] => none
  | c :: cs =>
    if c = '=' then some (.eq, cs)
    else if c = '<' then
      match cs with
      | [] => some (.lt, [])
      | d :: ds =>
        if d = '>' then some (.ne, ds) else if d = '=' then some (.le, ds) else some (.lt, d :: ds)
    else if c = '>' then
      match cs with
      | [] => some (.gt, [])
      | d :: ds => if d = '=' then some (.ge, ds) else some (.gt, d :: ds)
    else none

end Comparison

namespace Condition

/-- The sides of the earliest comparison outside double quotes, where `quoted` tells whether quoted
    text is open at the start. -/
def splitChars? : (quoted : Bool) → List Char → Option (List Char × Comparison × List Char)
  | _, [] => none
  | quoted, c :: cs =>
    match if quoted then none else Comparison.leading? (c :: cs) with
    | some (op, right) => some ([], op, right)
    | none =>
      (splitChars? (if c = '"' then !quoted else quoted) cs).map fun (left, op, right) =>
        (c :: left, op, right)

/-- The two sides of a condition and its comparison. -/
def split? (condition : String) : Option (String × Comparison × String) :=
  (splitChars? false condition.toList).map fun (left, op, right) =>
    (String.ofList left, op, String.ofList right)

/-- Whether a condition holds of the variables. -/
def holds (vars : Variables) (condition : String) : Bool :=
  match split? condition with
  | none => false
  | some (left, op, right) => op.holds ((evaluate vars left).compare? (evaluate vars right))

end Condition

end QubitBasic
