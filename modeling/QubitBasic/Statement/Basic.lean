/-
  Statements and their canonical text.

  Operands stay as they are written and are evaluated when the statement runs, so `HADAMARD Q` sees
  what `Q` holds then.  An `IF` guards one statement that is no `IF` itself: that is what `Action`
  stands for.
-/
import QubitBasic.Value

namespace QubitBasic

/-- A statement that an `IF` may guard. -/
inductive Action where
  /-- The statement `PRINT`: the values of the items, joined into one line. -/
  | print (items : List String)
  /-- The statement `LET`: binds a variable. -/
  | assign (name expr : String)
  /-- The statement `QINIT`: a new register with all qubits zero. -/
  | prepare (count : String)
  /-- The statement `HADAMARD`: the Hadamard gate on a qubit. -/
  | hadamard (qubit : String)
  /-- The statement `QNOT`: flips a qubit. -/
  | flip (qubit : String)
  /-- The statement `CNOT`: flips the target where the control is one. -/
  | controlledNot (control target : String)
  /-- The statement `MEASURE`: measures a qubit. -/
  | measure (qubit : String)
  /-- The statement `GOTO`: continues at a line. -/
  | goto (target : String)
  /-- The statement `END`: stops the run. -/
  | stop
  /-- The statement `REM`: a remark. -/
  | remark (text : String)
  deriving DecidableEq, Repr

/-- One line's statement. -/
inductive Statement where
  | simple (action : Action)
  /-- The statement `IF`: acts where the condition holds. -/
  | conditional (condition : String) (action : Action)
  deriving DecidableEq, Repr

/-! ## Keywords -/

/-- The words that actions start with. -/
inductive Keyword where
  | print
  | assign
  | prepare
  | hadamard
  | flip
  | controlledNot
  | measure
  | goto
  | stop
  | remark
  deriving DecidableEq, Repr

namespace Keyword

/-- The canonical spelling of a keyword. -/
def spelling : Keyword → String
  | .print => "PRINT"
  | .assign => "LET"
  | .prepare => "QINIT"
  | .hadamard => "HADAMARD"
  | .flip => "QNOT"
  | .controlledNot => "CNOT"
  | .measure => "MEASURE"
  | .goto => "GOTO"
  | .stop => "END"
  | .remark => "REM"

/-- All keywords. -/
def all : List Keyword :=
  [.print, .assign, .prepare, .hadamard, .flip, .controlledNot, .measure, .goto, .stop, .remark]

end Keyword

/-! ## Canonical text -/

namespace Action

/-- The keyword that an action starts with. -/
def keyword : Action → Keyword
  | .print _ => .print
  | .assign _ _ => .assign
  | .prepare _ => .prepare
  | .hadamard _ => .hadamard
  | .flip _ => .flip
  | .controlledNot _ _ => .controlledNot
  | .measure _ => .measure
  | .goto _ => .goto
  | .stop => .stop
  | .remark _ => .remark

/-- The canonical text of an action's operands. -/
def operands : Action → String
  | .print items => "; ".intercalate items
  | .assign name expr => s!"{name} = {expr}"
  | .prepare text | .hadamard text | .flip text | .measure text | .goto text | .remark text => text
  | .controlledNot control target => s!"{control},{target}"
  | .stop => ""

/-- The canonical text of an action: its keyword and, after one space, its operands if it has
    any. -/
def display (action : Action) : String :=
  if action.operands = "" then action.keyword.spelling
  else s!"{action.keyword.spelling} {action.operands}"

/-- The actions that need a quantum engine. -/
def isQuantum : Action → Bool
  | .prepare _ | .hadamard _ | .flip _ | .controlledNot _ _ | .measure _ => true
  | _ => false

end Action

namespace Statement

/-- The canonical text of a statement. -/
def display : Statement → String
  | .simple action => action.display
  | .conditional condition action => s!"IF {condition} THEN {action.display}"

/-- The statements that are themselves quantum actions; an `IF` is none. -/
def isQuantum : Statement → Bool
  | .simple action => action.isQuantum
  | .conditional _ _ => false

/-! ## Errors -/

/-- What is wrong with a statement whose keyword is known. -/
inductive Fault where
  | assignmentForm
  | badName (name : String)
  | missingExpression
  | missingOperand
  | controlledNotForm
  | nothingAfterThen
  | nestedIf
  | stopOperands
  /-- An operand that has to be a whole number and is not. -/
  | notInteger (operand : String) (value : Value)
  deriving DecidableEq, Repr

/-- The wording of a `Fault`. -/
def Fault.message : Fault → String
  | .assignmentForm => "expected LET <name> = <expr>"
  | .badName name => s!"invalid variable name '{name}'"
  | .missingExpression => "missing expression"
  | .missingOperand => "missing operand"
  | .controlledNotForm => "expected CNOT <control>,<target>"
  | .nothingAfterThen => "nothing after THEN"
  | .nestedIf => "nested IF is not supported"
  | .stopOperands => "END takes no operands"
  | .notInteger operand value => s!"'{operand}' is not an integer (got {value.display})"

/-- Why a text is no statement. -/
inductive Error where
  | unknown (statement : String)
  | missingThen (statement : String)
  | malformed (statement : String) (fault : Fault)
  deriving DecidableEq, Repr

/-- The wording of an `Error`. -/
def Error.message : Error → String
  | .unknown statement => s!"unknown statement: {statement}"
  | .missingThen statement => s!"IF without THEN: {statement}"
  | .malformed statement fault => s!"malformed statement '{statement}': {fault.message}"

end Statement

end QubitBasic
