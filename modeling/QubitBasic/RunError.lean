/-
  Everything that can end a run before its program does.
-/
import QubitBasic.Config.Basic
import QubitBasic.Statement.Basic

namespace QubitBasic

/-- Why a run fails. -/
inductive RunError where
  /-- The source is no listing. -/
  | listing (error : Listing.Error)
  /-- A line is no statement, or its operands cannot be used. -/
  | statement (error : Statement.Error)
  /-- A quantum statement without an engine. -/
  | engineMissing (statement : String)
  /-- The engine refuses an operation. -/
  | quantum (error : QuantumError)
  /-- A `GOTO` to a line that does not exist. -/
  | unknownTarget (target : Int)
  | stepLimit (steps : Nat)
  | timeLimit (milliseconds : Nat)
  /-- The configuration cannot be used. -/
  | config (error : Config.Error)
  deriving DecidableEq, Repr

namespace RunError

/-- The name of the kind of an error. -/
def kind : RunError → String
  | .listing (.invalidLine _) => "InvalidLineFormat"
  | .listing (.duplicate _) => "DuplicateLineNumber"
  | .statement (.unknown _) => "UnknownStatement"
  | .statement (.missingThen _) => "MissingThen"
  | .statement (.malformed _ _) => "MalformedStatement"
  | .engineMissing _ => "QuantumEngineNotAttached"
  | .quantum (.qubitCount _ _) => "InvalidQubitCount"
  | .quantum (.qubitIndex _ _) => "QubitIndexOutOfRange"
  | .unknownTarget _ => "UnknownLineTarget"
  | .stepLimit _ | .timeLimit _ => "ResourceExhausted"
  | .config _ => "InvalidConfig"

/-- The wording of an error. -/
def message : RunError → String
  | .listing error => error.message
  | .statement error => error.message
  | .engineMissing text => s!"no quantum engine attached: cannot execute '{text}'"
  | .quantum error => error.message
  | .unknownTarget target => s!"GOTO {target}: no line with that number"
  | .stepLimit steps =>
    s!"resource exhausted: execution exceeded {steps} steps; possible infinite loop in program"
  | .timeLimit milliseconds =>
    s!"resource exhausted: execution exceeded the time budget of {milliseconds} ms"
  | .config error => s!"invalid configuration: {error.message}"

end RunError

end QubitBasic
