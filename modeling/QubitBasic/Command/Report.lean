/-
  What the command line prints.

  A `Report` is the text for the two output streams and the exit code.  The result of a run is printed
  either as text, with the circuit and the basis states whose probability is not negligible, or as JSON
  with the members of every object in alphabetical order.
-/
import QubitBasic.Json.Basic
import QubitBasic.Run

namespace QubitBasic

/-- What a command prints, and the code it exits with. -/
structure Report where
  stdout : String := ""
  stderr : String := ""
  exit : Nat := 0
  deriving DecidableEq, Repr

namespace Report

/-- Lines, each with the line feed that ends it. -/
def unlines (lines : List String) : String := String.join (lines.map (· ++ "\n"))

/-- A report of nothing but an error. -/
def failure (message : String) : Report := { stderr := unlines [message], exit := 1 }

/-! ## Results as text -/

/-- The title of the program. -/
def banner : List String :=
  ["╔══════════════════════════════════════════════╗",
    "║          Quantum BASIC v0.1.0                ║",
    "║  Line-numbered BASIC on a qubit simulator    ║",
    "╚══════════════════════════════════════════════╝",
    ""]

/-- The operations of a circuit, counted and listed. -/
def circuitLines (c : Circuit) : List String :=
  s!"Circuit: {c.gateCount} gate(s) | {c.measureCount} measurement(s) | {c.qubits} qubit(s)" ::
    (c.operations.toList.map fun operation => s!"  {operation.display}") ++ [""]

/-- The basis states with a probability above a millionth. -/
def stateLines (probabilities : Array Float) (qubits : Nat) : List String :=
  let likely := probabilities.toList.zipIdx.filter fun (p, _) => 1e-6 < p
  "Final state:" :: (likely.map fun (p, i) => s!"  |{basisLabel i qubits}⟩  {fixed 6 p}") ++ [""]

/-- All that a run left. -/
def outcomeLines (outcome : Run.Outcome) : List String :=
  let quantum := match outcome.probabilities, outcome.circuit with
    | some probabilities, some circuit =>
      circuitLines circuit ++ stateLines probabilities circuit.qubits
    | _, _ => []
  "Output:" :: (outcome.output.toList.map fun line => s!"  {line}") ++ "" :: quantum

/-- The result of running the program at `path`. -/
def ofResult (path : String) (result : Except Run.Failure Run.Outcome) : Report :=
  let heading := banner ++ ["━━━ Quantum BASIC Runner ━━━━━━━━━━━━━━━━━━━━━━━━━", s!"File: {path}", ""]
  match result with
  | .ok outcome => { stdout := unlines (heading ++ outcomeLines outcome) }
  | .error failure =>
    { stdout := unlines (heading ++ failure.output.toList)
      stderr := unlines ["", s!"{failure.error.kind} error: {failure.error.message}"]
      exit := 1 }

/-! ## Results as JSON -/

/-- One operation of a circuit. -/
def operationJson (operation : Operation) : Json :=
  let gate := ("gate", Json.ofString operation.mnemonic)
  match operation with
  | .hadamard qubit | .flip qubit | .measure qubit => .ofMembers [gate, ("qubit", .natural qubit)]
  | .controlledNot control target =>
    .ofMembers [("control", .natural control), gate, ("target", .natural target)]

/-- A circuit. -/
def circuitJson (c : Circuit) : Json :=
  .ofMembers [("gates", .array (c.operations.toList.map operationJson)), ("numQubits", .natural c.qubits)]

/-- Lines of output. -/
def outputJson (output : Array String) : Json := .array (output.toList.map .ofString)

/-- The result of a run. -/
def resultJson : Except Run.Failure Run.Outcome → Json
  | .ok outcome =>
    let circuit := outcome.circuit.toList.map fun c => ("circuitTrace", circuitJson c)
    let state := outcome.probabilities.toList.map fun probabilities =>
      ("quantumState", Json.array (probabilities.toList.map .real))
    .ofMembers (circuit ++ ("output", outputJson outcome.output) :: state ++ [("success", .bool true)])
  | .error failure =>
    .ofMembers [("error", .ofString failure.error.message), ("kind", .ofString failure.error.kind),
      ("output", outputJson failure.output), ("success", .bool false)]

/-- The result of a run as JSON. -/
def ofResultJson (result : Except Run.Failure Run.Outcome) : Report :=
  { stdout := unlines [(resultJson result).pretty], exit := if result.isOk then 0 else 1 }

end Report

end QubitBasic
