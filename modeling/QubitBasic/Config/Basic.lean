/-
  Run configurations.

  Every field has a default.  A configuration can be used only if its limits can be met (`check`):
  at least one step, a register of 1 to 30 qubits, and no time budget of zero.
-/
import QubitBasic.Listing
import QubitBasic.Quantum.Engine

namespace QubitBasic

/-- What `GOTO` does when no line has the number it names. -/
inductive TargetPolicy where
  /-- The run continues with the next line. -/
  | fallThrough
  /-- The run fails. -/
  | strict
  deriving DecidableEq, Repr

/-- How a program is run. -/
structure Config where
  /-- The number of statements after which a run is given up. -/
  maxSteps : UInt64 := 1000000
  /-- The number of milliseconds after which a run is given up. -/
  timeBudget : Option UInt64 := none
  /-- The greatest register that `QINIT` may prepare. -/
  maxQubits : UInt64 := 20
  missingTarget : TargetPolicy := .fallThrough
  duplicates : DuplicatePolicy := .keep
  /-- The seed of the sample stream; without one each run has another stream. -/
  seed : Option UInt64 := none
  /-- Whether there is a quantum engine. -/
  quantum : Bool := true
  deriving DecidableEq, Repr

namespace Config

/-- Why a configuration cannot be used. -/
inductive Error where
  | noSteps
  | qubitCeiling (maxQubits : UInt64)
  | noTime
  /-- A text that is no configuration. -/
  | unreadable
  deriving DecidableEq, Repr

/-- The wording of an `Error`. -/
def Error.message : Error → String
  | .noSteps => "max_steps must be positive"
  | .qubitCeiling maxQubits => s!"max_qubits must be in 1..=30, got {maxQubits.toNat}"
  | .noTime => "time_budget_ms must be positive"
  | .unreadable => "not a run configuration in JSON"

/-- The first reason why a configuration cannot be used. -/
def check (config : Config) : Except Error Unit :=
  if config.maxSteps = 0 then .error .noSteps
  else if config.maxQubits = 0 ∨ Engine.greatestCeiling < config.maxQubits.toNat then
    .error (.qubitCeiling config.maxQubits)
  else if config.timeBudget = some 0 then .error .noTime
  else .ok ()

/-- The engine of a run with the given samples, if there is one. -/
def engine (config : Config) (samples : Samples) : Option Engine :=
  if config.quantum then some (Engine.withCeiling { samples } config.maxQubits.toNat) else none

/-- The sample stream of a run: that of the seed, or of `entropy` without one. -/
def samples (config : Config) (entropy : UInt64) : Samples :=
  Samples.ofSeed (config.seed.getD entropy)

end Config

end QubitBasic
