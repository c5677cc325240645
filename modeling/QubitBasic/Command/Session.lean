/-
  Carrying out commands.

  A command needs three things from outside: files, a seed for runs that have none, and a clock.  They
  come from a `Host` in any monad, so a command can be carried out against a real file system or
  against a table of files.
-/
import QubitBasic.Command.Arguments
import QubitBasic.Command.Demo
import QubitBasic.Command.Report
import QubitBasic.Config.Json

namespace QubitBasic

/-- What commands need from outside. -/
structure Host (μ : Type → Type) where
  /-- The contents of a file, or the reason why it cannot be read. -/
  fileText : String → μ (Except String String)
  /-- A seed for a run that has none. -/
  entropy : μ UInt64
  /-- Starts a clock, which then gives the nanoseconds since. -/
  stopwatch : μ (μ Nat)

namespace Command

/-- The text of `help`. -/
def helpLines : List String :=
  ["Usage: qbasic [COMMAND] [ARGS]",
    "",
    "Commands:",
    "  demo                 Run built-in demonstration programs",
    "  run <file.bas>       Execute a Quantum BASIC program",
    "      --json           Print the result as JSON",
    "      --seed <n>       Seed the measurement RNG",
    "      --config <file>  Read a JSON run configuration",
    "  help                 Show this message",
    "",
    "Statements (one per numbered line):",
    "  PRINT <expr>[; <expr>...]   Print values",
    "  LET <name> = <expr>         Assign a variable",
    "  IF <cond> THEN <stmt>       Conditional (=, <>, <, >, <=, >=)",
    "  GOTO <line>                 Jump",
    "  END                         Stop",
    "  REM <text>                  Comment",
    "  QINIT <n>                   Create n qubits in |0...0⟩",
    "  HADAMARD <q>                Hadamard gate",
    "  QNOT <q>                    Pauli-X gate",
    "  CNOT <c>,<t>                Controlled NOT",
    "  MEASURE <q>                 Measure; result in QRESULT",
    "",
    "Logging: set RUST_LOG=debug for per-statement traces (stderr)."]

variable {μ : Type → Type} [Monad μ]

/-- Runs a program with the engine of its configuration. -/
@[specialize] def runProgram (host : Host μ) (config : Config) (source : String) :
    μ (Except Run.Failure Run.Outcome) := do
  let entropy ← host.entropy
  let elapsed ← host.stopwatch
  runTimed elapsed config (config.engine (config.samples entropy)) source

/-- The configuration of `run`: that of the file it names, with the seed it names. -/
@[specialize] def loadConfig (host : Host μ) (arguments : RunArguments) : μ (Except String Config) := do
  let base : Except String Config ← match arguments.config with
    | none => pure (.ok {})
    | some path =>
      match ← host.fileText path with
      | .error reason => pure (.error s!"Cannot read config '{path}': {reason}")
      | .ok text => pure ((Config.parse text).mapError fun error => (RunError.config error).message)
  return base.map fun config =>
    match arguments.seed with
    | none => config
    | some seed => { config with seed := some seed }

/-- Carries out `run`. -/
@[specialize] def runFile (host : Host μ) (arguments : RunArguments) : μ Report := do
  match ← loadConfig host arguments with
  | .error message => return .failure message
  | .ok config =>
    match ← host.fileText arguments.path with
    | .error reason => return .failure s!"Cannot read '{arguments.path}': {reason}"
    | .ok source =>
      let result ← runProgram host config source
      return if arguments.json then .ofResultJson result else .ofResult arguments.path result

/-! ## Demonstrations -/

/-- How often the two measurements of a Bell pair were both zero, both one, or something else. -/
structure Agreement where
  zeros : Nat := 0
  ones : Nat := 0
  other : Nat := 0

/-- One more run of the Bell pair. -/
def Agreement.add (count : Agreement) (output : Array String) : Agreement :=
  if output[3]? = some "Measured qubit 0: 0" ∧ output[4]? = some "Measured qubit 1: 0" then
    { count with zeros := count.zeros + 1 }
  else if output[3]? = some "Measured qubit 0: 1" ∧ output[4]? = some "Measured qubit 1: 1" then
    { count with ones := count.ones + 1 }
  else { count with other := count.other + 1 }

/-- Runs the Bell pair `n` more times. -/
@[specialize] def bellStatistics (host : Host μ) : Nat → Agreement → μ Agreement
  | 0, count => pure count
  | n + 1, count => do
    match ← runProgram host {} Demo.bellPair with
    | .ok outcome => bellStatistics host n (count.add outcome.output)
    | .error _ => bellStatistics host n count

/-- The lines of the demonstration number `n`, and what goes to the error stream. -/
@[specialize] def demoLines (host : Host μ) (n : Nat) (item : Demo) :
    μ (List String × List String) := do
  let heading := s!"━━━ Demo {n}: {item.title} ━━━━━━━━━━━━━━━━━━━━━━━━━━━━━" :: "Source:" ::
    (item.lines.map fun line => s!"  {line}") ++ [""]
  match ← runProgram host {} item.source with
  | .ok outcome => return (heading ++ Report.outcomeLines outcome, [])
  | .error failure => return (heading, [s!"Error: {failure.error.message}", ""])

/-- Carries out `demo`. -/
@[specialize] def demonstrate (host : Host μ) : μ Report := do
  let parts ← Demo.all.zipIdx.mapM fun (item, i) => demoLines host (i + 1) item
  let count ← bellStatistics host 1000 {}
  let statistics := ["━━━ Bell correlation over 1000 runs ━━━━━━━━━━━━━━━",
    s!"  |00⟩={count.zeros}  |11⟩={count.ones}  other={count.other}", ""]
  return {
    stdout := Report.unlines (Report.banner ++ parts.flatMap Prod.fst ++ statistics)
    stderr := Report.unlines (parts.flatMap Prod.snd) }

/-- Carries out a command. -/
@[specialize] def carryOut (host : Host μ) : Command → μ Report
  | .demo => demonstrate host
  | .help => pure { stdout := Report.unlines (Report.banner ++ helpLines) }
  | .run arguments =>
    match RunArguments.parse arguments with
    | .error error => pure (.failure error.message)
    | .ok arguments => runFile host arguments
  | .unknown name => pure (.failure s!"Unknown command '{name}'. Run 'qbasic help' for usage.")

end Command

end QubitBasic
