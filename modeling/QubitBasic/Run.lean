/-
  Runs of programs.

  A run executes the lines of a listing from the first one on until there is no current line, a
  statement stops it, or it fails.  It is given up when a further statement would be one more than the
  configuration allows, or when its time is over; the steps are looked at first.  The clock is the only
  thing outside the program that a run depends on, so a run is written for any monad that has one, and
  with a clock that stands still it is a pure function.
-/
import QubitBasic.Config.Basic
import QubitBasic.Machine

namespace QubitBasic

namespace Run

/-- What a run that ends by itself leaves. -/
structure Outcome where
  /-- The lines printed. -/
  output : Array String
  /-- The probability of each basis state, if there is a register. -/
  probabilities : Option (Array Float)
  /-- What the register has been through, if there is one. -/
  circuit : Option Circuit
  /-- The number of statements executed. -/
  steps : Nat
  deriving DecidableEq, Repr

/-- What a run that fails leaves. -/
structure Failure where
  error : RunError
  /-- The lines printed before the failure. -/
  output : Array String
  deriving DecidableEq, Repr

/-- The outcome of a run that ended with the machine `m`. -/
def Outcome.ofMachine (m : Machine) : Outcome :=
  let engine := m.engine.filter (·.register.isSome)
  { output := m.output
    probabilities := engine.map Engine.probabilities
    circuit := engine.map Engine.circuit
    steps := m.steps }

/-- Executes at most `fuel` further statements.  `expired` tells whether the time is over. -/
@[specialize] def advance {μ : Type → Type} [Monad μ] (expired : μ Bool) (config : Config)
    (listing : Listing) : (fuel : Nat) → Machine → μ (Except Failure Outcome)
  | fuel, m =>
    match listing.line? m.counter with
    | none => pure (.ok (.ofMachine m))
    | some line =>
      match fuel with
      | 0 => pure (.error ⟨.stepLimit config.maxSteps.toNat, m.output⟩)
      | fuel + 1 => do
        if ← expired then
          return .error ⟨.timeLimit (config.timeBudget.elim 0 UInt64.toNat), m.output⟩
        else
          match Machine.step config.missingTarget listing line m with
          | .error error m => return .error ⟨error, m.output⟩
          | .ok flow m =>
            match m.follow? flow with
            | none => return .ok (.ofMachine m)
            | some m => advance expired config listing fuel m

/-- Whether the time budget of a configuration is used up, where `elapsed` gives the nanoseconds
    since the run began. -/
@[inline] def expired {μ : Type → Type} [Monad μ] (elapsed : μ Nat) (config : Config) : μ Bool :=
  match config.timeBudget with
  | none => pure false
  | some milliseconds => do return milliseconds.toNat * 1000000 < (← elapsed)

end Run

/-- Runs a program on the given engine, where `elapsed` gives the nanoseconds since the run began. -/
@[specialize] def runTimed {μ : Type → Type} [Monad μ] (elapsed : μ Nat) (config : Config)
    (engine : Option Engine) (source : String) : μ (Except Run.Failure Run.Outcome) :=
  match config.check with
  | .error error => pure (.error ⟨.config error, #[]⟩)
  | .ok _ =>
    match Listing.parse config.duplicates source with
    | .error error => pure (.error ⟨.listing error, #[]⟩)
    | .ok listing =>
      Run.advance (Run.expired elapsed config) config listing config.maxSteps.toNat { engine }

/-- Runs a program on the given engine, whatever time it takes. -/
def run (config : Config) (engine : Option Engine) (source : String) :
    Except Run.Failure Run.Outcome :=
  Id.run (runTimed (pure 0) config engine source)

end QubitBasic
