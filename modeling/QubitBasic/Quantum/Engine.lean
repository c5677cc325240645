/-
  The quantum engine: a register, the log of what it has been through, and a stream of samples.

  Qubits and counts are named by integers, since they come from program text.  Every operation checks
  them against the register before it changes anything: a failing operation leaves the register, the
  log and the position in the stream as they were.  Before the first `prepare` there is no register,
  and no qubit is in range.
-/
import QubitBasic.Quantum.Circuit
import QubitBasic.Quantum.Gates
import QubitBasic.Quantum.Samples

namespace QubitBasic

/-- Why an operation of the engine fails. -/
inductive QuantumError where
  | qubitCount (requested : Int) (greatest : Nat)
  | qubitIndex (qubit : Int) (qubits : Nat)
  deriving DecidableEq, Repr

/-- The wording of a `QuantumError`. -/
def QuantumError.message : QuantumError → String
  | .qubitCount requested greatest =>
    s!"invalid qubit count {requested}: must be between 1 and {greatest}"
  | .qubitIndex qubit qubits =>
    s!"qubit index {qubit} out of range for a {qubits}-qubit register"

/-- A simulated quantum computer. -/
structure Engine where
  register : Option (Register Float) := none
  /-- The operations since the register was prepared. -/
  operations : Array Operation := #[]
  samples : Samples
  /-- The number of samples consumed. -/
  draws : Nat := 0
  /-- The greatest register that may be prepared. -/
  ceiling : Nat := 20

namespace Engine

/-- The greatest ceiling that an engine can have. -/
def greatestCeiling : Nat := 30

/-- The engine with another ceiling, at most `greatestCeiling`. -/
def withCeiling (e : Engine) (ceiling : Nat) : Engine :=
  { e with ceiling := min ceiling greatestCeiling }

/-- The number of qubits in the register; 0 without one. -/
def qubits (e : Engine) : Nat := e.register.elim 0 (·.qubits)

/-- The probability of each basis state; none without a register. -/
def probabilities (e : Engine) : Array Float := e.register.elim #[] (·.probabilities)

/-- What the register has been through. -/
def circuit (e : Engine) : Circuit := ⟨e.qubits, e.operations⟩

/-! ## Operations -/

/-- A computation on an engine that may fail. -/
abbrev Step := EStateM QuantumError Engine

/-- The qubit that `qubit` names. -/
def checkQubit (qubit : Int) : Step Nat := do
  let e ← get
  if 0 ≤ qubit ∧ qubit < e.qubits then return qubit.toNat
  else throw (.qubitIndex qubit e.qubits)

/-- The register, which `qubit` was to be found in. -/
def getRegister (qubit : Int) : Step (Register Float) := do
  match (← get).register with
  | some r => return r
  | none => throw (.qubitIndex qubit 0)

/-- Puts `r` in place of the register after `operation`. -/
def record (operation : Operation) (r : Register Float) : Step Unit :=
  modify fun e => { e with register := some r, operations := e.operations.push operation }

/-- The next sample of the stream. -/
def draw : Step Float :=
  modifyGet fun e => (e.samples e.draws, { e with draws := e.draws + 1 })

/-- Puts a new register of `count` qubits, all zero, in place of the register and its log. -/
def prepare (count : Int) : Step Unit := do
  let e ← get
  if 1 ≤ count ∧ count ≤ e.ceiling then
    set { e with register := some (.zeros count.toNat), operations := #[] }
  else throw (.qubitCount count e.ceiling)

/-- The Hadamard gate. -/
def hadamard (qubit : Int) : Step Unit := do
  let q ← checkQubit qubit
  let r ← getRegister qubit
  record (.hadamard q) (r.hadamard q)

/-- Flips a qubit. -/
def flip (qubit : Int) : Step Unit := do
  let q ← checkQubit qubit
  let r ← getRegister qubit
  record (.flip q) (r.flip q)

/-- Flips the target where the control is one. -/
def controlledNot (control target : Int) : Step Unit := do
  let c ← checkQubit control
  let t ← checkQubit target
  let r ← getRegister control
  record (.controlledNot c t) (r.controlledNot c t)

/-- Measures a qubit, at the price of one sample. -/
def measure (qubit : Int) : Step Bool := do
  let q ← checkQubit qubit
  let sample ← draw
  let r ← getRegister qubit
  let (bit, r) := r.collapse q sample
  record (.measure q) r
  return bit

/-- The probability that measuring a qubit finds a one. -/
def probabilityOne (qubit : Int) : Step Float := do
  let q ← checkQubit qubit
  return (← get).register.elim 0 (·.marginal q true)

end Engine

end QubitBasic
