/-
  Circuits: the operations that a register has been through, in order.
-/
namespace QubitBasic

/-- One operation on a register. -/
inductive Operation where
  | hadamard (qubit : Nat)
  | flip (qubit : Nat)
  | controlledNot (control target : Nat)
  | measure (qubit : Nat)
  deriving DecidableEq, Repr

namespace Operation

/-- The short name of an operation. -/
def mnemonic : Operation → String
  | .hadamard _ => "H"
  | .flip _ => "X"
  | .controlledNot _ _ => "CNOT"
  | .measure _ => "M"

/-- An operation as it is listed: its short name and its qubits. -/
def display : Operation → String
  | .controlledNot control target => s!"CNOT {control},{target}"
  | .hadamard qubit => s!"H {qubit}"
  | .flip qubit => s!"X {qubit}"
  | .measure qubit => s!"M {qubit}"

/-- Measurements are counted apart from gates. -/
def isMeasurement : Operation → Bool
  | .measure _ => true
  | _ => false

end Operation

/-- The operations on a register of so many qubits, in the order they were made. -/
structure Circuit where
  qubits : Nat
  operations : Array Operation
  deriving DecidableEq, Repr

namespace Circuit

/-- The number of gates. -/
def gateCount (c : Circuit) : Nat := c.operations.countP (!·.isMeasurement)

/-- The number of measurements. -/
def measureCount (c : Circuit) : Nat := c.operations.countP Operation.isMeasurement

end Circuit

end QubitBasic
