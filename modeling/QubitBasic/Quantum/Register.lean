/-
  Qubit registers.

  A register of `n` qubits holds one amplitude for each of its `2 ^ n` basis states.  Bit `q` of a
  basis index is the classical value of qubit `q`, so qubit 0 is the least significant bit.

  Measuring a qubit splits the register into two branches.  A branch whose probability is at most
  `Normalizing.residue` is rounding residue and is never chosen; otherwise a sample below the
  probability of zero chooses zero.  The branch not chosen is set to zero and the other divided by
  the root of its probability.
-/
import QubitBasic.Quantum.Amplitude

namespace QubitBasic

/-- What measuring needs beyond ring arithmetic and order. -/
class Normalizing (R : Type) where
  sqrt : R → R
  /-- The probability up to which a branch counts as rounding residue. -/
  residue : R

/-- Doubles: the residue is the distance from one to the next double, `2 ^ -52`. -/
instance : Normalizing Float := ⟨Float.sqrt, Float.ofBits 0x3CB0000000000000⟩

/-- A register of qubits. -/
structure Register (R : Type) where
  qubits : Nat
  amplitudes : Array (Amplitude R)
  deriving DecidableEq, Repr

/-- The label of a basis state, qubit 0 at the right. -/
def basisLabel (index qubits : Nat) : String :=
  String.ofList ((List.range qubits).reverse.map fun q => if index.testBit q then '1' else '0')

namespace Register

variable {R : Type}

/-- A register of `n` qubits, all of them zero. -/
def zeros [OfNat R 0] [OfNat R 1] (n : Nat) : Register R :=
  ⟨n, (Array.replicate (1 <<< n) 0).setIfInBounds 0 1⟩

/-! ## Probabilities

  Sums start from `-0`, which is zero in every ring and adds nothing to any double: zero itself would
  turn a negative zero into a positive one.  So the sum of no probabilities at all, as for a qubit that
  the register does not have, is negative zero. -/

/-- The probability of each basis state. -/
def probabilities [Add R] [Mul R] (r : Register R) : Array R := r.amplitudes.map Amplitude.normSq

/-- The sum of all probabilities, from index 0 on. -/
def totalProbability [OfNat R 0] [Neg R] [Add R] [Mul R] (r : Register R) : R :=
  r.amplitudes.foldl (fun sum a => sum + a.normSq) (-0)

/-- The probability that qubit `q` has the value `bit`: the sum over the basis states in which it
    has, from index 0 on. -/
def marginal [OfNat R 0] [Neg R] [Add R] [Mul R] (r : Register R) (q : Nat) (bit : Bool) : R :=
  Nat.fold r.amplitudes.size
    (fun i _ sum => if i.testBit q = bit then sum + r.amplitudes[i].normSq else sum) (-0)

/-! ## Measurement -/

/-- The value that a qubit is found to have, where `p₀` and `p₁` are the probabilities of its two
    values. -/
def outcome [LE R] [DecidableLE R] [Normalizing R] (p₀ p₁ sample : R) : Bool :=
  if p₁ ≤ Normalizing.residue then false
  else if p₀ ≤ Normalizing.residue then true
  else p₀ ≤ sample

/-- The branch in which qubit `q` has the value `bit`, divided by the root of its probability `p`. -/
def project [OfNat R 0] [OfNat R 1] [Mul R] [Div R] [Normalizing R] (r : Register R) (q : Nat)
    (bit : Bool) (p : R) : Register R :=
  let factor := 1 / Normalizing.sqrt p
  { r with amplitudes := r.amplitudes.mapIdx fun i a => if i.testBit q = bit then a.scale factor else 0 }

/-- Measures qubit `q` with a sample from the unit interval: the value found, and the register
    after it. -/
def collapse [OfNat R 0] [OfNat R 1] [Neg R] [Add R] [Mul R] [Div R] [LE R] [DecidableLE R]
    [Normalizing R] (r : Register R) (q : Nat) (sample : R) : Bool × Register R :=
  let p₀ := r.marginal q false
  let p₁ := r.marginal q true
  let bit := outcome p₀ p₁ sample
  (bit, r.project q bit (if bit then p₁ else p₀))

/-- The branch that is kept is the one of the value found, divided by the root of its own
    probability. -/
theorem collapse_of_outcome [OfNat R 0] [OfNat R 1] [Neg R] [Add R] [Mul R] [Div R] [LE R]
    [DecidableLE R] [Normalizing R] {r : Register R} {q : Nat} {sample : R} {bit : Bool}
    (h : outcome (r.marginal q false) (r.marginal q true) sample = bit) :
    r.collapse q sample = (bit, r.project q bit (r.marginal q bit)) := by
  subst h
  rw [collapse]
  cases outcome (r.marginal q false) (r.marginal q true) sample <;> rfl

end Register

end QubitBasic
