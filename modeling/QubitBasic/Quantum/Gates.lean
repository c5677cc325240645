/-
  Gates on a register.

  A gate on qubit `t` treats the basis states in pairs that differ in bit `t` only.  Each sweep runs
  through the indices once, works on a pair when it meets the member whose bit is zero, and reads both
  amplitudes of the pair before it writes either, so the register is changed in place and still as if
  all pairs had been changed at once.
-/
import QubitBasic.Quantum.Register

namespace QubitBasic

variable {R : Type}

/-- A two by two matrix of amplitudes, by rows. -/
structure Matrix2 (R : Type) where
  e₀₀ : Amplitude R
  e₀₁ : Amplitude R
  e₁₀ : Amplitude R
  e₁₁ : Amplitude R
  deriving DecidableEq, Repr

/-- The Hadamard matrix with the factor `h`, which stands for the inverse root of two. -/
def Matrix2.hadamard [OfNat R 0] [Neg R] (h : R) : Matrix2 R :=
  ⟨.ofReal h, .ofReal h, .ofReal h, -.ofReal h⟩

/-- The double nearest to the inverse root of two. -/
def inverseRootTwo : Float := 0.7071067811865476

/-- The matrix `g` applied to the amplitudes at `i` and `j`. -/
def Matrix2.onPair [Add R] [Sub R] [Mul R] (g : Matrix2 R) (i j : Nat)
    (amplitudes : Array (Amplitude R)) : Array (Amplitude R) :=
  match amplitudes[i]?, amplitudes[j]? with
  | some a, some b =>
    (amplitudes.setIfInBounds i (g.e₀₀ * a + g.e₀₁ * b)).setIfInBounds j (g.e₁₀ * a + g.e₁₁ * b)
  | _, _ => amplitudes

namespace Register

/-- Works through the pairs of indices that differ in bit `t` and whose lower member satisfies `p`. -/
def sweep (p : Nat → Bool) (t : Nat)
    (onPair : Nat → Nat → Array (Amplitude R) → Array (Amplitude R)) (r : Register R) : Register R :=
  let mask := 1 <<< t
  { r with
    amplitudes := Nat.fold r.amplitudes.size
      (fun i _ amplitudes => if p i && !i.testBit t then onPair i (i ^^^ mask) amplitudes else amplitudes)
      r.amplitudes }

/-- The gate with the matrix `g` on qubit `t`. -/
def applyMatrix [Add R] [Sub R] [Mul R] (g : Matrix2 R) (t : Nat) (r : Register R) : Register R :=
  r.sweep (fun _ => true) t g.onPair

/-- The Hadamard gate on qubit `t`. -/
def hadamard (t : Nat) (r : Register Float) : Register Float :=
  r.applyMatrix (.hadamard inverseRootTwo) t

/-- Flips qubit `t`. -/
def flip (t : Nat) (r : Register R) : Register R :=
  r.sweep (fun _ => true) t fun i j amplitudes => amplitudes.swapIfInBounds i j

/-- Flips qubit `t` where qubit `c` is one.  With `c = t` no pair qualifies. -/
def controlledNot (c t : Nat) (r : Register R) : Register R :=
  r.sweep (fun i => i.testBit c) t fun i j amplitudes => amplitudes.swapIfInBounds i j

end Register

end QubitBasic
