/-
  Complex amplitudes over any carrier of real numbers.

  The simulator runs on doubles, where the order of the operations matters to the last bit; laws of
  the gates are laws over a ring.  Both read the same definitions, so every operation here asks only
  for the arithmetic that it uses.
-/
namespace QubitBasic

/-- The complex number `re + im · i`. -/
structure Amplitude (R : Type) where
  re : R
  im : R
  deriving DecidableEq, Repr

namespace Amplitude

variable {R : Type}

/-- The real number `x` as an amplitude. -/
def ofReal [OfNat R 0] (x : R) : Amplitude R := ⟨x, 0⟩

instance [OfNat R 0] : OfNat (Amplitude R) 0 := ⟨ofReal 0⟩

instance [OfNat R 0] [OfNat R 1] : OfNat (Amplitude R) 1 := ⟨ofReal 1⟩

instance [Add R] : Add (Amplitude R) := ⟨fun a b => ⟨a.re + b.re, a.im + b.im⟩⟩

instance [Sub R] : Sub (Amplitude R) := ⟨fun a b => ⟨a.re - b.re, a.im - b.im⟩⟩

instance [Neg R] : Neg (Amplitude R) := ⟨fun a => ⟨-a.re, -a.im⟩⟩

instance [Add R] [Sub R] [Mul R] : Mul (Amplitude R) :=
  ⟨fun a b => ⟨a.re * b.re - a.im * b.im, a.re * b.im + a.im * b.re⟩⟩

@[simp] theorem add_re [Add R] (a b : Amplitude R) : (a + b).re = a.re + b.re := rfl

@[simp] theorem add_im [Add R] (a b : Amplitude R) : (a + b).im = a.im + b.im := rfl

@[simp] theorem neg_re [Neg R] (a : Amplitude R) : (-a).re = -a.re := rfl

@[simp] theorem neg_im [Neg R] (a : Amplitude R) : (-a).im = -a.im := rfl

@[simp] theorem mul_re [Add R] [Sub R] [Mul R] (a b : Amplitude R) :
    (a * b).re = a.re * b.re - a.im * b.im := rfl

@[simp] theorem mul_im [Add R] [Sub R] [Mul R] (a b : Amplitude R) :
    (a * b).im = a.re * b.im + a.im * b.re := rfl

/-- The squared absolute value: the probability of a basis state with this amplitude. -/
def normSq [Add R] [Mul R] (a : Amplitude R) : R := a.re * a.re + a.im * a.im

/-- Both components multiplied by `s`. -/
def scale [Mul R] (a : Amplitude R) (s : R) : Amplitude R := ⟨a.re * s, a.im * s⟩

/-- Both components of `a` and `b` are nearer than `1e-10`; rounding errors are forgiven. -/
def isNear (a b : Amplitude Float) : Bool :=
  (a.re - b.re).abs < 1e-10 && (a.im - b.im).abs < 1e-10

end Amplitude

end QubitBasic
