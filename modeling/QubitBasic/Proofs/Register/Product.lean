/-
  Gates with matrices compose and commute as matrices do.

  Over a commutative ring amplitudes are a commutative ring themselves, and a gate with a matrix is what
  the matrix says.  Two gates on one qubit are the gate of the product (`applyMatrix_mul`), gates on two
  different qubits commute (`applyMatrix_comm`), and the Hadamard gate undoes itself, since its matrix is
  its own inverse (`hadamard_mul_hadamard`).

  Each law is one identity between rows of matrices, read off the register index by index.  Two gates on
  one qubit mix the two amplitudes of a pair.  Two gates on different qubits mix four, at the index, its
  two mates and the mate of a mate; that it makes no difference which mate is taken first is all that is
  needed of the indices.
-/
import Mathlib.Tactic.LinearCombination
import Mathlib.Tactic.Ring
import Mathlib.Data.ZMod.Basic
import QubitBasic.Proofs.Register.Pointwise

namespace QubitBasic

variable {K : Type} [CommRing K] {t t' i : Nat}

/-! ## Amplitudes over a ring -/

namespace Amplitude

attribute [ext] Amplitude

@[simp] theorem zero_re : (0 : Amplitude K).re = 0 := rfl

@[simp] theorem zero_im : (0 : Amplitude K).im = 0 := rfl

@[simp] theorem one_re : (1 : Amplitude K).re = 1 := rfl

@[simp] theorem one_im : (1 : Amplitude K).im = 0 := rfl

/-- Complex arithmetic over a commutative ring is that of a commutative ring. -/
abbrev commRing : CommRing (Amplitude K) where
  zero := 0
  one := 1
  add_assoc a b c := by ext <;> exact add_assoc _ _ _
  zero_add a := by ext <;> exact zero_add _
  add_zero a := by ext <;> exact add_zero _
  add_comm a b := by ext <;> exact add_comm _ _
  neg_add_cancel a := by ext <;> exact neg_add_cancel _
  sub_eq_add_neg a b := by ext <;> exact sub_eq_add_neg _ _
  mul_assoc a b c := by ext <;> simp only [mul_re, mul_im] <;> ring
  mul_comm a b := by ext <;> simp only [mul_re, mul_im] <;> ring
  one_mul a := by ext <;> simp
  mul_one a := by ext <;> simp
  zero_mul a := by ext <;> simp
  mul_zero a := by ext <;> simp
  left_distrib a b c := by ext <;> simp only [mul_re, mul_im, add_re, add_im] <;> ring
  right_distrib a b c := by ext <;> simp only [mul_re, mul_im, add_re, add_im] <;> ring
  nsmul := nsmulRec
  zsmul := zsmulRec

end Amplitude

/-! ## Matrices -/

namespace Matrix2

instance : One (Matrix2 K) := ⟨⟨1, 0, 0, 1⟩⟩

/-- The product of two matrices: rows of the left one times columns of the right one. -/
instance : Mul (Matrix2 K) :=
  ⟨fun g g' => ⟨g.e₀₀ * g'.e₀₀ + g.e₀₁ * g'.e₁₀, g.e₀₀ * g'.e₀₁ + g.e₀₁ * g'.e₁₁,
    g.e₁₀ * g'.e₀₀ + g.e₁₁ * g'.e₁₀, g.e₁₀ * g'.e₀₁ + g.e₁₁ * g'.e₁₁⟩⟩

attribute [local instance] Amplitude.commRing

theorem row_mul (g g' : Matrix2 K) (bit : Bool) (a b : Amplitude K) :
    (g' * g).row bit a b = g'.row bit (g.row bit a b) (g.row (!bit) b a) := by
  cases bit with
  | false =>
    show (g'.e₀₀ * g.e₀₀ + g'.e₀₁ * g.e₁₀) * a + (g'.e₀₀ * g.e₀₁ + g'.e₀₁ * g.e₁₁) * b =
      g'.e₀₀ * (g.e₀₀ * a + g.e₀₁ * b) + g'.e₀₁ * (g.e₁₀ * a + g.e₁₁ * b)
    ring
  | true =>
    show (g'.e₁₀ * g.e₀₀ + g'.e₁₁ * g.e₁₀) * b + (g'.e₁₀ * g.e₀₁ + g'.e₁₁ * g.e₁₁) * a =
      g'.e₁₀ * (g.e₀₀ * b + g.e₀₁ * a) + g'.e₁₁ * (g.e₁₀ * b + g.e₁₁ * a)
    ring

theorem row_one (bit : Bool) (a b : Amplitude K) : (1 : Matrix2 K).row bit a b = a := by
  cases bit with
  | false =>
    show (1 : Amplitude K) * a + 0 * b = a
    ring
  | true =>
    show (0 : Amplitude K) * b + 1 * a = a
    ring

/-- Rows of two matrices for two qubits, applied to the four amplitudes that differ in these qubits
    only. -/
theorem row_comm (g g' : Matrix2 K) (bit bit' : Bool) (a b a' b' : Amplitude K) :
    g'.row bit' (g.row bit a b) (g.row bit a' b') = g.row bit (g'.row bit' a a') (g'.row bit' b b') := by
  cases bit <;> cases bit' <;> simp only [row, Bool.false_eq_true, if_true, if_false] <;> ring

/-- The Hadamard matrix is its own inverse. -/
theorem hadamard_mul_hadamard {h : K} (hh : 2 * h * h = 1) :
    hadamard h * hadamard h = (1 : Matrix2 K) := by
  have hsum : Amplitude.ofReal h * Amplitude.ofReal h + Amplitude.ofReal h * Amplitude.ofReal h = 1 := by
    ext
    · simp only [Amplitude.ofReal, Amplitude.add_re, Amplitude.mul_re, Amplitude.one_re]
      linear_combination hh
    · simp only [Amplitude.ofReal, Amplitude.add_im, Amplitude.mul_im, Amplitude.one_im]
      ring
  have h₀₁ : Amplitude.ofReal h * Amplitude.ofReal h + Amplitude.ofReal h * -Amplitude.ofReal h = 0 := by
    ring
  have h₁₀ : Amplitude.ofReal h * Amplitude.ofReal h + -Amplitude.ofReal h * Amplitude.ofReal h = 0 := by
    ring
  have h₁₁ :
      Amplitude.ofReal h * Amplitude.ofReal h + -Amplitude.ofReal h * -Amplitude.ofReal h = 1 := by
    rw [neg_mul_neg, hsum]
  show Matrix2.mk _ _ _ _ = Matrix2.mk 1 0 0 1
  rw [Matrix2.mk.injEq]
  exact ⟨hsum, h₀₁, h₁₀, h₁₁⟩

end Matrix2

/-! ## Gates -/

namespace Register

variable {r : Register K}

theorem applyMatrix_one (hr : r.Full) (ht : t < r.qubits) : r.applyMatrix 1 t = r := by
  apply hr.ext_getElem? (hr.applyMatrix 1 t) rfl
  intro i hi
  obtain ⟨a, ha⟩ := hr.exists_getElem? hi
  obtain ⟨b, hb⟩ := hr.exists_getElem? (mate_lt ht hi)
  rw [getElem?_applyMatrix 1 ha hb, Matrix2.row_one, ha]

/-- Two gates on one qubit are one gate with the product of their matrices. -/
theorem applyMatrix_mul (hr : r.Full) (ht : t < r.qubits) (g g' : Matrix2 K) :
    (r.applyMatrix g t).applyMatrix g' t = r.applyMatrix (g' * g) t := by
  apply (hr.applyMatrix (g' * g) t).ext_getElem? ((hr.applyMatrix g t).applyMatrix g' t) rfl
  intro i hi
  obtain ⟨a, ha⟩ := hr.exists_getElem? hi
  obtain ⟨b, hb⟩ := hr.exists_getElem? (mate_lt ht hi)
  have hown := getElem?_applyMatrix g ha hb
  have hother := getElem?_applyMatrix (t := t) g hb ((mate_mate t i).symm ▸ ha)
  rw [testBit_mate_self] at hother
  rw [getElem?_applyMatrix g' hown hother, getElem?_applyMatrix (g' * g) ha hb, Matrix2.row_mul]

/-- Gates on two different qubits commute. -/
theorem applyMatrix_comm (hr : r.Full) (ht : t < r.qubits) (ht' : t' < r.qubits) (hne : t ≠ t')
    (g g' : Matrix2 K) :
    (r.applyMatrix g t).applyMatrix g' t' = (r.applyMatrix g' t').applyMatrix g t := by
  apply ((hr.applyMatrix g' t').applyMatrix g t).ext_getElem? ((hr.applyMatrix g t).applyMatrix g' t') rfl
  intro i hi
  -- The four amplitudes whose indices differ in the two qubits only.
  obtain ⟨a, ha⟩ := hr.exists_getElem? hi
  obtain ⟨b, hb⟩ := hr.exists_getElem? (mate_lt ht hi)
  obtain ⟨a', ha'⟩ := hr.exists_getElem? (mate_lt ht' hi)
  obtain ⟨b', hb'⟩ := hr.exists_getElem? (mate_lt ht (mate_lt ht' hi))
  have hfirst := getElem?_applyMatrix g ha hb
  have hfirst' := getElem?_applyMatrix g ha' hb'
  have hsecond := getElem?_applyMatrix g' ha ha'
  have hsecond' := getElem?_applyMatrix g' hb (mate_comm t t' i ▸ hb')
  rw [testBit_mate_of_ne hne] at hfirst'
  rw [testBit_mate_of_ne hne.symm] at hsecond'
  rw [getElem?_applyMatrix g' hfirst hfirst', getElem?_applyMatrix g hsecond hsecond',
    Matrix2.row_comm]

/-- **Gates compose and commute as matrices do**, over every commutative ring.  Two gates on one qubit
    are the gate with the product of their matrices, gates on different qubits commute, and the Hadamard
    gate, with a factor whose square is one half, undoes itself. -/
theorem gates_as_matrices (hr : r.Full) (ht : t < r.qubits) (g g' : Matrix2 K) :
    (r.applyMatrix g t).applyMatrix g' t = r.applyMatrix (g' * g) t ∧
      (∀ t' < r.qubits, t ≠ t' →
        (r.applyMatrix g t).applyMatrix g' t' = (r.applyMatrix g' t').applyMatrix g t) ∧
      ∀ h : K, 2 * h * h = 1 →
        (r.applyMatrix (.hadamard h) t).applyMatrix (.hadamard h) t = r := by
  refine ⟨applyMatrix_mul hr ht g g', fun t' ht' hne => applyMatrix_comm hr ht ht' hne g g', ?_⟩
  intro h hh
  rw [applyMatrix_mul hr ht, Matrix2.hadamard_mul_hadamard hh, applyMatrix_one hr ht]

/-- Over the integers modulo seven two is an inverse root of two.  Two qubits, both components in use. -/
theorem gates_as_matrices_modulo_seven :
    let r : Register (ZMod 7) := ⟨2, #[⟨1, 2⟩, ⟨3, 0⟩, ⟨0, 5⟩, ⟨6, 4⟩]⟩
    let g : Matrix2 (ZMod 7) := .hadamard 2
    let g' : Matrix2 (ZMod 7) := ⟨⟨1, 1⟩, ⟨0, 3⟩, ⟨2, 0⟩, ⟨0, 6⟩⟩
    r.Full ∧ 1 < r.qubits ∧ 0 < r.qubits ∧ (2 : ZMod 7) * 2 * 2 = 1 ∧
      (r.applyMatrix g 1).applyMatrix g' 1 = r.applyMatrix (g' * g) 1 ∧
      (r.applyMatrix g 1).applyMatrix g' 0 = (r.applyMatrix g' 0).applyMatrix g 1 ∧
      (r.applyMatrix g 1).applyMatrix g 1 = r := by
  intro r g g'
  have hr : r.Full := rfl
  have h₁ : 1 < r.qubits := by decide
  have h₀ : 0 < r.qubits := by decide
  have hh : (2 : ZMod 7) * 2 * 2 = 1 := by decide
  obtain ⟨hproduct, hcomm, hundo⟩ := gates_as_matrices hr h₁ g g'
  exact ⟨hr, h₁, h₀, hh, hproduct, hcomm 0 h₀ (by decide), hundo 2 hh⟩

end Register

end QubitBasic
