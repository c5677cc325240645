/-
  A value that has been found is found again.

  A measurement sets every amplitude that disagrees with the value found to zero.  After it the qubit
  has that value for certain (`Certain`), and so has every qubit that was perfectly correlated with it
  before (`Correlated`): an index where the second qubit disagrees either disagrees in the first one, and
  was set to zero, or had bits that differ, and was zero already (`Correlated.certain_project`).

  Measuring a qubit whose value is certain is no event.  The other value has probability zero, which is
  residue and never found, whatever the sample; the value itself has probability one, and dividing by the
  root of one changes nothing (`Certain.collapse_eq`).  So the second measurement finds what the first one
  found and leaves the register alone (`measured_again`).  With the qubit itself in place of the second
  one this is repeatability, since every qubit is correlated with itself.
-/
import Mathlib.Data.Complex.Basic
import Mathlib.Tactic.IntervalCases
import QubitBasic.Proofs.Register.Normalization

namespace QubitBasic

open Finset

/-! ## Scaling -/

namespace Amplitude

theorem zero_scale {K : Type} [CommRing K] (s : K) : (0 : Amplitude K).scale s = 0 := by
  show (⟨0 * s, 0 * s⟩ : Amplitude K) = ⟨0, 0⟩
  rw [zero_mul]

theorem scale_one {K : Type} [CommRing K] (a : Amplitude K) : a.scale 1 = a := by
  show (⟨a.re * 1, a.im * 1⟩ : Amplitude K) = a
  rw [mul_one, mul_one]

/-- An amplitude over the reals as a complex number. -/
def toComplex (a : Amplitude ℝ) : ℂ := ⟨a.re, a.im⟩

theorem toComplex_zero : (0 : Amplitude ℝ).toComplex = 0 := rfl

theorem toComplex_scale (a : Amplitude ℝ) (s : ℝ) : (a.scale s).toComplex = a.toComplex * s := by
  apply Complex.ext
  · simp [toComplex, scale]
  · simp [toComplex, scale]

end Amplitude

namespace Register

section Ring

variable {K : Type} [CommRing K]

/-! ## Certain values and correlated qubits -/

/-- Qubit `q` has the value `bit` in every basis state that has an amplitude. -/
def Certain (r : Register K) (q : Nat) (bit : Bool) : Prop :=
  ∀ (i : Nat) (x : Amplitude K), r.amplitudes[i]? = some x → i.testBit q ≠ bit → x = 0

/-- The qubits `a` and `b` have the same value in every basis state that has an amplitude. -/
def Correlated (r : Register K) (a b : Nat) : Prop :=
  ∀ (i : Nat) (x : Amplitude K), r.amplitudes[i]? = some x → i.testBit a ≠ i.testBit b → x = 0

theorem correlated_self (r : Register K) (a : Nat) : r.Correlated a a := by
  intro i x _ hne
  exact absurd rfl hne

/-- The other value of a qubit whose value is certain has no probability. -/
theorem Certain.marginal_not {r : Register K} {q : Nat} {bit : Bool} (h : r.Certain q bit) :
    r.marginal q (!bit) = 0 := by
  rw [marginal_eq]
  refine sum_eq_zero fun i hi => ?_
  have hi : i < r.amplitudes.size := mem_range.1 hi
  split
  · rename_i hbit
    have hzero : r.amplitudes[i] = 0 := by
      apply h i _ (Array.getElem?_eq_getElem hi)
      rw [hbit]
      cases bit <;> decide
    rw [weight_of_lt hi, hzero, Amplitude.normSq_zero]
  · rfl

/-- The value that is certain has all the probability there is. -/
theorem Certain.marginal_eq_totalWeight {r : Register K} {q : Nat} {bit : Bool}
    (h : r.Certain q bit) : r.marginal q bit = totalWeight r.amplitudes := by
  have hsum := r.marginal_add_marginal q
  have hnot := h.marginal_not
  cases bit with
  | false => rwa [show r.marginal q true = 0 from hnot, add_zero] at hsum
  | true => rwa [show r.marginal q false = 0 from hnot, zero_add] at hsum

end Ring

/-! ## Projections -/

section Field

variable {K : Type} [Field K] [LinearOrder K] [ExactRoots K]

theorem getElem?_project (r : Register K) (q : Nat) (bit : Bool) (p : K) (i : Nat) :
    (r.project q bit p).amplitudes[i]? = r.amplitudes[i]?.map fun x =>
      if i.testBit q = bit then x.scale (1 / Normalizing.sqrt p) else 0 := by
  rw [project, Array.getElem?_mapIdx]

/-- What is left after a value of `a` has been found has that value of `b` for certain. -/
theorem Correlated.certain_project {r : Register K} {a b : Nat} (h : r.Correlated a b) (bit : Bool)
    (p : K) : (r.project a bit p).Certain b bit := by
  intro i x hx hne
  rw [getElem?_project] at hx
  obtain ⟨y, hy, rfl⟩ := Option.map_eq_some_iff.1 hx
  by_cases hbit : i.testBit a = bit
  · -- The first qubit agrees and the second does not, so there was nothing here before.
    have hzero : y = 0 := by
      apply h i y hy
      rw [hbit]
      exact hne.symm
    rw [if_pos hbit, hzero, Amplitude.zero_scale]
  · rw [if_neg hbit]

/-- Keeping the branch of a value that is certain keeps everything, if the root of one is one. -/
theorem Certain.project_one {r : Register K} {q : Nat} {bit : Bool} (h : r.Certain q bit)
    (hroot : Normalizing.sqrt (1 : K) = 1) : r.project q bit 1 = r := by
  have hamplitudes : (r.project q bit 1).amplitudes = r.amplitudes := by
    apply Array.ext_getElem?
    intro i
    rw [getElem?_project, hroot, one_div_one]
    cases hx : r.amplitudes[i]? with
    | none => rfl
    | some x =>
      rw [Option.map_some]
      split
      · rw [Amplitude.scale_one]
      · rename_i hbit
        rw [h i x hx hbit]
  exact congrArg (Register.mk r.qubits) hamplitudes

end Field

/-! ## Measuring twice -/

/-- Measuring a qubit whose value is certain finds that value and changes nothing. -/
theorem Certain.collapse_eq {r : Register ℝ} {q : Nat} {bit : Bool} (h : r.Certain q bit)
    (hr : totalWeight r.amplitudes = 1) (sample : ℝ) : r.collapse q sample = (bit, r) := by
  obtain ⟨found, hcollapse, hlt, -, -⟩ := collapse_of_normalized hr q sample
  have hfound : found = bit := by
    by_contra hne
    have hresidue : (0 : ℝ) < Normalizing.residue := by
      rw [ExactRoots.residue_eq]
      norm_num
    rw [Bool.eq_not.2 hne, h.marginal_not] at hlt
    linarith
  rw [hcollapse, hfound, h.marginal_eq_totalWeight.trans hr, h.project_one Real.sqrt_one]

/-- The amplitude of the basis state `i`, zero past the last one. -/
def amplitude (r : Register ℝ) (i : Nat) : ℂ := r.amplitudes[i]?.elim 0 Amplitude.toComplex

theorem amplitude_project (r : Register ℝ) (q : Nat) (bit : Bool) (p : ℝ) (i : Nat) :
    (r.project q bit p).amplitude i =
      if i.testBit q = bit then r.amplitude i * (1 / Real.sqrt p : ℝ) else 0 := by
  rw [amplitude, amplitude, getElem?_project]
  cases r.amplitudes[i]? with
  | none => simp
  | some x =>
    rw [Option.map_some, Option.elim_some, Option.elim_some]
    split
    · exact x.toComplex_scale _
    · exact Amplitude.toComplex_zero

/-- **Correlated qubits agree.**  Let a register be normalized and `a` and `b` two qubits, possibly one,
    that have the same value wherever there is an amplitude.  Whatever the samples, once `a` has been
    measured the value found is that of `b` with probability one; measuring `b` then finds it too and
    leaves the register as it is.  The first measurement leaves exactly the amplitudes of the value
    found, in the ratios that they had before. -/
theorem measured_again {r : Register ℝ} (hr : r.totalProbability = 1) {a b : Nat}
    (hab : r.Correlated a b) (sample sample' : ℝ) :
    let bit := (r.collapse a sample).1
    let after := (r.collapse a sample).2
    after.marginal b bit = 1 ∧ after.collapse b sample' = (bit, after) ∧
      (∀ i, after.amplitude i ≠ 0 ↔ r.amplitude i ≠ 0 ∧ i.testBit a = bit) ∧
      ∀ i j, i.testBit a = bit → j.testBit a = bit →
        after.amplitude i / after.amplitude j = r.amplitude i / r.amplitude j := by
  intro bit after
  rw [totalProbability_eq] at hr
  obtain ⟨found, hcollapse, -, hroot, htotal⟩ := collapse_of_normalized hr a sample
  have hbit : bit = found := congrArg Prod.fst hcollapse
  have hafter : after = r.project a found (r.marginal a found) := congrArg Prod.snd hcollapse
  have hcertain : after.Certain b bit := by
    rw [hafter, hbit]
    exact hab.certain_project found _
  have hnormal : totalWeight after.amplitudes = 1 := by
    rw [hafter]
    exact htotal
  have hamplitude : ∀ i, after.amplitude i = if i.testBit a = bit then
      r.amplitude i * (1 / Real.sqrt (r.marginal a found) : ℝ) else 0 := by
    intro i
    rw [hafter, hbit]
    exact r.amplitude_project a found _ i
  -- The branch is divided by a root that is not zero, so none of its amplitudes gets lost.
  have hfactor : ((1 / Real.sqrt (r.marginal a found) : ℝ) : ℂ) ≠ 0 :=
    Complex.ofReal_ne_zero.2 (one_div_ne_zero hroot)
  refine ⟨hcertain.marginal_eq_totalWeight.trans hnormal, hcertain.collapse_eq hnormal sample', ?_, ?_⟩
  · intro i
    rw [hamplitude]
    by_cases hi : i.testBit a = bit
    · rw [if_pos hi, mul_ne_zero_iff_right hfactor, and_iff_left hi]
    · rw [if_neg hi]
      constructor
      · intro hzero
        exact absurd rfl hzero
      · intro hboth
        exact absurd hboth.2 hi
  · intro i j hi hj
    rw [hamplitude, hamplitude, if_pos hi, if_pos hj, mul_div_mul_right _ _ hfactor]

/-- Three qubits in step, in two basis states of different amplitudes.  The sample for the first one is
    the very probability of a zero; after it the third qubit is measured, or the first one again. -/
theorem measured_again_three_in_step :
    let r : Register ℝ := ⟨3, #[⟨3 / 5, 0⟩, 0, 0, 0, 0, 0, 0, ⟨0, 4 / 5⟩]⟩
    let bit := (r.collapse 0 (9 / 25)).1
    let after := (r.collapse 0 (9 / 25)).2
    r.totalProbability = 1 ∧ r.Correlated 0 2 ∧ after.marginal 2 bit = 1 ∧
      after.collapse 2 (1 / 2) = (bit, after) ∧ after.collapse 0 0 = (bit, after) := by
  intro r bit after
  have hr : r.totalProbability = 1 := by
    have hlow : (⟨3 / 5, 0⟩ : Amplitude ℝ).normSq = 9 / 25 := by norm_num [Amplitude.normSq]
    have hhigh : (⟨0, 4 / 5⟩ : Amplitude ℝ).normSq = 16 / 25 := by norm_num [Amplitude.normSq]
    norm_num [r, totalProbability, hlow, hhigh]
  have hcorrelated : r.Correlated 0 2 := by
    intro i x hx hne
    have hsize : i < 8 := (Array.getElem?_eq_some_iff.1 hx).1
    have hfirst : i ≠ 0 := by
      rintro rfl
      exact hne (by decide)
    have hlast : i ≠ 7 := by
      rintro rfl
      exact hne (by decide)
    obtain ⟨hlow, hhigh⟩ : 0 < i ∧ i < 7 := by omega
    interval_cases i <;> exact (Option.some.inj hx).symm
  obtain ⟨hmarginal, hthird, -, -⟩ := measured_again hr hcorrelated (9 / 25) (1 / 2)
  obtain ⟨-, hfirst, -, -⟩ := measured_again hr (r.correlated_self 0) (9 / 25) 0
  exact ⟨hr, hcorrelated, hmarginal, hthird, hfirst⟩

end Register

end QubitBasic
