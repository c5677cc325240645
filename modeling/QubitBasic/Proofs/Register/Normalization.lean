/-
  In exact arithmetic a register stays normalized.

  The definitions of registers and gates ask their carrier only for the operations that they use, so
  they can be read over an ordered field with square roots (`ExactRoots`), the reals among them, and not
  over doubles alone.  There the probabilities of a register add up to one after any sequence of
  operations from all qubits zero, the two marginals of every qubit add up to one, and a measurement
  always keeps a branch of probability greater than the residue, so that it never divides by zero
  (`Register.normalized_after`).

  A gate changes the register in place, one pair of amplitudes after the other.  No sum is re-indexed to
  follow it: each single pair keeps the sum of all probabilities (`totalWeight_eq_of_pair`), hence the
  sweep over the pairs does (`totalWeight_sweep`).  That the pairs of one gate are disjoint is never
  needed.
-/
import Mathlib.Algebra.BigOperators.Intervals
import Mathlib.Analysis.Real.Sqrt
import Mathlib.Tactic.LinearCombination
import QubitBasic.Proofs.Engine.History
import QubitBasic.Proofs.Register.Sweep

namespace QubitBasic

open Finset

/-- Exact arithmetic: an ordered field with the roots that measuring takes, and `2 ^ -52` as the
    greatest probability that counts as residue. -/
class ExactRoots (K : Type) [Field K] [LinearOrder K] extends Normalizing K where
  sqrt_mul_sqrt {x : K} : 0 ≤ x → sqrt x * sqrt x = x
  residue_eq : residue = 1 / 2 ^ 52

noncomputable instance : ExactRoots ℝ where
  sqrt := Real.sqrt
  residue := 1 / 2 ^ 52
  sqrt_mul_sqrt := Real.mul_self_sqrt
  residue_eq := rfl

/-! ## Operations over any carrier -/

section Carrier

variable {R : Type} [OfNat R 0] [OfNat R 1] [Neg R] [Add R] [Sub R] [Mul R] [Div R] [LE R]
  [DecidableLE R] [Normalizing R]

/-- The register after an operation, where `h` stands for the inverse root of two and `sample` is what
    a measurement would use. -/
def Operation.applyTo (h sample : R) (r : Register R) : Operation → Register R
  | .hadamard q => r.applyMatrix (.hadamard h) q
  | .flip q => r.flip q
  | .controlledNot c t => r.controlledNot c t
  | .measure q => (r.collapse q sample).2

/-- A register of `n` qubits, all of them zero at first, after a sequence of operations, each with the
    sample that it would use. -/
def Register.after (h : R) (n : Nat) (steps : List (Operation × R)) : Register R :=
  steps.foldl (fun r step => step.1.applyTo h step.2 r) (.zeros n)

end Carrier

/-- On doubles this is what an engine does. -/
theorem Operation.act_eq_applyTo (sample : Float) (r : Register Float) (op : Operation) :
    (op.act sample r).2 = op.applyTo inverseRootTwo sample r := by
  cases op <;> rfl

section Ring

variable {K : Type} [CommRing K]

/-! ## Weights -/

namespace Amplitude

@[simp] theorem normSq_zero : (0 : Amplitude K).normSq = 0 := by
  show (0 : K) * 0 + 0 * 0 = 0
  ring

@[simp] theorem normSq_one : (1 : Amplitude K).normSq = 1 := by
  show (1 : K) * 1 + 0 * 0 = 1
  ring

theorem normSq_scale (a : Amplitude K) (s : K) : (a.scale s).normSq = a.normSq * (s * s) := by
  show a.re * s * (a.re * s) + a.im * s * (a.im * s) = (a.re * a.re + a.im * a.im) * (s * s)
  ring

end Amplitude

/-- The weight of the basis state `i`: its probability, and zero past the last one. -/
def weight (amplitudes : Array (Amplitude K)) (i : Nat) : K :=
  amplitudes[i]?.elim 0 Amplitude.normSq

/-- The sum of all weights. -/
def totalWeight (amplitudes : Array (Amplitude K)) : K :=
  ∑ i ∈ range amplitudes.size, weight amplitudes i

theorem weight_of_lt {amplitudes : Array (Amplitude K)} {i : Nat} (hi : i < amplitudes.size) :
    weight amplitudes i = amplitudes[i].normSq := by
  rw [weight, Array.getElem?_eq_getElem hi, Option.elim_some]

/-- Two amplitudes may change, as long as their weights together do not. -/
theorem totalWeight_eq_of_pair {as bs : Array (Amplitude K)} {i j : Nat} (hsize : bs.size = as.size)
    (hi : i < as.size) (hj : j < as.size) (hij : i ≠ j)
    (hpair : weight bs i + weight bs j = weight as i + weight as j)
    (hrest : ∀ k, k ≠ i → k ≠ j → bs[k]? = as[k]?) :
    totalWeight bs = totalWeight as := by
  have hsub : {i, j} ⊆ range as.size := by
    simp [insert_subset_iff, hi, hj]
  rw [totalWeight, totalWeight, hsize, ← sum_sdiff hsub, ← sum_sdiff hsub, sum_pair hij,
    sum_pair hij, hpair]
  congr 1
  refine sum_congr rfl fun k hk => ?_
  have hk : k ≠ i ∧ k ≠ j := by simpa using (mem_sdiff.1 hk).2
  rw [weight, weight, hrest k hk.1 hk.2]

/-! ## Gates -/

/-- The matrix `g` keeps the weight of every pair. -/
def Matrix2.Unitary (g : Matrix2 K) : Prop :=
  ∀ a b : Amplitude K,
    (g.e₀₀ * a + g.e₀₁ * b).normSq + (g.e₁₀ * a + g.e₁₁ * b).normSq = a.normSq + b.normSq

theorem Matrix2.unitary_hadamard {h : K} (hh : h * h + h * h = 1) :
    (Matrix2.hadamard h).Unitary := by
  intro a b
  simp only [Matrix2.hadamard, Amplitude.normSq, Amplitude.add_re, Amplitude.add_im,
    Amplitude.mul_re, Amplitude.mul_im, Amplitude.neg_re, Amplitude.neg_im, Amplitude.ofReal]
  linear_combination (a.re * a.re + a.im * a.im + b.re * b.re + b.im * b.im) * hh

theorem Matrix2.Unitary.totalWeight_onPair {g : Matrix2 K} (hg : g.Unitary) {i j : Nat} (hij : i ≠ j)
    (as : Array (Amplitude K)) : totalWeight (g.onPair i j as) = totalWeight as := by
  by_cases hi : i < as.size
  · by_cases hj : j < as.size
    · rw [Matrix2.onPair, Array.getElem?_eq_getElem hi, Array.getElem?_eq_getElem hj]
      refine totalWeight_eq_of_pair (by simp) hi hj hij ?_ fun k hki hkj => ?_
      · rw [weight_of_lt hi, weight_of_lt hj, ← hg as[i] as[j]]
        simp [weight, hi, hj, hij.symm]
      · rw [Array.getElem?_setIfInBounds_ne hkj.symm, Array.getElem?_setIfInBounds_ne hki.symm]
    · rw [Matrix2.onPair, Array.getElem?_eq_none (Nat.le_of_not_lt hj)]
      cases as[i]? <;> rfl
  · rw [Matrix2.onPair, Array.getElem?_eq_none (Nat.le_of_not_lt hi)]

theorem totalWeight_swapIfInBounds {i j : Nat} (hij : i ≠ j) (as : Array (Amplitude K)) :
    totalWeight (as.swapIfInBounds i j) = totalWeight as := by
  by_cases hi : i < as.size
  · by_cases hj : j < as.size
    · refine totalWeight_eq_of_pair Array.size_swapIfInBounds hi hj hij ?_ fun k hki hkj => ?_
      · rw [weight_of_lt (by simpa using hi), weight_of_lt (by simpa using hj), weight_of_lt hi,
          weight_of_lt hj, Array.getElem_swapIfInBounds_left hj, Array.getElem_swapIfInBounds_right hi,
          add_comm]
      · grind
    · rw [Array.swapIfInBounds_def, dif_pos hi, dif_neg hj]
  · rw [Array.swapIfInBounds_def, dif_neg hi]

namespace Register

/-- What every pair of a sweep keeps the sweep keeps. -/
theorem totalWeight_sweep {p : Nat → Bool} {t : Nat}
    {onPair : Nat → Nat → Array (Amplitude K) → Array (Amplitude K)}
    (hpair : ∀ i j as, i ≠ j → totalWeight (onPair i j as) = totalWeight as) (r : Register K) :
    totalWeight (r.sweep p t onPair).amplitudes = totalWeight r.amplitudes := by
  show totalWeight (Nat.fold r.amplitudes.size _ r.amplitudes) = _
  -- The sweep is cut off after `n` indices; the register that it reads its length from is not.
  generalize r.amplitudes.size = n
  induction n with
  | zero => rfl
  | succ n ih =>
    rw [Nat.fold_succ]
    split
    · exact (hpair _ _ _ (mate_ne t n).symm).trans ih
    · exact ih

theorem totalWeight_applyMatrix {g : Matrix2 K} (hg : g.Unitary) (t : Nat) (r : Register K) :
    totalWeight (r.applyMatrix g t).amplitudes = totalWeight r.amplitudes :=
  totalWeight_sweep (fun _ _ as hij => hg.totalWeight_onPair hij as) r

theorem totalWeight_flip (t : Nat) (r : Register K) :
    totalWeight (r.flip t).amplitudes = totalWeight r.amplitudes :=
  totalWeight_sweep (fun _ _ as hij => totalWeight_swapIfInBounds hij as) r

theorem totalWeight_controlledNot (c t : Nat) (r : Register K) :
    totalWeight (r.controlledNot c t).amplitudes = totalWeight r.amplitudes :=
  totalWeight_sweep (fun _ _ as hij => totalWeight_swapIfInBounds hij as) r

/-! ## Probabilities as sums -/

theorem foldl_add_eq_sum (as : List (Amplitude K)) (s : K) :
    as.foldl (fun sum a => sum + a.normSq) s =
      s + ∑ i ∈ range as.length, as[i]?.elim 0 Amplitude.normSq := by
  induction as generalizing s with
  | nil => simp
  | cons a as ih =>
    rw [List.foldl_cons, ih, List.length_cons, sum_range_succ', add_assoc]
    simp [add_comm]

theorem totalProbability_eq (r : Register K) : r.totalProbability = totalWeight r.amplitudes := by
  rw [totalProbability, ← Array.foldl_toList, foldl_add_eq_sum, neg_zero, zero_add]
  simp [totalWeight, weight]

theorem fold_add_eq_sum (n : Nat) (f : Nat → K) (s : K) :
    Nat.fold n (fun i _ sum => sum + f i) s = s + ∑ i ∈ range n, f i := by
  induction n with
  | zero => simp
  | succ n ih => rw [Nat.fold_succ, ih, sum_range_succ, add_assoc]

theorem marginal_eq (r : Register K) (q : Nat) (bit : Bool) :
    r.marginal q bit =
      ∑ i ∈ range r.amplitudes.size, if i.testBit q = bit then weight r.amplitudes i else 0 := by
  have hstep : (fun (i : Nat) (hi : i < r.amplitudes.size) (sum : K) =>
        if i.testBit q = bit then sum + r.amplitudes[i].normSq else sum) =
      fun i _ sum => sum + if i.testBit q = bit then weight r.amplitudes i else 0 := by
    funext i hi sum
    rw [weight_of_lt hi]
    split
    · rfl
    · rw [add_zero]
  rw [marginal, hstep, fold_add_eq_sum, neg_zero, zero_add]

/-- The two values of a qubit share the weight of the register. -/
theorem marginal_add_marginal (r : Register K) (q : Nat) :
    r.marginal q false + r.marginal q true = totalWeight r.amplitudes := by
  rw [marginal_eq, marginal_eq, ← sum_add_distrib, totalWeight]
  refine sum_congr rfl fun i _ => ?_
  cases i.testBit q <;> simp

theorem totalWeight_zeros (n : Nat) : totalWeight (zeros (R := K) n).amplitudes = 1 := by
  have hpos : 0 < 1 <<< n := by simp [Nat.shiftLeft_eq]
  have hsize : (zeros (R := K) n).amplitudes.size = 1 <<< n := by simp [zeros]
  have hweight : ∀ i, weight (zeros (R := K) n).amplitudes i = if i = 0 then 1 else 0 := by
    intro i
    rcases Nat.eq_zero_or_pos i with rfl | hi
    · simp [weight, zeros, hpos]
    · simp only [weight, zeros, Array.getElem?_setIfInBounds_ne hi.ne, Array.getElem?_replicate,
        if_neg hi.ne']
      split <;> simp
  rw [totalWeight, hsize, sum_congr rfl fun i _ => hweight i, sum_ite_eq', if_pos (mem_range.2 hpos)]

end Register

end Ring

/-! ## Measurement -/

section Field

variable {K : Type} [Field K] [LinearOrder K] [ExactRoots K]

namespace Register

/-- A projection keeps the weight of its branch and rescales it. -/
theorem totalWeight_project (r : Register K) (q : Nat) (bit : Bool) (p : K) :
    totalWeight (r.project q bit p).amplitudes =
      r.marginal q bit * (1 / Normalizing.sqrt p * (1 / Normalizing.sqrt p)) := by
  rw [marginal_eq, sum_mul, totalWeight, project, Array.size_mapIdx]
  refine sum_congr rfl fun i hi => ?_
  have hi : i < r.amplitudes.size := mem_range.1 hi
  rw [weight_of_lt (by simpa using hi), weight_of_lt hi, Array.getElem_mapIdx]
  split
  · exact Amplitude.normSq_scale _ _
  · rw [Amplitude.normSq_zero, zero_mul]

variable [IsStrictOrderedRing K]

/-- Of two branches that share the whole, the one that a measurement keeps is no residue. -/
theorem residue_lt_kept {p : Bool → K} (hsum : p false + p true = 1) (sample : K) :
    Normalizing.residue < p (outcome (p false) (p true) sample) := by
  have hresidue : (Normalizing.residue : K) + Normalizing.residue < 1 := by
    rw [ExactRoots.residue_eq]
    norm_num
  by_cases h₁ : p true ≤ Normalizing.residue
  · rw [outcome, if_pos h₁]
    linarith
  · by_cases h₀ : p false ≤ Normalizing.residue
    · rw [outcome, if_neg h₁, if_pos h₀]
      exact not_le.1 h₁
    · cases outcome (p false) (p true) sample
      · exact not_le.1 h₀
      · exact not_le.1 h₁

omit [LinearOrder K] [ExactRoots K] [IsStrictOrderedRing K] in
theorem one_div_mul_one_div {x p : K} (hroot : x * x = p) (hp : p ≠ 0) : p * (1 / x * (1 / x)) = 1 := by
  have hx : x ≠ 0 := by
    rintro rfl
    exact hp (by rw [← hroot, zero_mul])
  rw [← hroot]
  field_simp

/-- What a measurement does to a normalized register: it finds a value of probability greater than the
    residue, and the branch of that value becomes the whole. -/
theorem collapse_of_normalized {r : Register K} (hr : totalWeight r.amplitudes = 1) (q : Nat)
    (sample : K) :
    ∃ bit, r.collapse q sample = (bit, r.project q bit (r.marginal q bit)) ∧
      Normalizing.residue < r.marginal q bit ∧ Normalizing.sqrt (r.marginal q bit) ≠ 0 ∧
        totalWeight (r.project q bit (r.marginal q bit)).amplitudes = 1 := by
  obtain ⟨bit, hbit⟩ : ∃ bit, outcome (r.marginal q false) (r.marginal q true) sample = bit := ⟨_, rfl⟩
  have hcollapse := collapse_of_outcome hbit
  have hlt : Normalizing.residue < r.marginal q bit := by
    rw [← hbit]
    exact residue_lt_kept (p := r.marginal q) ((r.marginal_add_marginal q).trans hr) sample
  have hpos : 0 < r.marginal q bit := by
    refine lt_trans ?_ hlt
    rw [ExactRoots.residue_eq]
    norm_num
  have hroot := ExactRoots.sqrt_mul_sqrt hpos.le
  refine ⟨bit, hcollapse, hlt, ?_, ?_⟩
  · intro hzero
    rw [hzero, zero_mul] at hroot
    exact hpos.ne hroot
  · rw [totalWeight_project, one_div_mul_one_div hroot hpos.ne']

/-! ## Runs -/

/-- One operation keeps a register normalized. -/
theorem totalWeight_applyTo {h : K} (hh : h * h + h * h = 1) (sample : K) {r : Register K}
    (hr : totalWeight r.amplitudes = 1) (op : Operation) :
    totalWeight (op.applyTo h sample r).amplitudes = 1 := by
  cases op with
  | hadamard q => exact (r.totalWeight_applyMatrix (Matrix2.unitary_hadamard hh) q).trans hr
  | flip q => exact (r.totalWeight_flip q).trans hr
  | controlledNot c t => exact (r.totalWeight_controlledNot c t).trans hr
  | measure q =>
    obtain ⟨bit, hcollapse, -, -, htotal⟩ := collapse_of_normalized hr q sample
    rw [Operation.applyTo, hcollapse]
    exact htotal

/-- Hence every sequence of operations does. -/
theorem totalWeight_after {h : K} (hh : h * h + h * h = 1) (n : Nat) (steps : List (Operation × K)) :
    totalWeight (after h n steps).amplitudes = 1 := by
  induction steps using List.reverseRecOn with
  | nil => exact totalWeight_zeros n
  | append_singleton steps step ih =>
    rw [after, List.foldl_append]
    exact totalWeight_applyTo hh step.2 ih step.1

variable (K) in
theorem inverse_root_two : let h := 1 / Normalizing.sqrt (2 : K); h * h + h * h = 1 := by
  intro h
  rw [← two_mul]
  exact one_div_mul_one_div (ExactRoots.sqrt_mul_sqrt zero_le_two) two_ne_zero

/-- **Registers stay normalized.**  After any operations with any samples, on a register of any number
    of qubits that were all zero at first, the probabilities add up to one, and so do the two marginals
    of every qubit.  Whichever qubit is measured next and with whichever sample, the branch that is kept
    is that of the value found; its probability is greater than the residue, and the root that it is
    divided by is not zero. -/
theorem normalized_after (n : Nat) (steps : List (Operation × K)) :
    let r := after (1 / Normalizing.sqrt 2) n steps
    r.totalProbability = 1 ∧ ∀ q, r.marginal q false + r.marginal q true = 1 ∧
      ∀ sample, ∃ bit, r.collapse q sample = (bit, r.project q bit (r.marginal q bit)) ∧
        Normalizing.residue < r.marginal q bit ∧ Normalizing.sqrt (r.marginal q bit) ≠ 0 := by
  intro r
  have hr : totalWeight r.amplitudes = 1 := totalWeight_after (inverse_root_two K) n steps
  refine ⟨r.totalProbability_eq.trans hr, fun q => ⟨(r.marginal_add_marginal q).trans hr, ?_⟩⟩
  intro sample
  obtain ⟨bit, hcollapse, hlt, hroot, -⟩ := collapse_of_normalized hr q sample
  exact ⟨bit, hcollapse, hlt, hroot⟩

/-- Over the reals: two entangled qubits, of which one has been measured and the other is about to
    be. -/
theorem normalized_after_entangled :
    let r := after (1 / Normalizing.sqrt (2 : ℝ)) 2
      [(.hadamard 0, 0), (.controlledNot 0 1, 0), (.measure 1, 3 / 4)]
    IsStrictOrderedRing ℝ ∧ r.totalProbability = 1 ∧ r.marginal 0 false + r.marginal 0 true = 1 ∧
      ∃ bit, r.collapse 0 (1 / 2) = (bit, r.project 0 bit (r.marginal 0 bit)) ∧
        Normalizing.residue < r.marginal 0 bit ∧ Normalizing.sqrt (r.marginal 0 bit) ≠ 0 := by
  intro r
  obtain ⟨htotal, hqubit⟩ := normalized_after (K := ℝ) 2
    [(.hadamard 0, 0), (.controlledNot 0 1, 0), (.measure 1, 3 / 4)]
  exact ⟨inferInstance, htotal, (hqubit 0).1, (hqubit 0).2 (1 / 2)⟩

end Register

end Field

end QubitBasic
