/-
  Gates, amplitude by amplitude.

  A gate works through the register in place.  What it amounts to is one equation for each amplitude of
  the register after the gate, in terms of amplitudes from before the gate only: a flip fetches the
  amplitude of the mate (`getElem?_flip`), a controlled flip fetches it where the control bit is set
  (`getElem?_controlledNot`), and a matrix combines the amplitude with that of the mate by one of its two
  rows (`getElem?_applyMatrix`).  `gates_simultaneous` says the three together.

  No law of arithmetic is used, so the equations hold of doubles to the last bit: both sides do the same
  operations in the same order.
-/
import QubitBasic.Proofs.Register.Sweep

namespace QubitBasic

variable {R : Type} {t i n : Nat}

/-! ## Mates -/

theorem mate_comm (t q i : Nat) : mate t (mate q i) = mate q (mate t i) := by
  rw [mate, mate, mate, mate, Nat.xor_assoc, Nat.xor_assoc, Nat.xor_comm (1 <<< q)]

theorem mate_of_testBit_false (h : i.testBit t = false) : mate t i = i + 2 ^ t := by
  rw [mate_eq_xor, Nat.add_comm]
  apply Nat.eq_of_testBit_eq
  intro b
  rw [Nat.testBit_xor, Nat.testBit_two_pow]
  rcases Nat.lt_trichotomy b t with hb | rfl | hb
  · rw [decide_eq_false (Nat.ne_of_gt hb), Bool.xor_false, Nat.testBit_two_pow_add_gt hb]
  · rw [decide_eq_true rfl, Bool.xor_true, Nat.testBit_two_pow_add_eq]
  · -- The sum carries nothing out of bit `t`, so the bits above it are those of `i`.
    obtain ⟨k, rfl⟩ : ∃ k, b = k + (t + 1) := ⟨b - (t + 1), by omega⟩
    have heven : i / 2 ^ t % 2 = 0 := by
      rw [Nat.testBit_eq_decide_div_mod_eq] at h
      have := of_decide_eq_false h
      omega
    have hdiv : (2 ^ t + i) / 2 ^ (t + 1) = i / 2 ^ (t + 1) := by
      rw [Nat.pow_succ, ← Nat.div_div_eq_div_mul, ← Nat.div_div_eq_div_mul,
        Nat.add_div_left i (Nat.two_pow_pos t)]
      omega
    rw [decide_eq_false (Nat.ne_of_lt hb), Bool.xor_false, Nat.testBit_add, Nat.testBit_add, hdiv]

theorem mate_add_of_testBit_true (h : i.testBit t = true) : mate t i + 2 ^ t = i := by
  have hlow : (mate t i).testBit t = false := by
    rw [testBit_mate_self, h]
    rfl
  rw [← mate_of_testBit_false hlow, mate_mate]

/-! ## Matrices -/

section Matrix

variable [Add R] [Sub R] [Mul R]

/-- The row of `g` for the value `bit` of its qubit, applied to the amplitude `own` of a basis state with
    that value and the amplitude `other` of its mate. -/
def Matrix2.row (g : Matrix2 R) (bit : Bool) (own other : Amplitude R) : Amplitude R :=
  if bit then g.e₁₀ * other + g.e₁₁ * own else g.e₀₀ * own + g.e₀₁ * other

theorem actsOnPairs_onPair (g : Matrix2 R) :
    PairWork.ActsOnPairs g.onPair fun a b => (g.row false a b, g.row true b a) where
  keepsSize := keepsSize_onPair g
  lower i j as a b hij ha hb := by
    obtain ⟨hi, -⟩ := Array.getElem?_eq_some_iff.1 ha
    rw [Matrix2.onPair, ha, hb]
    show ((as.setIfInBounds i _).setIfInBounds j _)[i]? = _
    rw [Array.getElem?_setIfInBounds_ne hij.symm, Array.getElem?_setIfInBounds_self_of_lt hi]
    rfl
  upper i j as a b _ ha hb := by
    obtain ⟨hj, -⟩ := Array.getElem?_eq_some_iff.1 hb
    rw [Matrix2.onPair, ha, hb]
    show ((as.setIfInBounds i _).setIfInBounds j _)[j]? = _
    rw [Array.getElem?_setIfInBounds_self_of_lt (by rwa [Array.size_setIfInBounds])]
    rfl
  others i j as k hki hkj := by
    rw [Matrix2.onPair]
    split
    · rw [Array.getElem?_setIfInBounds_ne hkj.symm, Array.getElem?_setIfInBounds_ne hki.symm]
    · rfl

namespace Register

/-- After a gate with a matrix each amplitude is that of the row of its own bit. -/
theorem getElem?_applyMatrix (g : Matrix2 R) {r : Register R} {a b : Amplitude R}
    (ha : r.amplitudes[i]? = some a) (hb : r.amplitudes[mate t i]? = some b) :
    (r.applyMatrix g t).amplitudes[i]? = some (g.row (i.testBit t) a b) := by
  cases hbit : i.testBit t with
  | false => exact (sweep_pair (actsOnPairs_onPair g) hbit ha hb).1
  | true =>
    -- The index is the upper member of its pair.
    have hlow : (mate t i).testBit t = false := by
      rw [testBit_mate_self, hbit]
      rfl
    have hpair := (sweep_pair (p := fun _ => true) (actsOnPairs_onPair g) hlow hb
      ((mate_mate t i).symm ▸ ha)).2
    rw [mate_mate] at hpair
    exact hpair

end Register

end Matrix

/-! ## Registers by their amplitudes -/

namespace Register

theorem ext_getElem? {r s : Register R} (hqubits : s.qubits = r.qubits)
    (h : ∀ i : Nat, s.amplitudes[i]? = r.amplitudes[i]?) : s = r := by
  cases r
  cases s
  exact congrArg₂ Register.mk hqubits (Array.ext_getElem? (h ·))

/-- Full registers are equal if they have the same qubits and the same amplitude at each index of
    these. -/
theorem Full.ext_getElem? {r s : Register R} (hr : r.Full) (hs : s.Full) (hqubits : s.qubits = r.qubits)
    (h : ∀ i < 2 ^ r.qubits, s.amplitudes[i]? = r.amplitudes[i]?) : s = r := by
  refine Register.ext_getElem? hqubits fun i => ?_
  by_cases hi : i < 2 ^ r.qubits
  · exact h i hi
  · rw [hr.getElem?_eq_none hi, hs.getElem?_eq_none (hqubits ▸ hi)]

theorem Full.sweep {work : PairWork R} (hwork : work.KeepsSize) {r : Register R} (hr : r.Full)
    (p : Nat → Bool) (t : Nat) : (r.sweep p t work).Full :=
  (size_sweep hwork r).trans hr

theorem Full.applyMatrix [Add R] [Sub R] [Mul R] {r : Register R} (hr : r.Full) (g : Matrix2 R)
    (t : Nat) : (r.applyMatrix g t).Full :=
  hr.sweep (keepsSize_onPair g) _ t

theorem Full.flip {r : Register R} (hr : r.Full) (t : Nat) : (r.flip t).Full :=
  hr.sweep actsOnPairs_swap.keepsSize _ t

theorem Full.controlledNot {r : Register R} (hr : r.Full) (c t : Nat) : (r.controlledNot c t).Full :=
  hr.sweep actsOnPairs_swap.keepsSize _ t

/-! ## The three gates together -/

theorem getElem?_controlledNot_of_lt {c : Nat} {r : Register R} (hr : r.Full) (ht : t < r.qubits)
    (i : Nat) :
    (r.controlledNot c t).amplitudes[i]? =
      r.amplitudes[if c ≠ t ∧ i.testBit c then mate t i else i]? := by
  by_cases hct : c = t
  · subst hct
    rw [controlledNot_self, if_neg fun h => h.1 rfl]
  · simp only [getElem?_controlledNot hr ht hct, ne_eq, hct, not_false_eq_true, true_and]

/-- **Gates change all amplitudes at once.**  On a register of `2 ^ n` amplitudes and qubits below `n`,
    each amplitude after a gate is given by amplitudes from before it, and the register keeps its number
    of qubits and of amplitudes.  Where bit `t` of the index is zero a matrix on qubit `t` applies its
    first row to the amplitudes at `i` and `i + 2 ^ t`, and where it is one its second row to those at
    `i - 2 ^ t` and `i`; a flip fetches the amplitude at `i` with bit `t` flipped, and a controlled flip
    does so where the control is another qubit whose bit is one. -/
theorem gates_simultaneous [Add R] [Sub R] [Mul R] {r : Register R}
    (hr : r.amplitudes.size = 2 ^ n) (ht : t < n) :
    (∀ g : Matrix2 R,
      (r.applyMatrix g t).qubits = r.qubits ∧ (r.applyMatrix g t).amplitudes.size = 2 ^ n ∧
        ∀ i < 2 ^ n,
          (i.testBit t = false → ∃ a b, r.amplitudes[i]? = some a ∧ r.amplitudes[i + 2 ^ t]? = some b ∧
            (r.applyMatrix g t).amplitudes[i]? = some (g.e₀₀ * a + g.e₀₁ * b)) ∧
          (i.testBit t = true → ∃ a b, r.amplitudes[i - 2 ^ t]? = some a ∧ r.amplitudes[i]? = some b ∧
            (r.applyMatrix g t).amplitudes[i]? = some (g.e₁₀ * a + g.e₁₁ * b))) ∧
    ((r.flip t).qubits = r.qubits ∧ (r.flip t).amplitudes.size = 2 ^ n ∧
      ∀ i < 2 ^ n, (r.flip t).amplitudes[i]? = r.amplitudes[i ^^^ 2 ^ t]?) ∧
    ∀ c < n,
      (r.controlledNot c t).qubits = r.qubits ∧ (r.controlledNot c t).amplitudes.size = 2 ^ n ∧
        ∀ i < 2 ^ n, (r.controlledNot c t).amplitudes[i]? =
          r.amplitudes[if c ≠ t ∧ i.testBit c = true then i ^^^ 2 ^ t else i]? := by
  -- A gate reads the amplitudes only, so the register may as well be one of `n` qubits.
  have hfull : (Register.mk n r.amplitudes).Full := hr
  refine ⟨fun g => ⟨rfl, ?_, ?_⟩, ⟨rfl, ?_, ?_⟩, fun c _ => ⟨rfl, ?_, ?_⟩⟩
  · exact hfull.applyMatrix g t
  · intro i hi
    obtain ⟨own, hown⟩ := hfull.exists_getElem? hi
    obtain ⟨other, hother⟩ := hfull.exists_getElem? (mate_lt ht hi)
    have hrow := getElem?_applyMatrix g hown hother
    constructor
    · intro hbit
      rw [hbit] at hrow
      exact ⟨own, other, hown, mate_of_testBit_false hbit ▸ hother, hrow⟩
    · intro hbit
      have hmate : i - 2 ^ t = mate t i := by
        have := mate_add_of_testBit_true hbit
        omega
      rw [hbit] at hrow
      exact ⟨other, own, hmate ▸ hother, hown, hrow⟩
  · exact hfull.flip t
  · intro i _
    rw [← mate_eq_xor]
    exact getElem?_flip hfull ht i
  · exact hfull.controlledNot c t
  · intro i _
    rw [← mate_eq_xor]
    exact getElem?_controlledNot_of_lt hfull ht i

/-- Two qubits, on doubles: what comes to index 3, where both bits are one, from the gates on qubit 1. -/
theorem gates_simultaneous_upper_qubit :
    let r : Register Float := ⟨2, #[⟨0.5, 0⟩, ⟨0, 0.5⟩, ⟨-0.5, 0⟩, ⟨0, -0.5⟩]⟩
    let g : Matrix2 Float := .hadamard inverseRootTwo
    r.amplitudes.size = 2 ^ 2 ∧ 1 < 2 ∧
      (∃ a b, r.amplitudes[1]? = some a ∧ r.amplitudes[3]? = some b ∧
        (r.applyMatrix g 1).amplitudes[3]? = some (g.e₁₀ * a + g.e₁₁ * b)) ∧
      (r.flip 1).amplitudes[3]? = r.amplitudes[1]? ∧
      (r.controlledNot 0 1).amplitudes[3]? = r.amplitudes[1]? := by
  intro r g
  have hr : r.amplitudes.size = 2 ^ 2 := rfl
  obtain ⟨hmatrix, hflip, hcontrolled⟩ := gates_simultaneous hr (show 1 < 2 by decide)
  exact ⟨hr, by decide, ((hmatrix g).2.2 3 (by decide)).2 (by decide), hflip.2.2 3 (by decide),
    (hcontrolled 0 (by decide)).2.2 3 (by decide)⟩

end Register

end QubitBasic
