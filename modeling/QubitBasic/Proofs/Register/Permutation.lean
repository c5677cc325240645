/-
  The algebra of the gates that move amplitudes.

  A flip and a controlled flip compute nothing: each moves the amplitudes of a register about, along a
  map of the indices (`Moved`).  Laws of these gates are therefore laws of maps of indices, and they hold
  to the last bit over any carrier.  A move that is its own inverse undoes itself; three controlled flips
  exchange two qubits; and a move that leaves the bit of a qubit alone and takes mates to mates commutes
  with every matrix on that qubit (`Moved.applyMatrix`).

  The marginals of a flipped qubit are exchanged, again to the last bit: the indices with the bit set and
  those without it correspond in order, so the two sums add up the same numbers in the same sequence
  (`map_mate_indicesWith`).
-/
import Mathlib.Data.List.Sort
import Mathlib.Logic.Equiv.Basic
import QubitBasic.Proofs.Register.Pointwise

namespace QubitBasic

variable {R : Type} {c t q p i j n : Nat}

/-! ## Maps of indices -/

/-- The index that differs from `i` in bit `t` if `c` is another bit and set in `i`, and else `i`. -/
def controlledMate (c t i : Nat) : Nat := if c ≠ t ∧ i.testBit c then mate t i else i

theorem controlledMate_self (t i : Nat) : controlledMate t t i = i := if_neg fun h => h.1 rfl

theorem testBit_controlledMate (hct : c ≠ t) (i b : Nat) :
    (controlledMate c t i).testBit b = (i.testBit b ^^ (decide (b = t) && i.testBit c)) := by
  by_cases hbit : i.testBit c = true
  · rw [controlledMate, if_pos ⟨hct, hbit⟩, hbit, Bool.and_true]
    by_cases hb : b = t
    · subst hb
      rw [testBit_mate_self, decide_eq_true rfl, Bool.xor_true]
    · rw [testBit_mate_of_ne hb, decide_eq_false hb, Bool.xor_false]
  · rw [controlledMate, if_neg fun h => hbit h.2, Bool.eq_false_iff.2 hbit, Bool.and_false,
      Bool.xor_false]

theorem controlledMate_controlledMate (c t i : Nat) :
    controlledMate c t (controlledMate c t i) = i := by
  by_cases hct : c = t
  · subst hct
    rw [controlledMate_self, controlledMate_self]
  · apply Nat.eq_of_testBit_eq
    intro b
    simp only [testBit_controlledMate hct, decide_eq_false hct, Bool.false_and, Bool.xor_false,
      Bool.xor_assoc, Bool.xor_self]

/-- Three controlled flips, the middle one the other way round, exchange two bits. -/
theorem testBit_controlledMate_three (hct : c ≠ t) (i b : Nat) :
    (controlledMate c t (controlledMate t c (controlledMate c t i))).testBit b =
      i.testBit (Equiv.swap c t b) := by
  simp only [testBit_controlledMate hct, testBit_controlledMate hct.symm]
  by_cases hbc : b = c
  · subst hbc
    rw [Equiv.swap_apply_left]
    simp only [hct, decide_false, decide_true, Bool.false_and, Bool.true_and, Bool.xor_false]
    cases i.testBit b <;> cases i.testBit t <;> rfl
  · by_cases hbt : b = t
    · subst hbt
      rw [Equiv.swap_apply_right]
      simp only [hct, hct.symm, decide_false, decide_true, Bool.false_and, Bool.true_and,
        Bool.xor_false]
      cases i.testBit b <;> cases i.testBit c <;> rfl
    · rw [Equiv.swap_apply_of_ne_of_ne hbc hbt]
      simp [hbc, hbt]

/-! ## Moves -/

namespace Register

/-- The register `s` has the amplitudes of `r`, moved along the map `f`: it fetches the amplitude at `i`
    from `f i`. -/
structure Moved (f : Nat → Nat) (r s : Register R) : Prop where
  qubits : s.qubits = r.qubits
  amplitudes : ∀ i, s.amplitudes[i]? = r.amplitudes[f i]?

namespace Moved

variable {f g : Nat → Nat} {r s u : Register R}

theorem trans (hs : Moved f r s) (hu : Moved g s u) : Moved (fun i => f (g i)) r u where
  qubits := hu.qubits.trans hs.qubits
  amplitudes i := (hu.amplitudes i).trans (hs.amplitudes (g i))

/-- A map and a register determine what the register is moved to. -/
theorem unique (hs : Moved f r s) (hu : Moved f r u) : s = u := by
  apply ext_getElem? (hs.qubits.trans hu.qubits.symm)
  intro i
  rw [hs.amplitudes, hu.amplitudes]

/-- A move to where an amplitude already is moves nothing. -/
theorem eq_of_forall (hs : Moved f r s) (hf : ∀ i, f i = i) : s = r := by
  refine hs.unique ⟨rfl, fun i => ?_⟩
  rw [hf]

end Moved

theorem moved_flip {r : Register R} (hr : r.Full) (hq : q < r.qubits) : Moved (mate q) r (r.flip q) :=
  ⟨rfl, getElem?_flip hr hq⟩

theorem moved_controlledNot {r : Register R} (hr : r.Full) (c : Nat) (ht : t < r.qubits) :
    Moved (controlledMate c t) r (r.controlledNot c t) :=
  ⟨rfl, getElem?_controlledNot_of_lt hr ht⟩

theorem flip_flip {r : Register R} (hr : r.Full) (hq : q < r.qubits) : (r.flip q).flip q = r :=
  ((moved_flip hr hq).trans (moved_flip (hr.flip q) hq)).eq_of_forall (mate_mate q)

theorem controlledNot_controlledNot {r : Register R} (hr : r.Full) (c : Nat) (ht : t < r.qubits) :
    (r.controlledNot c t).controlledNot c t = r :=
  ((moved_controlledNot hr c ht).trans
    (moved_controlledNot (hr.controlledNot c t) c ht)).eq_of_forall (controlledMate_controlledMate c t)

theorem moved_controlledNot_three {r : Register R} (hr : r.Full) (hc : c < r.qubits)
    (ht : t < r.qubits) :
    Moved (fun i => controlledMate c t (controlledMate t c (controlledMate c t i))) r
      (((r.controlledNot c t).controlledNot t c).controlledNot c t) :=
  ((moved_controlledNot hr c ht).trans (moved_controlledNot (hr.controlledNot c t) t hc)).trans
    (moved_controlledNot ((hr.controlledNot c t).controlledNot t c) c ht)

/-! ## Moves and matrices -/

section Matrix

variable [Add R] [Sub R] [Mul R]

theorem getElem?_applyMatrix_eq_none (g : Matrix2 R) {r : Register R} (h : r.amplitudes[i]? = none) :
    (r.applyMatrix g q).amplitudes[i]? = none := by
  rw [Array.getElem?_eq_none_iff] at h ⊢
  rwa [Register.applyMatrix, size_sweep (keepsSize_onPair g)]

/-- A move that respects the pairs of a qubit and the order within them commutes with every matrix on
    that qubit. -/
theorem Moved.applyMatrix {f : Nat → Nat} {r s : Register R} (hs : Moved f r s) (hr : r.Full)
    (hq : q < r.qubits) (hbit : ∀ i, (f i).testBit q = i.testBit q)
    (hmate : ∀ i, f (mate q i) = mate q (f i)) (g : Matrix2 R) :
    Moved f (r.applyMatrix g q) (s.applyMatrix g q) where
  qubits := hs.qubits
  amplitudes i := by
    cases hown : r.amplitudes[f i]? with
    | none =>
      rw [getElem?_applyMatrix_eq_none g hown, getElem?_applyMatrix_eq_none g]
      rw [hs.amplitudes, hown]
    | some a =>
      obtain ⟨hi, -⟩ := Array.getElem?_eq_some_iff.1 hown
      obtain ⟨b, hother⟩ := hr.exists_getElem? (mate_lt hq (hr ▸ hi))
      have hown' : s.amplitudes[i]? = some a := by rw [hs.amplitudes, hown]
      have hother' : s.amplitudes[mate q i]? = some b := by rw [hs.amplitudes, hmate, hother]
      rw [getElem?_applyMatrix g hown' hother', getElem?_applyMatrix g hown hother, hbit]

theorem flip_applyMatrix_comm (g : Matrix2 R) {r : Register R} (hr : r.Full) (hp : p < r.qubits)
    (hq : q < r.qubits) (hpq : p ≠ q) :
    (r.flip p).applyMatrix g q = (r.applyMatrix g q).flip p := by
  have hmoved := (moved_flip hr hp).applyMatrix hr hq (testBit_mate_of_ne hpq.symm)
    (fun i => mate_comm p q i) g
  exact hmoved.unique (moved_flip (hr.applyMatrix g q) hp)

theorem controlledNot_applyMatrix_comm (g : Matrix2 R) {r : Register R} (hr : r.Full)
    (ht : t < r.qubits) (hq : q < r.qubits) (hqc : q ≠ c) (hqt : q ≠ t) :
    (r.controlledNot c t).applyMatrix g q = (r.applyMatrix g q).controlledNot c t := by
  have hbit : ∀ i, (controlledMate c t i).testBit q = i.testBit q := by
    intro i
    rw [controlledMate]
    split
    · exact testBit_mate_of_ne hqt i
    · rfl
  have hmate : ∀ i, controlledMate c t (mate q i) = mate q (controlledMate c t i) := by
    intro i
    rw [controlledMate, controlledMate, testBit_mate_of_ne hqc.symm]
    split
    · exact mate_comm t q i
    · rfl
  have hmoved := (moved_controlledNot hr c ht).applyMatrix hr hq hbit hmate g
  exact hmoved.unique (moved_controlledNot (hr.applyMatrix g q) c ht)

end Matrix

end Register

/-! ## Sums over half the indices -/

/-- Mates of indices that agree in the bit stand in the order of these. -/
theorem mate_lt_mate (hbit : i.testBit q = j.testBit q) (hij : i < j) : mate q i < mate q j := by
  cases hi : i.testBit q with
  | false =>
    rw [mate_of_testBit_false hi, mate_of_testBit_false (hbit ▸ hi)]
    omega
  | true =>
    have := mate_add_of_testBit_true hi
    have := mate_add_of_testBit_true (hbit ▸ hi)
    omega

/-- The indices below `n` at which bit `q` has the value `bit`, in order. -/
def indicesWith (q : Nat) (bit : Bool) (n : Nat) : List Nat :=
  (List.range n).filter fun i => i.testBit q = bit

theorem mem_indicesWith {bit : Bool} : i ∈ indicesWith q bit n ↔ i < n ∧ i.testBit q = bit := by
  simp [indicesWith]

theorem pairwise_indicesWith (q : Nat) (bit : Bool) (n : Nat) :
    (indicesWith q bit n).Pairwise (· < ·) :=
  List.pairwise_lt_range.filter _

/-- The mates of the indices with one value of a bit are those with the other, in the same order. -/
theorem map_mate_indicesWith (hq : q < n) (bit : Bool) :
    (indicesWith q bit (2 ^ n)).map (mate q) = indicesWith q (!bit) (2 ^ n) := by
  -- Both lists increase, so it is enough that they have the same members.
  apply List.Pairwise.eq_of_mem_iff (r := (· < ·))
  · rw [List.pairwise_map]
    refine (pairwise_indicesWith q bit _).imp_of_mem fun hi hj hij => mate_lt_mate ?_ hij
    rw [(mem_indicesWith.1 hi).2, (mem_indicesWith.1 hj).2]
  · exact pairwise_indicesWith q (!bit) _
  · intro i
    rw [List.mem_map, mem_indicesWith]
    constructor
    · rintro ⟨j, hj, rfl⟩
      obtain ⟨hlt, hbit⟩ := mem_indicesWith.1 hj
      exact ⟨mate_lt hq hlt, by rw [testBit_mate_self, hbit]⟩
    · rintro ⟨hlt, hbit⟩
      refine ⟨mate q i, mem_indicesWith.2 ⟨mate_lt hq hlt, ?_⟩, mate_mate q i⟩
      rw [testBit_mate_self, hbit, Bool.not_not]

theorem fold_eq_foldl_range {α : Type} (n : Nat) (f : α → Nat → α) (init : α) :
    Nat.fold n (fun i _ a => f a i) init = (List.range n).foldl f init := by
  induction n with
  | zero => rfl
  | succ n ih =>
    rw [Nat.fold_succ, ih, List.range_succ, List.foldl_append]
    rfl

namespace Register

section Marginal

variable [OfNat R 0] [Neg R] [Add R] [Mul R]

/-- A marginal adds up the probabilities at the indices that have the bit, in order. -/
theorem marginal_eq_foldl (r : Register R) (q : Nat) (bit : Bool) :
    r.marginal q bit = (indicesWith q bit r.amplitudes.size).foldl
      (fun sum i => r.amplitudes[i]?.elim sum fun a => sum + a.normSq) (-0) := by
  have hstep : (fun (i : Nat) (hi : i < r.amplitudes.size) (sum : R) =>
        if i.testBit q = bit then sum + r.amplitudes[i].normSq else sum) =
      fun i _ sum =>
        if decide (i.testBit q = bit) then r.amplitudes[i]?.elim sum fun a => sum + a.normSq
        else sum := by
    funext i hi sum
    simp only [decide_eq_true_eq, Array.getElem?_eq_getElem hi, Option.elim_some]
  rw [marginal, hstep, fold_eq_foldl_range, indicesWith, List.foldl_filter]

theorem marginal_flip {r : Register R} (hr : r.Full) (hq : q < r.qubits) (bit : Bool) :
    (r.flip q).marginal q bit = r.marginal q (!bit) := by
  have hsize : r.amplitudes.size = 2 ^ r.qubits := hr
  have hsize' : (r.flip q).amplitudes.size = 2 ^ r.qubits := hr.flip q
  rw [marginal_eq_foldl, marginal_eq_foldl, hsize, hsize', ← map_mate_indicesWith hq, List.foldl_map]
  simp only [getElem?_flip hr hq]

end Marginal

/-! ## The laws together -/

/-- **Moving gates obey their algebra to the last bit**, on every full register over any carrier.  A flip
    and a controlled flip undo themselves.  Three controlled flips between two qubits, the middle one the
    other way round, exchange the qubits: each amplitude comes from the index with the two bits exchanged.
    A matrix on a qubit commutes with the flip of another one and with a controlled flip between others.
    A flip exchanges the marginals of its qubit. -/
theorem moving_gates_algebra [OfNat R 0] [Neg R] [Add R] [Sub R] [Mul R] {r : Register R}
    (hr : r.Full) :
    (∀ q < r.qubits, (r.flip q).flip q = r ∧
      ∀ bit, (r.flip q).marginal q bit = r.marginal q (!bit)) ∧
    (∀ c < r.qubits, ∀ t < r.qubits, (r.controlledNot c t).controlledNot c t = r ∧
      (c ≠ t → ∀ i < 2 ^ r.qubits, ∃ j < 2 ^ r.qubits,
        (∀ b, j.testBit b = i.testBit (Equiv.swap c t b)) ∧
          (((r.controlledNot c t).controlledNot t c).controlledNot c t).amplitudes[i]? =
            r.amplitudes[j]?)) ∧
    ∀ (g : Matrix2 R), ∀ q < r.qubits,
      (∀ p < r.qubits, p ≠ q → (r.flip p).applyMatrix g q = (r.applyMatrix g q).flip p) ∧
        ∀ c < r.qubits, ∀ t < r.qubits, q ≠ c → q ≠ t →
          (r.controlledNot c t).applyMatrix g q = (r.applyMatrix g q).controlledNot c t := by
  refine ⟨fun q hq => ⟨flip_flip hr hq, marginal_flip hr hq⟩, fun c hc t ht => ⟨?_, ?_⟩,
    fun g q hq => ⟨?_, ?_⟩⟩
  · exact controlledNot_controlledNot hr c ht
  · intro hct i hi
    have hmoved := moved_controlledNot_three hr hc ht
    have hfull := ((hr.controlledNot c t).controlledNot t c).controlledNot c t
    refine ⟨_, ?_, testBit_controlledMate_three hct i, hmoved.amplitudes i⟩
    -- The amplitude is there after the three flips, so it has come from somewhere.
    obtain ⟨a, ha⟩ := hfull.exists_getElem? hi
    rw [hmoved.amplitudes] at ha
    obtain ⟨hlt, -⟩ := Array.getElem?_eq_some_iff.1 ha
    rwa [show r.amplitudes.size = 2 ^ r.qubits from hr] at hlt
  · intro p hp hpq
    exact flip_applyMatrix_comm g hr hp hq hpq
  · intro c _ t ht hqc hqt
    exact controlledNot_applyMatrix_comm g hr ht hq hqc hqt

/-- Three qubits, on doubles, of which the outer two are exchanged and the middle one is changed by a
    matrix. -/
theorem moving_gates_algebra_outer_qubits :
    let r : Register Float :=
      ⟨3, #[⟨0.5, 0⟩, ⟨0, 0.5⟩, ⟨0, 0⟩, ⟨-0.5, 0⟩, ⟨0, 0⟩, ⟨0, -0.5⟩, ⟨0, 0⟩, ⟨0, 0⟩]⟩
    let g : Matrix2 Float := .hadamard inverseRootTwo
    r.Full ∧ (r.flip 2).flip 2 = r ∧ (r.flip 2).marginal 2 true = r.marginal 2 false ∧
      (r.controlledNot 0 2).controlledNot 0 2 = r ∧
      (∃ j < 8, (∀ b, j.testBit b = Nat.testBit 3 (Equiv.swap 0 2 b)) ∧
        (((r.controlledNot 0 2).controlledNot 2 0).controlledNot 0 2).amplitudes[3]? =
          r.amplitudes[j]?) ∧
      (r.flip 0).applyMatrix g 1 = (r.applyMatrix g 1).flip 0 ∧
      (r.controlledNot 0 2).applyMatrix g 1 = (r.applyMatrix g 1).controlledNot 0 2 := by
  intro r g
  have hr : r.Full := rfl
  have h₀ : 0 < 3 := by decide
  have h₁ : 1 < 3 := by decide
  have h₂ : 2 < 3 := by decide
  obtain ⟨hflip, hcontrolled, hmatrix⟩ := moving_gates_algebra hr
  exact ⟨hr, (hflip 2 h₂).1, (hflip 2 h₂).2 true, (hcontrolled 0 h₀ 2 h₂).1,
    (hcontrolled 0 h₀ 2 h₂).2 (by decide) 3 (by decide), (hmatrix g 1 h₁).1 0 h₀ (by decide),
    (hmatrix g 1 h₁).2 0 h₀ 2 h₂ (by decide) (by decide)⟩

end Register

end QubitBasic
