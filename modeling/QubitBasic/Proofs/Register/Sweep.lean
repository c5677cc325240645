/-
  A sweep changes all its pairs at once.

  A gate on qubit `t` runs through the register in place: it meets each pair of indices that differ in
  bit `t` at the member whose bit is zero and writes both amplitudes of the pair.  What it reads may
  have been written before, so that it still computes one simultaneous map has to be shown.

  The proof fixes one pair and follows it through the loop (`swept_pair`).  Up to the lower member of the
  pair nothing happens to it, since the pairs that are worked on before it are disjoint from it; there it
  is changed, from the amplitudes that it had at the beginning; and after that nothing happens to it
  again.  All that is asked of the work on one pair is that it depends on the two amplitudes of the pair
  only and leaves the others alone (`ActsOnPairs`).
-/
import Mathlib.Algebra.Ring.Nat
import QubitBasic.Quantum.Gates

namespace QubitBasic

/-! ## Pairs of indices -/

/-- The index that differs from `i` in bit `t` only. -/
def mate (t i : Nat) : Nat := i ^^^ 1 <<< t

variable {t i j n : Nat}

theorem mate_eq_xor (t i : Nat) : mate t i = i ^^^ 2 ^ t := by
  rw [mate, Nat.one_shiftLeft]

@[simp] theorem testBit_mate_self (t i : Nat) : (mate t i).testBit t = !i.testBit t := by
  simp [mate, Nat.testBit_shiftLeft]

theorem testBit_mate_of_ne {c : Nat} (h : c ≠ t) (i : Nat) : (mate t i).testBit c = i.testBit c := by
  have hbit : (1 <<< t).testBit c = false := by
    rw [Nat.one_shiftLeft, Nat.testBit_two_pow]
    exact decide_eq_false h.symm
  rw [mate, Nat.testBit_xor, hbit, Bool.xor_false]

@[simp] theorem mate_mate (t i : Nat) : mate t (mate t i) = i := by
  rw [mate, mate, Nat.xor_assoc, Nat.xor_self, Nat.xor_zero]

theorem mate_inj : mate t i = mate t j ↔ i = j := by
  constructor
  · intro h
    rw [← mate_mate t i, h, mate_mate]
  · rintro rfl
    rfl

theorem mate_ne (t i : Nat) : mate t i ≠ i := by
  intro h
  have hbit := testBit_mate_self t i
  rw [h] at hbit
  cases hi : i.testBit t <;> rw [hi] at hbit <;> cases hbit

theorem shiftLeft_lt (ht : t < n) : 1 <<< t < 2 ^ n := by
  rw [Nat.one_shiftLeft]
  exact Nat.pow_lt_pow_right (by decide) ht

/-- A qubit of the register pairs the indices of the register. -/
theorem mate_lt (ht : t < n) (hi : i < 2 ^ n) : mate t i < 2 ^ n :=
  Nat.xor_lt_two_pow hi (shiftLeft_lt ht)

theorem mate_lt_iff (ht : t < n) : mate t i < 2 ^ n ↔ i < 2 ^ n := by
  constructor
  · intro h
    rw [← mate_mate t i]
    exact mate_lt ht h
  · exact mate_lt ht

/-- Where the bit is zero it makes no difference whether it is flipped or set. -/
theorem or_eq_mate (h : i.testBit t = false) : i ||| 1 <<< t = mate t i := by
  apply Nat.eq_of_testBit_eq
  intro b
  rw [mate, Nat.testBit_or, Nat.testBit_xor, Nat.one_shiftLeft, Nat.testBit_two_pow]
  by_cases hb : t = b
  · subst hb
    rw [h, Bool.false_or, Bool.false_xor]
  · rw [decide_eq_false hb, Bool.or_false, Bool.xor_false]

/-- Two indices whose bit is zero are never mates. -/
theorem ne_mate_of_testBit (hi : i.testBit t = false) (hj : j.testBit t = false) : i ≠ mate t j := by
  rintro rfl
  rw [testBit_mate_self, hj] at hi
  cases hi

/-! ## Work on one pair -/

variable {R : Type}

/-- The work on one pair of a register. -/
abbrev PairWork (R : Type) := Nat → Nat → Array (Amplitude R) → Array (Amplitude R)

/-- Work that keeps the number of amplitudes. -/
def PairWork.KeepsSize (work : PairWork R) : Prop := ∀ i j as, (work i j as).size = as.size

/-- Work that puts `f a b` in place of the two amplitudes `a` and `b` of a pair and changes no others. -/
structure PairWork.ActsOnPairs (work : PairWork R)
    (f : Amplitude R → Amplitude R → Amplitude R × Amplitude R) : Prop where
  keepsSize : work.KeepsSize
  lower : ∀ ⦃i j as a b⦄, i ≠ j → as[i]? = some a → as[j]? = some b →
    (work i j as)[i]? = some (f a b).1
  upper : ∀ ⦃i j as a b⦄, i ≠ j → as[i]? = some a → as[j]? = some b →
    (work i j as)[j]? = some (f a b).2
  others : ∀ ⦃i j as k⦄, k ≠ i → k ≠ j → (work i j as)[k]? = as[k]?

theorem keepsSize_onPair [Add R] [Sub R] [Mul R] (g : Matrix2 R) :
    PairWork.KeepsSize g.onPair := by
  intro i j as
  rw [Matrix2.onPair]
  split
  · rw [Array.size_setIfInBounds, Array.size_setIfInBounds]
  · rfl

theorem actsOnPairs_swap :
    PairWork.ActsOnPairs (fun i j as => as.swapIfInBounds i j : PairWork R) fun a b => (b, a) where
  keepsSize _ _ _ := Array.size_swapIfInBounds
  lower i j as a b hij ha hb := by
    obtain ⟨hi, rfl⟩ := Array.getElem?_eq_some_iff.1 ha
    obtain ⟨hj, rfl⟩ := Array.getElem?_eq_some_iff.1 hb
    rw [Array.swapIfInBounds_def, dif_pos hi, dif_pos hj, Array.getElem?_swap, if_neg hij.symm,
      if_pos rfl]
  upper i j as a b _ ha hb := by
    obtain ⟨hi, rfl⟩ := Array.getElem?_eq_some_iff.1 ha
    obtain ⟨hj, rfl⟩ := Array.getElem?_eq_some_iff.1 hb
    rw [Array.swapIfInBounds_def, dif_pos hi, dif_pos hj, Array.getElem?_swap, if_pos rfl]
  others i j as k hki hkj := by
    rw [Array.swapIfInBounds_def]
    split
    · split
      · rw [Array.getElem?_swap, if_neg hkj.symm, if_neg hki.symm]
      · rfl
    · rfl

/-! ## The loop -/

namespace Register

/-- The amplitudes after the first `s` indices of a sweep. -/
def swept (p : Nat → Bool) (t : Nat) (work : PairWork R) (as : Array (Amplitude R)) (s : Nat) :
    Array (Amplitude R) :=
  Nat.fold s (fun i _ as => if p i && !i.testBit t then work i (mate t i) as else as) as

variable {p : Nat → Bool} {work : PairWork R}

theorem swept_succ (as : Array (Amplitude R)) (s : Nat) :
    swept p t work as (s + 1) =
      if p s && !s.testBit t then work s (mate t s) (swept p t work as s)
      else swept p t work as s := by
  rw [swept, Nat.fold_succ]
  rfl

theorem size_swept (hwork : work.KeepsSize) (as : Array (Amplitude R)) (s : Nat) :
    (swept p t work as s).size = as.size := by
  induction s with
  | zero => rfl
  | succ s ih =>
    rw [swept_succ]
    split
    · rw [hwork, ih]
    · exact ih

theorem size_sweep (hwork : work.KeepsSize) (r : Register R) :
    (r.sweep p t work).amplitudes.size = r.amplitudes.size :=
  size_swept hwork r.amplitudes r.amplitudes.size

/-- **One pair through the loop.**  The pair is as it was at the beginning until the loop has passed its
    lower member, and from there on changed once. -/
theorem swept_pair {f : Amplitude R → Amplitude R → Amplitude R × Amplitude R}
    (hwork : work.ActsOnPairs f) {as : Array (Amplitude R)} {low : Nat} {a b : Amplitude R}
    (hbit : low.testBit t = false) (ha : as[low]? = some a) (hb : as[mate t low]? = some b) (s : Nat) :
    (swept p t work as s)[low]? = some (if low < s ∧ p low then (f a b).1 else a) ∧
      (swept p t work as s)[mate t low]? = some (if low < s ∧ p low then (f a b).2 else b) := by
  induction s with
  | zero =>
    have hnot : ¬ (low < 0 ∧ p low = true) := fun h => absurd h.1 (Nat.not_lt_zero low)
    rw [if_neg hnot, if_neg hnot]
    exact ⟨ha, hb⟩
  | succ s ih =>
    rw [swept_succ]
    by_cases hs : (p s && !s.testBit t) = true
    · have hps : p s = true := (Bool.and_eq_true_iff.1 hs).1
      have hsbit : s.testBit t = false := by simpa using (Bool.and_eq_true_iff.1 hs).2
      rw [if_pos hs]
      by_cases hlow : low = s
      · -- The loop meets the pair, which is still as it was at the beginning.
        subst hlow
        have hbefore : ¬ (low < low ∧ p low = true) := fun h => absurd h.1 (Nat.lt_irrefl low)
        have hafter : low < low + 1 ∧ p low = true := ⟨Nat.lt_succ_self low, hps⟩
        rw [if_neg hbefore, if_neg hbefore] at ih
        rw [if_pos hafter, if_pos hafter]
        exact ⟨hwork.lower (mate_ne t low).symm ih.1 ih.2, hwork.upper (mate_ne t low).symm ih.1 ih.2⟩
      · -- The loop meets another pair, which has no member in common with this one.
        have hsame : (low < s + 1 ∧ p low = true) ↔ (low < s ∧ p low = true) :=
          and_congr_left fun _ => by omega
        rw [hwork.others hlow (ne_mate_of_testBit hbit hsbit),
          hwork.others (ne_mate_of_testBit hsbit hbit).symm (mt mate_inj.1 hlow)]
        simp only [hsame]
        exact ih
    · -- The loop passes over `s`; if that is the lower member, the pair is not to be changed.
      have hsame : (low < s + 1 ∧ p low = true) ↔ (low < s ∧ p low = true) := by
        constructor
        · rintro ⟨hlt, hp⟩
          refine ⟨Nat.lt_of_le_of_ne (Nat.le_of_lt_succ hlt) ?_, hp⟩
          rintro rfl
          exact hs (by rw [hp, hbit]; rfl)
        · rintro ⟨hlt, hp⟩
          exact ⟨Nat.lt_succ_of_lt hlt, hp⟩
      rw [if_neg hs]
      simp only [hsame]
      exact ih

/-- **A sweep changes all its pairs at once**: each by its amplitudes from before the sweep. -/
theorem sweep_pair {f : Amplitude R → Amplitude R → Amplitude R × Amplitude R}
    (hwork : work.ActsOnPairs f) {r : Register R} {low : Nat} {a b : Amplitude R}
    (hbit : low.testBit t = false) (ha : r.amplitudes[low]? = some a)
    (hb : r.amplitudes[mate t low]? = some b) :
    (r.sweep p t work).amplitudes[low]? = some (if p low then (f a b).1 else a) ∧
      (r.sweep p t work).amplitudes[mate t low]? = some (if p low then (f a b).2 else b) := by
  obtain ⟨hlow, -⟩ := Array.getElem?_eq_some_iff.1 ha
  have hpair := swept_pair (p := p) hwork hbit ha hb r.amplitudes.size
  simp only [hlow, true_and] at hpair
  exact hpair

/-! ## Gates that move amplitudes -/

/-- A register that holds one amplitude for each of its basis states. -/
def Full (r : Register R) : Prop := r.amplitudes.size = 2 ^ r.qubits

theorem Full.exists_getElem? {r : Register R} (hr : r.Full) (hi : i < 2 ^ r.qubits) :
    ∃ a, r.amplitudes[i]? = some a :=
  ⟨_, Array.getElem?_eq_getElem (hr.symm ▸ hi)⟩

theorem Full.getElem?_eq_none {r : Register R} (hr : r.Full) (hi : ¬ i < 2 ^ r.qubits) :
    r.amplitudes[i]? = none :=
  Array.getElem?_eq_none (hr.symm ▸ Nat.le_of_not_lt hi)

/-- Swapping the pairs of qubit `t` whose lower members satisfy `p` moves each amplitude of these to the
    place of the other. -/
theorem getElem?_sweep_swap {r : Register R} (hr : r.Full) (ht : t < r.qubits)
    (hp : p (mate t i) = p i) :
    (r.sweep p t fun i j as => as.swapIfInBounds i j).amplitudes[i]? =
      r.amplitudes[if p i then mate t i else i]? := by
  by_cases hi : i < 2 ^ r.qubits
  · obtain ⟨a, ha⟩ := hr.exists_getElem? hi
    obtain ⟨b, hb⟩ := hr.exists_getElem? (mate_lt ht hi)
    cases hbit : i.testBit t with
    | false =>
      rw [(sweep_pair actsOnPairs_swap hbit ha hb).1]
      split
      · exact hb.symm
      · exact ha.symm
    | true =>
      -- The index is the upper member of its pair.
      have hlow : (mate t i).testBit t = false := by
        rw [testBit_mate_self, hbit]
        rfl
      have hpair := (sweep_pair (p := p) actsOnPairs_swap hlow hb ((mate_mate t i).symm ▸ ha)).2
      rw [mate_mate, hp] at hpair
      rw [hpair]
      split
      · exact hb.symm
      · exact ha.symm
  · have hmate : ¬ mate t i < 2 ^ r.qubits := mt (mate_lt_iff ht).1 hi
    rw [hr.getElem?_eq_none, Array.getElem?_eq_none]
    · rw [size_sweep actsOnPairs_swap.keepsSize, show r.amplitudes.size = 2 ^ r.qubits from hr]
      exact Nat.le_of_not_lt hi
    · split
      · exact hmate
      · exact hi

theorem getElem?_flip {r : Register R} (hr : r.Full) (ht : t < r.qubits) (i : Nat) :
    (r.flip t).amplitudes[i]? = r.amplitudes[mate t i]? :=
  getElem?_sweep_swap hr ht rfl

theorem getElem?_controlledNot {c : Nat} {r : Register R} (hr : r.Full) (ht : t < r.qubits)
    (hct : c ≠ t) (i : Nat) :
    (r.controlledNot c t).amplitudes[i]? = r.amplitudes[if i.testBit c then mate t i else i]? :=
  getElem?_sweep_swap hr ht (testBit_mate_of_ne hct i)

/-- A qubit that controls its own flip is never flipped. -/
theorem controlledNot_self (t : Nat) (r : Register R) : r.controlledNot t t = r := by
  have hswept : ∀ s, swept (fun i => i.testBit t) t (fun i j as => as.swapIfInBounds i j)
      r.amplitudes s = r.amplitudes := by
    intro s
    induction s with
    | zero => rfl
    | succ s ih => rw [swept_succ, Bool.and_not_self, if_neg Bool.false_ne_true, ih]
  exact congrArg (Register.mk r.qubits) (hswept r.amplitudes.size)

end Register

end QubitBasic
