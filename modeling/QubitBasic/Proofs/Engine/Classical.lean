/-
  Without the Hadamard gate an engine is a classical machine.

  A register whose only amplitude is a one at index `k` stands for the word `k`, whose bits are the
  values of the qubits (`Register.basis`).  Flipping a qubit flips a bit of the word, a controlled flip
  flips it where the control bit is set, and a measurement reads a bit and leaves the word alone.  All
  of this is exact in doubles and independent of the samples: the gates only move amplitudes, and the
  sums, the root and the quotient that a measurement computes are made of zeros and a single one.

  The machine of one word is small enough to be written down (`Call.onWord`, `Call.reading`), and the
  engine follows it call by call: `Call.make_basis` is one call, `classical_history` any number of them.
-/
import QubitBasic.Proofs.Engine.Refusal
import QubitBasic.Proofs.Register.Sweep

namespace QubitBasic

/-! ## Basis states -/

namespace Register

section

variable {R : Type} [OfNat R 0] [OfNat R 1] {n k q c t : Nat}

/-- A register of `n` qubits that holds the word `k`: amplitude one at index `k`, zero elsewhere. -/
def basis (n k : Nat) : Register R :=
  ⟨n, Array.ofFn fun i : Fin (2 ^ n) => if i.val = k then 1 else 0⟩

theorem getElem?_basis (n k i : Nat) :
    (basis n k : Register R).amplitudes[i]? =
      if i < 2 ^ n then some (if i = k then 1 else 0) else none := by
  rw [basis, Array.getElem?_ofFn]
  split <;> rfl

theorem full_basis (n k : Nat) : (basis n k : Register R).Full := Array.size_ofFn

theorem zeros_eq_basis (n : Nat) : (zeros n : Register R) = basis n 0 := by
  have hamplitudes : (zeros n : Register R).amplitudes = (basis n 0 : Register R).amplitudes := by
    apply Array.ext_getElem?
    intro i
    rw [getElem?_basis, zeros, Array.getElem?_setIfInBounds, Array.size_replicate,
      Array.getElem?_replicate, Nat.one_shiftLeft]
    have hpos : 0 < 2 ^ n := Nat.two_pow_pos n
    rcases Nat.eq_zero_or_pos i with rfl | hi
    · rw [if_pos rfl, if_pos hpos, if_pos hpos, if_pos rfl]
    · have hne : i ≠ 0 := Nat.ne_of_gt hi
      rw [if_neg hne.symm, if_neg hne]
  exact congrArg (Register.mk n) hamplitudes

/-- Moving the amplitudes of a basis state about moves its word, if a second move undoes the first. -/
theorem eq_basis_of_involutive {r : Register R} (move : Nat → Nat) (hqubits : r.qubits = n)
    (hmove : ∀ i, r.amplitudes[i]? = (basis n k : Register R).amplitudes[move i]?)
    (hundo : ∀ i, move (move i) = i) (hlt : ∀ i, move i < 2 ^ n ↔ i < 2 ^ n) :
    r = basis n (move k) := by
  have hamplitudes : r.amplitudes = (basis n (move k) : Register R).amplitudes := by
    apply Array.ext_getElem?
    intro i
    have hword : move i = k ↔ i = move k := by
      constructor
      · intro h
        rw [← h, hundo]
      · intro h
        rw [h, hundo]
    rw [hmove, getElem?_basis, getElem?_basis]
    simp only [hlt, hword]
  subst hqubits
  exact congrArg (Register.mk r.qubits) hamplitudes

theorem flip_basis (hq : q < n) : (basis n k : Register R).flip q = basis n (mate q k) :=
  eq_basis_of_involutive (mate q) rfl (getElem?_flip (full_basis n k) hq) (mate_mate q)
    fun _ => mate_lt_iff hq

theorem controlledNot_basis (ht : t < n) (hct : c ≠ t) :
    (basis n k : Register R).controlledNot c t = basis n (if k.testBit c then mate t k else k) := by
  refine eq_basis_of_involutive (fun i => if i.testBit c then mate t i else i) rfl
    (getElem?_controlledNot (full_basis n k) ht hct) (fun i => ?_) fun i => ?_
  · -- The control bit is the same before and after, so both moves happen or neither does.
    cases hc : i.testBit c with
    | true => simp [testBit_mate_of_ne hct, hc]
    | false => simp [hc]
  · cases i.testBit c with
    | true => simp [mate_lt_iff ht]
    | false => simp

end

/-! ## Sums of zeros and a one -/

/-- Zero, of either sign. -/
def IsZero (x : Float) : Prop := x = 0 ∨ x = -0

theorem IsZero.add_zero {x : Float} (h : IsZero x) : IsZero (x + 0) := by
  rcases h with rfl | rfl
  · exact Or.inl (by decide)
  · exact Or.inl (by decide)

theorem IsZero.add_one {x : Float} (h : IsZero x) : x + 1 = 1 := by
  rcases h with rfl | rfl
  · decide
  · decide

theorem IsZero.le_residue {x : Float} (h : IsZero x) : x ≤ Normalizing.residue := by
  rcases h with rfl | rfl
  · decide
  · decide

theorem one_add_zero : (1 : Float) + 0 = 1 := by decide

theorem not_one_le_residue : ¬ (1 : Float) ≤ Normalizing.residue := by decide

theorem normSq_basis {n k i : Nat} (hi : i < (basis n k : Register Float).amplitudes.size) :
    (basis n k : Register Float).amplitudes[i].normSq = if i = k then 1 else 0 := by
  have hget : (basis n k : Register Float).amplitudes[i] = if i = k then 1 else 0 :=
    Array.getElem_ofFn hi
  rw [hget]
  split
  · decide
  · decide

/-- The sum up to index `s` is one if the word has been met and belongs to it, and zero otherwise. -/
theorem fold_basis (k q : Nat) (bit : Bool) (s : Nat) :
    let sum := Nat.fold s (fun i _ sum => if i.testBit q = bit then sum + (if i = k then 1 else 0)
      else sum) (-0 : Float)
    (k < s ∧ k.testBit q = bit → sum = 1) ∧ (¬ (k < s ∧ k.testBit q = bit) → IsZero sum) := by
  induction s with
  | zero => exact ⟨fun h => absurd h.1 (Nat.not_lt_zero k), fun _ => Or.inr rfl⟩
  | succ s ih =>
    obtain ⟨hone, hzero⟩ := ih
    rw [Nat.fold_succ]
    generalize Nat.fold s _ (-0 : Float) = sum at hone hzero
    by_cases hs : s.testBit q = bit
    · rw [if_pos hs]
      by_cases hk : s = k
      · -- The word is met here for the first time.
        subst hk
        have hnot : ¬ (s < s ∧ s.testBit q = bit) := fun h => absurd h.1 (Nat.lt_irrefl s)
        rw [if_pos rfl, (hzero hnot).add_one]
        exact ⟨fun _ => rfl, fun h => absurd ⟨Nat.lt_succ_self s, hs⟩ h⟩
      · have hsame : k < s + 1 ∧ k.testBit q = bit ↔ k < s ∧ k.testBit q = bit :=
          and_congr_left fun _ => by omega
        rw [if_neg hk, hsame]
        exact ⟨fun h => by rw [hone h, one_add_zero], fun h => (hzero h).add_zero⟩
    · have hsame : k < s + 1 ∧ k.testBit q = bit ↔ k < s ∧ k.testBit q = bit := by
        constructor
        · rintro ⟨hlt, hbit⟩
          refine ⟨Nat.lt_of_le_of_ne (Nat.le_of_lt_succ hlt) ?_, hbit⟩
          rintro rfl
          exact hs hbit
        · rintro ⟨hlt, hbit⟩
          exact ⟨Nat.lt_succ_of_lt hlt, hbit⟩
      rw [if_neg hs, hsame]
      exact ⟨hone, hzero⟩

/-- The value that a qubit has in the word is certain, the other one impossible. -/
theorem marginal_basis {n k : Nat} (hk : k < 2 ^ n) (q : Nat) :
    (basis n k : Register Float).marginal q (k.testBit q) = 1 ∧
      IsZero ((basis n k : Register Float).marginal q (!k.testBit q)) := by
  have hmarginal : ∀ bit, (basis n k : Register Float).marginal q bit =
      Nat.fold (2 ^ n) (fun i _ sum => if i.testBit q = bit then sum + (if i = k then 1 else 0)
        else sum) (-0 : Float) := by
    intro bit
    simp only [marginal, normSq_basis]
    rw [show (basis n k : Register Float).amplitudes.size = 2 ^ n from full_basis n k]
  rw [hmarginal, hmarginal]
  refine ⟨(fold_basis k q _ _).1 ⟨hk, rfl⟩, (fold_basis k q _ _).2 ?_⟩
  rintro ⟨-, hbit⟩
  cases hq : k.testBit q <;> rw [hq] at hbit <;> cases hbit

/-! ## Measurement -/

/-- The branch of the word, divided by the root of one, is the whole register. -/
theorem project_basis (n k q : Nat) :
    (basis n k : Register Float).project q (k.testBit q) 1 = basis n k := by
  have hone : (1 : Amplitude Float).scale (1 / Normalizing.sqrt 1) = 1 := by decide +kernel
  have hzero : (0 : Amplitude Float).scale (1 / Normalizing.sqrt 1) = 0 := by decide +kernel
  have hamplitudes : ((basis n k : Register Float).project q (k.testBit q) 1).amplitudes =
      (basis n k : Register Float).amplitudes := by
    apply Array.ext_getElem?
    intro i
    simp only [project, Array.getElem?_mapIdx, getElem?_basis]
    by_cases hlt : i < 2 ^ n
    · rw [if_pos hlt, Option.map_some]
      by_cases hi : i = k
      · subst hi
        rw [if_pos rfl, if_pos rfl, hone]
      · rw [if_neg hi, hzero, ite_self]
    · rw [if_neg hlt, Option.map_none]
  exact congrArg (Register.mk n) hamplitudes

/-- A certain value is found, whatever the sample. -/
theorem outcome_of_certain {p : Bool → Float} {bit : Bool} (hcertain : p bit = 1)
    (himpossible : IsZero (p !bit)) (sample : Float) : outcome (p false) (p true) sample = bit := by
  cases bit with
  | true =>
    have hone : ¬ p true ≤ Normalizing.residue := by
      rw [hcertain]
      exact not_one_le_residue
    have hzero : p false ≤ Normalizing.residue := himpossible.le_residue
    rw [outcome, if_neg hone, if_pos hzero]
  | false =>
    have hzero : p true ≤ Normalizing.residue := himpossible.le_residue
    rw [outcome, if_pos hzero]

/-- Measuring a word reads a bit, whatever the sample, and leaves the word alone. -/
theorem collapse_basis {n k : Nat} (hk : k < 2 ^ n) (q : Nat) (sample : Float) :
    (basis n k : Register Float).collapse q sample = (k.testBit q, basis n k) := by
  obtain ⟨hcertain, himpossible⟩ := marginal_basis hk q
  have houtcome := outcome_of_certain hcertain himpossible sample
  rw [collapse_of_outcome houtcome, hcertain, project_basis]

end Register

/-! ## The machine of one word -/

namespace Engine

namespace Call

/-- A call for an operation other than the Hadamard gate. -/
def IsClassical : Call → Prop
  | .flip _ | .controlledNot _ _ | .measure _ => True
  | .prepare _ | .hadamard _ => False

/-- The word after a call. -/
def onWord (k : Nat) : Call → Nat
  | .flip q => k ^^^ 2 ^ q.toNat
  | .controlledNot c t => if k.testBit c.toNat ∧ c ≠ t then k ^^^ 2 ^ t.toNat else k
  | _ => k

/-- The answer to a call. -/
def reading (k : Nat) : Call → Option Bool
  | .measure q => some (k.testBit q.toNat)
  | _ => none

end Call

/-- The word after a sequence of calls. -/
def wordAfter (k : Nat) (calls : List Call) : Nat := calls.foldl Call.onWord k

/-- The answers to a sequence of calls. -/
def readings : (k : Nat) → List Call → List (Option Bool)
  | _, [] => []
  | k, c :: calls => c.reading k :: readings (c.onWord k) calls

variable {n k : Nat} {c : Call}

theorem Call.onWord_lt (hk : k < 2 ^ n) (hq : ∀ q ∈ c.named, 0 ≤ q ∧ q < n) :
    c.onWord k < 2 ^ n := by
  have hflip : ∀ q ∈ c.named, k ^^^ 2 ^ q.toNat < 2 ^ n := by
    intro q hmem
    have hlt : q.toNat < n := by have := hq q hmem; omega
    rw [← mate_eq_xor]
    exact mate_lt hlt hk
  cases c with
  | flip q => exact hflip q (by simp [named])
  | controlledNot c t =>
    show (if _ then _ else _) < 2 ^ n
    split
    · exact hflip t (by simp [named])
    · exact hk
  | _ => exact hk

/-- One call on an engine that holds a word: the engine answers with a bit of the word, if with
    anything, and holds the next word. -/
theorem Call.make_basis {e : Engine} (hr : e.register = some (.basis n k)) (hk : k < 2 ^ n)
    (hc : c.IsClassical) (hq : ∀ q ∈ c.named, 0 ≤ q ∧ q < n) :
    ∃ e', c.make e = .ok (c.reading k) e' ∧ e'.register = some (.basis n (c.onWord k)) := by
  have hqubits : e.qubits = n := by
    rw [qubits, hr]
    rfl
  have hrange : ∀ q ∈ c.named, e.InRange q := by
    intro q hmem
    rw [InRange, hqubits]
    exact hq q hmem
  cases c with
  | prepare count => exact hc.elim
  | hadamard q => exact hc.elim
  | flip q =>
    have hlt : q.toNat < n := by have := hq q (by simp [named]); omega
    have hop : (Call.flip q).operation? = some (.flip q.toNat) := rfl
    refine ⟨_, make_of_inRange hop hr hrange, ?_⟩
    show some ((Register.basis n k).flip q.toNat) = some (.basis n (k ^^^ 2 ^ q.toNat))
    rw [Register.flip_basis hlt, mate_eq_xor]
  | controlledNot c t =>
    have hc := hq c (by simp [named])
    have ht := hq t (by simp [named])
    have hop : (Call.controlledNot c t).operation? = some (.controlledNot c.toNat t.toNat) := rfl
    refine ⟨_, make_of_inRange hop hr hrange, ?_⟩
    show some ((Register.basis n k).controlledNot c.toNat t.toNat) =
      some (.basis n (if k.testBit c.toNat ∧ c ≠ t then k ^^^ 2 ^ t.toNat else k))
    by_cases hct : c = t
    · subst hct
      rw [Register.controlledNot_self, if_neg fun h => h.2 rfl]
    · rw [Register.controlledNot_basis (by omega) (by omega), mate_eq_xor]
      simp only [hct, ne_eq, not_false_eq_true, and_true]
  | measure q =>
    have hcollapse := Register.collapse_basis hk q.toNat (e.samples e.draws)
    refine ⟨e.after (.measure q.toNat) (.basis n k), ?_, ?_⟩
    · rw [make_of_inRange rfl hr hrange, Operation.act, hcollapse]
      rfl
    · show some ((Register.basis n k).collapse q.toNat (e.samples e.draws)).2 = some (.basis n k)
      rw [hcollapse]

/-- A call that succeeds is the first of a history, which goes on from there. -/
theorem history_cons {e e' : Engine} {answer : Option Bool} (hmake : c.make e = .ok answer e')
    (calls : List Call) :
    e.history (c :: calls) =
      ⟨(e'.history calls).engine, .ok answer :: (e'.history calls).answers⟩ := by
  have hfirst : History.extend { engine := e } c = ⟨e', [.ok answer]⟩ := by
    rw [History.extend, hmake]
    rfl
  rw [history, List.foldl_cons, hfirst, foldl_extend_eq]
  rfl

/-- Any number of calls: the engine follows the machine of one word. -/
theorem history_basis {calls : List Call} {e : Engine} (hr : e.register = some (.basis n k))
    (hk : k < 2 ^ n) (hcalls : ∀ c ∈ calls, c.IsClassical ∧ ∀ q ∈ c.named, 0 ≤ q ∧ q < n) :
    wordAfter k calls < 2 ^ n ∧
      (e.history calls).engine.register = some (.basis n (wordAfter k calls)) ∧
      (e.history calls).answers = (readings k calls).map .ok := by
  induction calls generalizing e k with
  | nil => exact ⟨hk, hr, rfl⟩
  | cons c calls ih =>
    obtain ⟨hc, hq⟩ := hcalls c List.mem_cons_self
    obtain ⟨e', hmake, hr'⟩ := Call.make_basis hr hk hc hq
    obtain ⟨hlt, hregister, hanswers⟩ :=
      ih hr' (Call.onWord_lt hk hq) fun c hmem => hcalls c (List.mem_cons_of_mem _ hmem)
    rw [history_cons hmake]
    refine ⟨hlt, hregister, ?_⟩
    rw [hanswers]
    rfl

/-- **A classical machine.**  Let an engine accept a new register, whatever it has been through and
    whatever its samples are, and then make any calls for flips, controlled flips and measurements of
    qubits of that register.  All of them succeed.  The register is, to the last bit, the basis state of
    the word that the machine of one word holds after the same calls, and each call is answered as that
    machine answers it. -/
theorem classical_history {e prepared : Engine} {count : Int}
    (hprepare : (Call.prepare count).make e = .ok none prepared) {calls : List Call}
    (hcalls : ∀ c ∈ calls, c.IsClassical ∧ ∀ q ∈ c.named, 0 ≤ q ∧ q < count) :
    wordAfter 0 calls < 2 ^ count.toNat ∧
      (prepared.history calls).engine.register = some (.basis count.toNat (wordAfter 0 calls)) ∧
      (prepared.history calls).answers = (readings 0 calls).map .ok := by
  have hcount : 1 ≤ count ∧ count ≤ e.ceiling := by
    by_cases h : 1 ≤ count ∧ count ≤ e.ceiling
    · exact h
    · rw [Call.make_prepare_of_not_le h] at hprepare
      cases hprepare
  have hr : prepared.register = some (.basis count.toNat 0) := by
    rw [Call.make_prepare_of_le hcount] at hprepare
    cases hprepare
    exact congrArg some (Register.zeros_eq_basis count.toNat)
  refine history_basis hr (Nat.two_pow_pos _) fun c hmem => ?_
  obtain ⟨hc, hq⟩ := hcalls c hmem
  refine ⟨hc, fun q hnamed => ?_⟩
  have := hq q hnamed
  omega

/-- Three qubits, of which one is flipped, copied to another and flipped back; a qubit that controls its
    own flip is left alone. -/
theorem classical_history_copied_bit :
    let e := fresh (Samples.ofSeed 7) (some 3)
    let calls : List Call := [.flip 1, .controlledNot 1 2, .measure 2, .controlledNot 2 2, .flip 1,
      .measure 1]
    ∃ prepared, (Call.prepare 3).make e = .ok none prepared ∧
      (prepared.history calls).engine.register = some (.basis 3 4) ∧
      (prepared.history calls).answers =
        [.ok none, .ok none, .ok (some true), .ok none, .ok none, .ok (some false)] := by
  intro e calls
  have hprepare : (Call.prepare 3).make e = .ok none _ := rfl
  have hcalls : ∀ c ∈ calls, c.IsClassical ∧ ∀ q ∈ c.named, 0 ≤ q ∧ q < 3 := by
    simp [calls, Call.IsClassical, Call.named]
  obtain ⟨-, hregister, hanswers⟩ := classical_history hprepare hcalls
  exact ⟨_, hprepare, hregister, hanswers⟩

end Engine

end QubitBasic
