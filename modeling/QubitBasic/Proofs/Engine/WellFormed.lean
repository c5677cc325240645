/-
  An engine never reaches past its register.

  Whatever calls are made on an engine, accepted or refused, its ceiling, register and log fit together
  (`WellFormed`): the register has at least one qubit and no more than the ceiling allows, it holds one
  amplitude for each basis state, and the log names qubits of this register only.  One call keeps this
  (`WellFormed.extend`), hence every history does.

  What follows from it is said with operations that check what they do (`Operation.act?`): they give up
  where a shift is of 64 places or more and where a pair has a member past the last amplitude.  On the
  register of an engine and for qubits of that register they never give up, and do what the operations
  without checks do.  The bound behind this is that setting a bit below `n` leads to no number of more
  than `n` bits.
-/
import QubitBasic.Proofs.Engine.History
import QubitBasic.Proofs.Register.Sweep

namespace QubitBasic

/-- The qubits that an operation acts on. -/
def Operation.qubits : Operation → List Nat
  | .hadamard q | .flip q | .measure q => [q]
  | .controlledNot c t => [c, t]

/-! ## Operations with checks -/

section

variable {R : Type} {p : Nat → Bool} {t : Nat} {work : PairWork R}

/-- The first `s` indices of a sweep whose accesses are checked: nothing if a pair that is to be worked
    on has a member past the last amplitude. -/
def Register.swept? (p : Nat → Bool) (t : Nat) (work : PairWork R) (as : Array (Amplitude R))
    (s : Nat) : Option (Array (Amplitude R)) :=
  Nat.fold s (fun i _ result => result.bind fun as =>
    if p i && !i.testBit t then
      if i < as.size ∧ i ||| 1 <<< t < as.size then some (work i (i ||| 1 <<< t) as) else none
    else some as) (some as)

/-- A sweep whose shift and accesses are checked. -/
def Register.sweep? (p : Nat → Bool) (t : Nat) (work : PairWork R) (r : Register R) :
    Option (Register R) :=
  if t < 64 then
    (swept? p t work r.amplitudes r.amplitudes.size).map fun amplitudes => { r with amplitudes }
  else none

/-- An operation whose shifts and accesses are checked.  A measurement goes through the amplitudes one
    by one, so that only its shift is to be checked. -/
def Operation.act? (sample : Float) (r : Register Float) :
    Operation → Option (Option Bool × Register Float)
  | .hadamard q =>
    (r.sweep? (fun _ => true) q (Matrix2.hadamard inverseRootTwo).onPair).map fun r => (none, r)
  | .flip q =>
    (r.sweep? (fun _ => true) q fun i j as => as.swapIfInBounds i j).map fun r => (none, r)
  | .controlledNot c t =>
    if c < 64 then
      (r.sweep? (fun i => i.testBit c) t fun i j as => as.swapIfInBounds i j).map fun r => (none, r)
    else none
  | .measure q => if q < 64 then some ((Operation.measure q).act sample r) else none

/-- Setting a bit of an index leads to no index past the last one. -/
theorem or_shiftLeft_lt {i n : Nat} (ht : t < n) (hi : i < 2 ^ n) : i ||| 1 <<< t < 2 ^ n :=
  Nat.or_lt_two_pow hi (shiftLeft_lt ht)

theorem Register.swept?_eq_some (hwork : work.KeepsSize) {as : Array (Amplitude R)} {n : Nat}
    (hsize : as.size = 2 ^ n) (ht : t < n) {s : Nat} (hs : s ≤ 2 ^ n) :
    swept? p t work as s = some (swept p t work as s) := by
  induction s with
  | zero => rfl
  | succ s ih =>
    rw [swept?, Nat.fold_succ]
    show (swept? p t work as s).bind _ = _
    rw [ih (Nat.le_of_succ_le hs), Option.bind_some, swept_succ]
    by_cases hpair : (p s && !s.testBit t) = true
    · have hbit : s.testBit t = false := by simpa using (Bool.and_eq_true_iff.1 hpair).2
      have hbounds : s < (swept p t work as s).size ∧
          s ||| 1 <<< t < (swept p t work as s).size := by
        rw [size_swept hwork, hsize]
        exact ⟨hs, or_shiftLeft_lt ht hs⟩
      rw [if_pos hpair, if_pos hpair, if_pos hbounds, or_eq_mate hbit]
    · rw [if_neg hpair, if_neg hpair]

theorem Register.sweep?_eq_some (hwork : work.KeepsSize) {r : Register R} (hr : r.Full)
    (hqubits : r.qubits ≤ 64) (ht : t < r.qubits) : r.sweep? p t work = some (r.sweep p t work) := by
  rw [sweep?, if_pos (Nat.lt_of_lt_of_le ht hqubits),
    swept?_eq_some hwork hr ht (Nat.le_of_eq hr)]
  rfl

end

/-- On qubits of a register no check of an operation fails. -/
theorem Operation.act?_eq_some {r : Register Float} (hr : r.Full) (hqubits : r.qubits ≤ 64)
    {op : Operation} (hop : ∀ q ∈ op.qubits, q < r.qubits) (sample : Float) :
    op.act? sample r = some (op.act sample r) := by
  cases op with
  | hadamard q =>
    have hq : q < r.qubits := hop q (by simp [qubits])
    rw [act?, Register.sweep?_eq_some (keepsSize_onPair _) hr hqubits hq]
    rfl
  | flip q =>
    have hq : q < r.qubits := hop q (by simp [qubits])
    rw [act?, Register.sweep?_eq_some actsOnPairs_swap.keepsSize hr hqubits hq]
    rfl
  | controlledNot c t =>
    have hc : c < r.qubits := hop c (by simp [qubits])
    have ht : t < r.qubits := hop t (by simp [qubits])
    rw [act?, if_pos (Nat.lt_of_lt_of_le hc hqubits),
      Register.sweep?_eq_some actsOnPairs_swap.keepsSize hr hqubits ht]
    rfl
  | measure q =>
    have hq : q < r.qubits := hop q (by simp [qubits])
    rw [act?, if_pos (Nat.lt_of_lt_of_le hq hqubits)]

/-- No operation changes the number of amplitudes. -/
theorem Operation.size_act (sample : Float) (r : Register Float) (op : Operation) :
    (op.act sample r).2.amplitudes.size = r.amplitudes.size := by
  cases op with
  | hadamard q => exact Register.size_sweep (keepsSize_onPair _) r
  | flip q => exact Register.size_sweep actsOnPairs_swap.keepsSize r
  | controlledNot c t => exact Register.size_sweep actsOnPairs_swap.keepsSize r
  | measure q => exact Array.size_mapIdx

theorem Operation.full_act {r : Register Float} (hr : r.Full) (sample : Float) (op : Operation) :
    (op.act sample r).2.Full := by
  rw [Register.Full, size_act, act_qubits]
  exact hr

namespace Engine

/-! ## The invariant -/

/-- Ceiling, register and log of an engine fit together. -/
structure WellFormed (e : Engine) : Prop where
  ceiling_le : e.ceiling ≤ greatestCeiling
  /-- Without a register there is no log. -/
  no_log : e.register = none → e.operations = #[]
  one_le : ∀ r, e.register = some r → 1 ≤ r.qubits
  qubits_le : ∀ r, e.register = some r → r.qubits ≤ e.ceiling
  /-- There is one amplitude for each basis state. -/
  full : ∀ r, e.register = some r → r.Full
  /-- The log names qubits of the register only. -/
  log_lt : ∀ r, e.register = some r → ∀ op ∈ e.operations, ∀ q ∈ op.qubits, q < r.qubits

theorem wellFormed_fresh (samples : Samples) (ceiling : Option Nat) :
    (fresh samples ceiling).WellFormed := by
  have hnone : (fresh samples ceiling).register = none := by cases ceiling <;> rfl
  have hempty : (fresh samples ceiling).operations = #[] := by cases ceiling <;> rfl
  have hceiling : (fresh samples ceiling).ceiling ≤ greatestCeiling := by
    cases ceiling with
    | none => exact (by decide : 20 ≤ greatestCeiling)
    | some ceiling => exact Nat.min_le_right ceiling greatestCeiling
  have hno : ∀ {P : Register Float → Prop} r, (fresh samples ceiling).register = some r → P r := by
    intro P r hr
    rw [hnone] at hr
    cases hr
  exact ⟨hceiling, fun _ => hempty, hno, hno, hno, hno⟩

/-- A new register of an admitted size starts with an empty log. -/
theorem WellFormed.prepare {e : Engine} (he : e.WellFormed) {count : Int} (hone : 1 ≤ count)
    (hle : count ≤ e.ceiling) :
    WellFormed { e with register := some (.zeros count.toNat), operations := #[] } := by
  refine ⟨he.ceiling_le, fun _ => rfl, ?_, ?_, ?_, ?_⟩ <;> rintro r hr <;> cases hr
  · show 1 ≤ count.toNat
    omega
  · show count.toNat ≤ e.ceiling
    omega
  · show ((Array.replicate (1 <<< count.toNat) 0).setIfInBounds 0 1).size = 2 ^ count.toNat
    rw [Array.size_setIfInBounds, Array.size_replicate, Nat.one_shiftLeft]
  · intro op hop
    exact absurd hop (Array.not_mem_empty op)

/-- An operation on qubits of the register keeps the register's shape and enters them in the log. -/
theorem WellFormed.after {e : Engine} (he : e.WellFormed) {r : Register Float}
    (hr : e.register = some r) {op : Operation} (hop : ∀ q ∈ op.qubits, q < r.qubits) :
    (e.after op r).WellFormed := by
  refine ⟨he.ceiling_le, ?_, ?_, ?_, ?_, ?_⟩
  · intro hnone
    cases hnone
  · rintro r' hr'
    cases hr'
    rw [Operation.act_qubits]
    exact he.one_le r hr
  · rintro r' hr'
    cases hr'
    rw [Operation.act_qubits]
    exact he.qubits_le r hr
  · rintro r' hr'
    cases hr'
    exact Operation.full_act (he.full r hr) _ op
  · rintro r' hr'
    cases hr'
    intro op' hmem q hq
    rw [Operation.act_qubits]
    rcases Array.mem_push.1 hmem with hold | rfl
    · exact he.log_lt r hr op' hold q hq
    · exact hop q hq

/-- A call for an operation names the qubits that the operation acts on. -/
theorem Call.qubits_eq_map_named {c : Call} {op : Operation} (hop : c.operation? = some op) :
    op.qubits = c.named.map Int.toNat := by
  cases c with
  | prepare count => cases hop
  | _ =>
    cases hop
    rfl

/-- One call keeps ceiling, register and log together. -/
theorem WellFormed.extend {h : History} (he : h.engine.WellFormed) (c : Call) :
    (h.extend c).engine.WellFormed := by
  rcases c.make_cases h.engine with ⟨error, hmake⟩ | ⟨count, -, hone, hle, hmake⟩ |
    ⟨op, r, hop, hr, hrange, hmake⟩
  · rw [History.engine_extend_error hmake]
    exact he
  · rw [History.engine_extend_ok hmake]
    exact he.prepare hone hle
  · rw [History.engine_extend_ok hmake]
    refine he.after hr fun q hq => ?_
    rw [Call.qubits_eq_map_named hop] at hq
    obtain ⟨i, hi, rfl⟩ := List.mem_map.1 hq
    obtain ⟨hpos, hlt⟩ := hrange i hi
    have hqubits : h.engine.qubits = r.qubits := by
      rw [Engine.qubits, hr]
      rfl
    omega

theorem WellFormed.foldl_extend (calls : List Call) {h : History} (he : h.engine.WellFormed) :
    (calls.foldl History.extend h).engine.WellFormed := by
  induction calls generalizing h with
  | nil => exact he
  | cons c calls ih => exact ih (he.extend c)

/-! ## Consequences -/

theorem WellFormed.qubits_le_64 {e : Engine} (he : e.WellFormed) {r : Register Float}
    (hr : e.register = some r) : r.qubits ≤ 64 := by
  have hceiling : e.ceiling ≤ 30 := he.ceiling_le
  have hqubits := he.qubits_le r hr
  omega

/-- Where a qubit has passed its check there is a register, also after a sample has been drawn. -/
theorem getRegister_of_checkQubit {e e' : Engine} {q : Int} {place : Nat}
    (hcheck : checkQubit q e = .ok place e') (draws : Nat) :
    ∃ r, getRegister q { e' with draws } = .ok r { e' with draws } := by
  by_cases hrange : e.InRange q
  · rw [checkQubit_of_inRange hrange] at hcheck
    cases hcheck
    obtain ⟨r, hr⟩ := exists_register hrange
    exact ⟨r, getRegister_of_some (e := { e with draws }) q hr⟩
  · rw [checkQubit_of_not_inRange hrange] at hcheck
    cases hcheck

/-- **An engine stays within its register.**  Make any calls on a fresh engine with any ceiling.
    Afterwards ceiling, register and log fit together.  For qubits of the register every shift is of
    less than 64 places and setting their bits in an index leads to no index past the last amplitude, so
    that the operations on them do the same with all their accesses checked.  And wherever the check of
    a qubit passes, the register is there. -/
theorem wellFormed_history (samples : Samples) (ceiling : Option Nat) (calls : List Call) :
    let e := ((fresh samples ceiling).history calls).engine
    e.WellFormed ∧
    (∀ r, e.register = some r →
      (∀ t < r.qubits, t < 64 ∧ ∀ i < r.amplitudes.size, i ||| 1 <<< t < r.amplitudes.size) ∧
      ∀ op : Operation, (∀ q ∈ op.qubits, q < r.qubits) →
        ∀ sample, op.act? sample r = some (op.act sample r)) ∧
    (∀ q place e', checkQubit q e = .ok place e' →
      ∀ draws, ∃ r, getRegister q { e' with draws } = .ok r { e' with draws }) := by
  intro e
  have he : e.WellFormed := WellFormed.foldl_extend calls (wellFormed_fresh samples ceiling)
  refine ⟨he, fun r hr => ⟨fun t ht => ⟨?_, fun i hi => ?_⟩, fun op hop sample => ?_⟩, ?_⟩
  · exact Nat.lt_of_lt_of_le ht (he.qubits_le_64 hr)
  · have hsize : r.amplitudes.size = 2 ^ r.qubits := he.full r hr
    rw [hsize] at hi ⊢
    exact or_shiftLeft_lt ht hi
  · exact Operation.act?_eq_some (he.full r hr) (he.qubits_le_64 hr) hop sample
  · intro q place e' hcheck draws
    exact getRegister_of_checkQubit hcheck draws

/-- A ceiling beyond the greatest one, a register that is replaced by a smaller one, calls that are
    refused in between: on the last register the farthest pair is within bounds. -/
theorem wellFormed_history_replaced :
    let calls : List Call := [.prepare 99, .prepare 3, .hadamard 2, .flip 5, .prepare 2,
      .controlledNot 0 1, .measure (-1), .measure 1]
    let e := ((fresh (Samples.ofSeed 42) (some 1000)).history calls).engine
    ∃ r, e.register = some r ∧ e.ceiling ≤ 30 ∧ r.qubits = 2 ∧ r.amplitudes.size = 2 ^ 2 ∧
      e.operations.size = 2 ∧ 2 ||| 1 <<< 0 < r.amplitudes.size ∧
      (Operation.controlledNot 1 0).act? 0 r = some ((Operation.controlledNot 1 0).act 0 r) ∧
      ∃ place, checkQubit 1 e = .ok place e ∧ ∃ r, getRegister 1 e = .ok r e := by
  intro calls e
  obtain ⟨he, hsafe, hcheck⟩ := wellFormed_history (Samples.ofSeed 42) (some 1000) calls
  have hr : e.register = some _ := rfl
  have hfull := he.full _ hr
  obtain ⟨hbounds, hact⟩ := hsafe _ hr
  have hpasses : checkQubit 1 e = .ok 1 e := rfl
  refine ⟨_, hr, he.ceiling_le, rfl, hfull, rfl, (hbounds 0 (by decide)).2 2 ?_,
    hact (.controlledNot 1 0) (by decide) 0, 1, hpasses, hcheck 1 1 e hpasses e.draws⟩
  rw [show _ = 2 ^ 2 from hfull]
  decide

end Engine

end QubitBasic
