/-
  Histories of an engine: sequences of calls, and what one call can do.

  A `Call` is one use of an engine with whatever integers a program supplies; a `History` is the engine
  after a sequence of calls, with the answer to each of them.  Everything that is proved about all
  histories rests on `Call.make_cases`, which says once what a call can do:

    * it fails, and the engine is exactly the one from before;
    * it prepares a new register and clears the log, and nothing else;
    * it does one operation to the register (`Operation.act`), enters that same operation in the log
      and draws a sample exactly if it is a measurement (`Engine.after`).
-/
import QubitBasic.Proofs.Computation
import QubitBasic.Quantum.Engine

namespace QubitBasic

/-- What an operation does to a register, given the sample that a measurement would use: the value
    found, if it finds one, and the register after it. -/
def Operation.act (sample : Float) (r : Register Float) : Operation → Option Bool × Register Float
  | .hadamard q => (none, r.applyMatrix (.hadamard inverseRootTwo) q)
  | .flip q => (none, r.flip q)
  | .controlledNot c t => (none, r.controlledNot c t)
  | .measure q => (some (r.collapse q sample).1, (r.collapse q sample).2)

/-- No operation changes the number of qubits. -/
theorem Operation.act_qubits (sample : Float) (r : Register Float) (op : Operation) :
    (op.act sample r).2.qubits = r.qubits := by
  cases op <;> rfl

/-- Exactly the measurements find a value. -/
theorem Operation.act_isSome (sample : Float) (r : Register Float) (op : Operation) :
    (op.act sample r).1.isSome = op.isMeasurement := by
  cases op <;> rfl

namespace Engine

/-- One use of an engine. -/
inductive Call where
  | prepare (count : Int)
  | hadamard (qubit : Int)
  | flip (qubit : Int)
  | controlledNot (control target : Int)
  | measure (qubit : Int)
  deriving DecidableEq, Repr

namespace Call

/-- Makes a call.  Only a measurement answers with a value. -/
def make : Call → Step (Option Bool)
  | .prepare count => do
    Engine.prepare count
    return none
  | .hadamard qubit => do
    Engine.hadamard qubit
    return none
  | .flip qubit => do
    Engine.flip qubit
    return none
  | .controlledNot control target => do
    Engine.controlledNot control target
    return none
  | .measure qubit => do
    let bit ← Engine.measure qubit
    return some bit

/-- The operation that a call asks for; `prepare` asks for none. -/
def operation? : Call → Option Operation
  | .prepare _ => none
  | .hadamard qubit => some (.hadamard qubit.toNat)
  | .flip qubit => some (.flip qubit.toNat)
  | .controlledNot control target => some (.controlledNot control.toNat target.toNat)
  | .measure qubit => some (.measure qubit.toNat)

/-- The integers by which a call names qubits. -/
def named : Call → List Int
  | .prepare _ => []
  | .hadamard qubit | .flip qubit | .measure qubit => [qubit]
  | .controlledNot control target => [control, target]

end Call

/-- An engine before its first call, with the default ceiling or another one. -/
def fresh (samples : Samples) (ceiling : Option Nat) : Engine :=
  match ceiling with
  | none => { samples }
  | some ceiling => withCeiling { samples } ceiling

/-- An engine after a sequence of calls, and the answers to them in order. -/
structure History where
  engine : Engine
  answers : List (Except QuantumError (Option Bool)) := []

namespace History

/-- One more call. -/
def extend (h : History) (c : Call) : History :=
  match c.make h.engine with
  | .ok answer e => ⟨e, h.answers ++ [.ok answer]⟩
  | .error error e => ⟨e, h.answers ++ [.error error]⟩

/-- The values that the successful measurements of a history found, in order. -/
def outcomes (h : History) : List Bool := h.answers.filterMap fun answer => answer.toOption.join

variable {h : History} {c : Call} {e : Engine}

theorem engine_extend_ok {answer : Option Bool} (hmake : c.make h.engine = .ok answer e) :
    (h.extend c).engine = e := by
  rw [extend, hmake]

theorem engine_extend_error {error : QuantumError} (hmake : c.make h.engine = .error error e) :
    (h.extend c).engine = e := by
  rw [extend, hmake]

theorem outcomes_extend_ok {answer : Option Bool} (hmake : c.make h.engine = .ok answer e) :
    (h.extend c).outcomes = h.outcomes ++ answer.toList := by
  rw [extend, hmake, outcomes, outcomes, List.filterMap_append]
  cases answer <;> rfl

theorem outcomes_extend_error {error : QuantumError} (hmake : c.make h.engine = .error error e) :
    (h.extend c).outcomes = h.outcomes := by
  rw [extend, hmake, outcomes, outcomes, List.filterMap_append]
  exact List.append_nil _

end History

/-- The history of an engine on which `calls` are made. -/
def history (e : Engine) (calls : List Call) : History := calls.foldl History.extend { engine := e }

/-! ## What one call can do -/

/-- The integer `q` names a qubit of the register. -/
def InRange (e : Engine) (q : Int) : Prop := 0 ≤ q ∧ q < e.qubits

/-- The engine once `op` has been done to its register `r`. -/
def after (e : Engine) (op : Operation) (r : Register Float) : Engine :=
  { e with
    register := some (op.act (e.samples e.draws) r).2
    operations := e.operations.push op
    draws := e.draws + op.isMeasurement.toNat }

/-- Without a register no integer names a qubit. -/
theorem exists_register {e : Engine} {q : Int} (h : e.InRange q) : ∃ r, e.register = some r := by
  obtain ⟨h₀, h₁⟩ := h
  cases hr : e.register with
  | none =>
    rw [qubits, hr] at h₁
    exact absurd h₁ (by simp; omega)
  | some r => exact ⟨r, rfl⟩

theorem checkQubit_of_inRange {e : Engine} {q : Int} (h : e.InRange q) :
    checkQubit q e = .ok q.toNat e := by
  show (if 0 ≤ q ∧ q < e.qubits then _ else _ : Step Nat) e = _
  rw [if_pos (show 0 ≤ q ∧ q < e.qubits from h)]
  rfl

theorem checkQubit_of_not_inRange {e : Engine} {q : Int} (h : ¬ e.InRange q) :
    checkQubit q e = .error (.qubitIndex q e.qubits) e := by
  show (if 0 ≤ q ∧ q < e.qubits then _ else _ : Step Nat) e = _
  rw [if_neg (show ¬ (0 ≤ q ∧ q < e.qubits) from h)]
  rfl

theorem getRegister_of_some {e : Engine} {r : Register Float} (q : Int) (h : e.register = some r) :
    getRegister q e = .ok r e := by
  rw [getRegister, get_bind, h]
  rfl

theorem getRegister_of_none {e : Engine} (q : Int) (h : e.register = none) :
    getRegister q e = .error (.qubitIndex q 0) e := by
  rw [getRegister, get_bind, h]
  rfl

namespace Call

/-- A call that asks for an operation on qubits of the register gets it. -/
theorem make_of_inRange {e : Engine} {c : Call} {op : Operation} {r : Register Float}
    (hop : c.operation? = some op) (hr : e.register = some r) (hq : ∀ q ∈ c.named, e.InRange q) :
    c.make e = .ok (op.act (e.samples e.draws) r).1 (e.after op r) := by
  cases c with
  | prepare count => simp [operation?] at hop
  | hadamard q =>
    obtain rfl : Operation.hadamard q.toNat = op := by simpa [operation?] using hop
    rw [make, Engine.hadamard, bind_assoc, bind_of_ok (checkQubit_of_inRange (hq q (by simp [named]))),
      bind_assoc, bind_of_ok (getRegister_of_some q hr)]
    rfl
  | flip q =>
    obtain rfl : Operation.flip q.toNat = op := by simpa [operation?] using hop
    rw [make, Engine.flip, bind_assoc, bind_of_ok (checkQubit_of_inRange (hq q (by simp [named]))),
      bind_assoc, bind_of_ok (getRegister_of_some q hr)]
    rfl
  | controlledNot control target =>
    obtain rfl : Operation.controlledNot control.toNat target.toNat = op := by
      simpa [operation?] using hop
    rw [make, Engine.controlledNot, bind_assoc,
      bind_of_ok (checkQubit_of_inRange (hq control (by simp [named]))), bind_assoc,
      bind_of_ok (checkQubit_of_inRange (hq target (by simp [named]))), bind_assoc,
      bind_of_ok (getRegister_of_some control hr)]
    rfl
  | measure q =>
    obtain rfl : Operation.measure q.toNat = op := by simpa [operation?] using hop
    have hdraw : Engine.draw e = .ok (e.samples e.draws) { e with draws := e.draws + 1 } := rfl
    rw [make, Engine.measure, bind_assoc, bind_of_ok (checkQubit_of_inRange (hq q (by simp [named]))),
      bind_assoc, bind_of_ok hdraw, bind_assoc,
      bind_of_ok (getRegister_of_some (e := { e with draws := e.draws + 1 }) q hr)]
    rfl

/-- A call that names a qubit which the register does not have fails and changes nothing. -/
theorem make_of_not_inRange {e : Engine} {c : Call} {q : Int} (hq : q ∈ c.named)
    (h : ¬ e.InRange q) : ∃ error, c.make e = .error error e := by
  cases c with
  | prepare count => simp [named] at hq
  | hadamard qubit =>
    obtain rfl : q = qubit := by simpa [named] using hq
    exact ⟨_, bind_of_error (bind_of_error (checkQubit_of_not_inRange h))⟩
  | flip qubit =>
    obtain rfl : q = qubit := by simpa [named] using hq
    exact ⟨_, bind_of_error (bind_of_error (checkQubit_of_not_inRange h))⟩
  | controlledNot control target =>
    -- The control is checked first; a control in range leaves the target to be refused.
    by_cases hc : e.InRange control
    · have ht : ¬ e.InRange target := by
        rcases (show q = control ∨ q = target by simpa [named] using hq) with rfl | rfl
        · exact absurd hc h
        · exact h
      have hfail : Engine.controlledNot control target e = .error (.qubitIndex target e.qubits) e := by
        rw [Engine.controlledNot, bind_of_ok (checkQubit_of_inRange hc)]
        exact bind_of_error (checkQubit_of_not_inRange ht)
      exact ⟨_, bind_of_error hfail⟩
    · exact ⟨_, bind_of_error (bind_of_error (checkQubit_of_not_inRange hc))⟩
  | measure qubit =>
    obtain rfl : q = qubit := by simpa [named] using hq
    exact ⟨_, bind_of_error (bind_of_error (checkQubit_of_not_inRange h))⟩

/-- A register is prepared if its size is admitted. -/
theorem make_prepare_of_le {e : Engine} {count : Int} (h : 1 ≤ count ∧ count ≤ e.ceiling) :
    (Call.prepare count).make e =
      .ok none { e with register := some (.zeros count.toNat), operations := #[] } := by
  refine bind_of_ok (a := ()) ?_
  show (if 1 ≤ count ∧ count ≤ e.ceiling then _ else _ : Step Unit) e = _
  rw [if_pos h]
  rfl

/-- No register of another size is prepared. -/
theorem make_prepare_of_not_le {e : Engine} {count : Int} (h : ¬ (1 ≤ count ∧ count ≤ e.ceiling)) :
    (Call.prepare count).make e = .error (.qubitCount count e.ceiling) e := by
  refine bind_of_error ?_
  show (if 1 ≤ count ∧ count ≤ e.ceiling then _ else _ : Step Unit) e = _
  rw [if_neg h]
  rfl

/-- Every operation names at least one qubit, so there is a register if all are in range. -/
theorem exists_register_of_inRange {e : Engine} {c : Call} {op : Operation}
    (hop : c.operation? = some op) (hq : ∀ q ∈ c.named, e.InRange q) : ∃ r, e.register = some r := by
  obtain ⟨q, hmem⟩ : ∃ q, q ∈ c.named := by
    cases c with
    | prepare count => simp [operation?] at hop
    | _ => simp [named]
  exact exists_register (hq q hmem)

/-- **What a call can do**: fail and change nothing, prepare a register, or do the one operation that
    it asks for and enter it in the log. -/
theorem make_cases (c : Call) (e : Engine) :
    (∃ error, c.make e = .error error e) ∨
    (∃ count : Int, c = .prepare count ∧ 1 ≤ count ∧ count ≤ e.ceiling ∧
      c.make e = .ok none { e with register := some (.zeros count.toNat), operations := #[] }) ∨
    (∃ op r, c.operation? = some op ∧ e.register = some r ∧ (∀ q ∈ c.named, e.InRange q) ∧
      c.make e = .ok (op.act (e.samples e.draws) r).1 (e.after op r)) := by
  cases hop : c.operation? with
  | none =>
    cases c with
    | prepare count =>
      by_cases h : 1 ≤ count ∧ count ≤ e.ceiling
      · exact Or.inr (Or.inl ⟨count, rfl, h.1, h.2, make_prepare_of_le h⟩)
      · exact Or.inl ⟨_, make_prepare_of_not_le h⟩
    | _ => simp [operation?] at hop
  | some op =>
    by_cases hq : ∀ q ∈ c.named, e.InRange q
    · obtain ⟨r, hr⟩ := exists_register_of_inRange hop hq
      exact Or.inr (Or.inr ⟨op, r, rfl, hr, hq, make_of_inRange hop hr hq⟩)
    · obtain ⟨q, hq⟩ := Classical.not_forall.1 hq
      obtain ⟨hmem, hout⟩ := Classical.not_imp.1 hq
      exact Or.inl (make_of_not_inRange hmem hout)

end Call

end Engine

end QubitBasic
