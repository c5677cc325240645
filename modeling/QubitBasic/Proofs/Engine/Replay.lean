/-
  The log of an engine accounts for its register.

  A circuit can be done over on a bare register (`Circuit.replay`): starting from all qubits zero, each
  entry of the log is carried out in order, and its measurements take consecutive samples from a given
  position of the stream.  After any history of calls, successful or not, the circuit of an engine, done
  over from the right position, gives back the register amplitude for amplitude and finds the values
  that the engine answered (`register_eq_replay`).

  The position is the delicate part, because preparing a new register clears the log and not the stream:
  of the samples drawn so far only the last ones belong to the log, as many as it holds measurements.
  `Logged` ties register, log and stream together that way; one call keeps it (`Logged.extend`), hence
  every history does.
-/
import QubitBasic.Proofs.Engine.History

namespace QubitBasic

/-- A register on which a log is being done over. -/
structure Replay where
  register : Register Float
  /-- The number of the next sample. -/
  draws : Nat
  /-- The values found so far, in order. -/
  outcomes : List Bool := []

/-- One more entry of the log. -/
def Replay.step (samples : Samples) (s : Replay) (op : Operation) : Replay :=
  { register := (op.act (samples s.draws) s.register).2
    draws := s.draws + op.isMeasurement.toNat
    outcomes := s.outcomes ++ (op.act (samples s.draws) s.register).1.toList }

/-- The circuit done over on a register of zeros.  Its first measurement takes the sample numbered
    `first`, each further one the next sample. -/
def Circuit.replay (samples : Samples) (first : Nat) (c : Circuit) : Replay :=
  c.operations.foldl (Replay.step samples) { register := .zeros c.qubits, draws := first }

theorem Circuit.replay_push (samples : Samples) (first n : Nat) (ops : Array Operation)
    (op : Operation) :
    Circuit.replay samples first ⟨n, ops.push op⟩ =
      (Circuit.replay samples first ⟨n, ops⟩).step samples op := by
  simp only [Circuit.replay, Array.foldl_push]

theorem Circuit.measureCount_push (n : Nat) (ops : Array Operation) (op : Operation) :
    Circuit.measureCount ⟨n, ops.push op⟩ =
      Circuit.measureCount ⟨n, ops⟩ + op.isMeasurement.toNat := by
  cases h : op.isMeasurement <;> simp [Circuit.measureCount, h]

namespace Engine

/-! ## The invariant -/

/-- Register, log and stream of an engine belong together, where `found` are the values found so far:
    one sample has been drawn for each of them, and the log, done over from the first sample that
    belongs to it, gives the register and the latest values. -/
structure Logged (samples : Samples) (e : Engine) (found : List Bool) : Prop where
  samples_eq : e.samples = samples
  draws_eq : e.draws = found.length
  measureCount_le : e.circuit.measureCount ≤ found.length
  replay_eq : ∀ r, e.register = some r →
    e.circuit.replay samples (found.length - e.circuit.measureCount) =
      { register := r
        draws := found.length
        outcomes := found.drop (found.length - e.circuit.measureCount) }

theorem logged_fresh (samples : Samples) (ceiling : Option Nat) :
    Logged samples (fresh samples ceiling) [] := by
  cases ceiling with
  | none => exact ⟨rfl, rfl, Nat.le_refl 0, fun r h => by cases h⟩
  | some ceiling => exact ⟨rfl, rfl, Nat.le_refl 0, fun r h => by cases h⟩

/-- A new register has an empty log, to which no sample belongs. -/
theorem Logged.prepare {samples : Samples} {e : Engine} {found : List Bool}
    (hl : Logged samples e found) (n : Nat) :
    Logged samples { e with register := some (.zeros n), operations := #[] } found := by
  refine ⟨hl.samples_eq, hl.draws_eq, Nat.zero_le _, ?_⟩
  rintro r hr
  obtain rfl : Register.zeros n = r := by simpa using hr
  show Replay.mk (.zeros n) found.length [] = ⟨.zeros n, found.length, found.drop found.length⟩
  rw [List.drop_length]

theorem circuit_after {e : Engine} {r : Register Float} (hr : e.register = some r) (op : Operation) :
    (e.after op r).circuit = ⟨e.circuit.qubits, e.circuit.operations.push op⟩ := by
  show Circuit.mk (op.act _ r).2.qubits _ = ⟨e.qubits, _⟩
  rw [Operation.act_qubits, qubits, hr]
  rfl

/-- An operation that is done and entered in the log is one more step of doing the log over. -/
theorem Logged.after {samples : Samples} {e : Engine} {found : List Bool} {r : Register Float}
    (hl : Logged samples e found) (hr : e.register = some r) (op : Operation) :
    Logged samples (e.after op r) (found ++ (op.act (e.samples e.draws) r).1.toList) := by
  obtain ⟨hsamples, hdraws, hle, hreplay⟩ := hl
  have hlen : (op.act (samples found.length) r).1.toList.length = op.isMeasurement.toNat := by
    rw [← Operation.act_isSome (samples found.length) r]
    cases (op.act (samples found.length) r).1 <;> rfl
  have hcount : (e.after op r).circuit.measureCount =
      e.circuit.measureCount + op.isMeasurement.toNat := by
    rw [circuit_after hr, Circuit.measureCount_push]
  -- A measurement adds one to both counts, so the log still starts at the same sample.
  have hfirst : found.length + op.isMeasurement.toNat -
      (e.circuit.measureCount + op.isMeasurement.toNat) =
        found.length - e.circuit.measureCount := by omega
  rw [hsamples, hdraws]
  refine ⟨hsamples, ?_, ?_, ?_⟩
  · rw [List.length_append, hlen, ← hdraws]
    rfl
  · rw [List.length_append, hlen, hcount]
    omega
  · rintro r' hr'
    obtain rfl : (op.act (samples found.length) r).2 = r' := by
      rw [← hsamples, ← hdraws]
      simpa [Engine.after] using hr'
    rw [List.length_append, hlen, hcount, hfirst, circuit_after hr, Circuit.replay_push,
      hreplay r hr, List.drop_append_of_le_length (by omega)]
    rfl

/-! ## One call, every history -/

/-- One call keeps register, log and stream together. -/
theorem Logged.extend {samples : Samples} {h : History} (hl : Logged samples h.engine h.outcomes)
    (c : Call) : Logged samples (h.extend c).engine (h.extend c).outcomes := by
  rcases c.make_cases h.engine with ⟨error, hmake⟩ | ⟨count, -, -, -, hmake⟩ |
    ⟨op, r, -, hr, -, hmake⟩
  · -- A call that is refused changes neither the engine nor the values found.
    rw [History.outcomes_extend_error hmake, History.engine_extend_error hmake]
    exact hl
  · rw [History.outcomes_extend_ok hmake, History.engine_extend_ok hmake]
    exact (List.append_nil h.outcomes).symm ▸ hl.prepare count.toNat
  · rw [History.outcomes_extend_ok hmake, History.engine_extend_ok hmake]
    exact hl.after hr op

theorem Logged.foldl_extend {samples : Samples} : ∀ (calls : List Call) {h : History},
    Logged samples h.engine h.outcomes →
    Logged samples (calls.foldl History.extend h).engine (calls.foldl History.extend h).outcomes
  | [], _, hl => hl
  | c :: calls, _, hl => Logged.foldl_extend calls (hl.extend c)

theorem logged_history (samples : Samples) (ceiling : Option Nat) (calls : List Call) :
    Logged samples ((fresh samples ceiling).history calls).engine
      ((fresh samples ceiling).history calls).outcomes :=
  Logged.foldl_extend calls (logged_fresh samples ceiling)

/-- A measurement answers with the last value that doing the log over finds. -/
theorem Logged.getLast?_outcomes {samples : Samples} {e e' : Engine} {found : List Bool}
    (hl : Logged samples e found) {q : Int} {bit : Bool}
    (hmake : (Call.measure q).make e = .ok (some bit) e') :
    (e'.circuit.replay samples (found.length + 1 - e'.circuit.measureCount)).outcomes.getLast? =
      some bit := by
  rcases (Call.measure q).make_cases e with ⟨error, hmake'⟩ | ⟨count, hcall, -⟩ |
    ⟨op, r, hop, hr, -, hmake'⟩
  · rw [hmake] at hmake'
    cases hmake'
  · cases hcall
  · obtain rfl : Operation.measure q.toNat = op := by simpa [Call.operation?] using hop
    obtain ⟨hbit, rfl⟩ : _ = some bit ∧ e.after (.measure q.toNat) r = e' := by
      simpa only [EStateM.Result.ok.injEq] using hmake'.symm.trans hmake
    have hreplay := (hl.after hr (.measure q.toNat)).replay_eq _ rfl
    rw [hbit, Option.toList_some, List.length_append, List.length_singleton] at hreplay
    have hpos : 0 < (e.after (.measure q.toNat) r).circuit.measureCount := by
      rw [circuit_after hr, Circuit.measureCount_push]
      exact Nat.succ_pos _
    rw [hreplay, List.drop_append_of_le_length (by omega)]
    exact List.getLast?_concat

/-- **The log is faithful.**  Make any calls on a fresh engine.  If there is a register afterwards, the
    circuit of the engine, done over on a register of zeros, gives exactly that register and the values
    that its measurements answered; of the samples drawn in all, those of the log are the last ones, as
    many as it holds measurements.  And every value that a measurement ever answered is the one that
    doing over the circuit of that moment finds last. -/
theorem register_eq_replay (samples : Samples) (ceiling : Option Nat) (calls : List Call) :
    (∀ r, ((fresh samples ceiling).history calls).engine.register = some r →
      let h := (fresh samples ceiling).history calls
      let d := h.outcomes.length
      let m := h.engine.circuit.measureCount
      m ≤ d ∧ h.engine.circuit.replay samples (d - m) =
        { register := r, draws := d, outcomes := h.outcomes.drop (d - m) }) ∧
    (∀ past q future bit e, calls = past ++ .measure q :: future →
      (Call.measure q).make ((fresh samples ceiling).history past).engine = .ok (some bit) e →
      let d := ((fresh samples ceiling).history past).outcomes.length + 1
      let m := e.circuit.measureCount
      (e.circuit.replay samples (d - m)).outcomes.getLast? = some bit) := by
  constructor
  · intro r hr
    have hl := logged_history samples ceiling calls
    exact ⟨hl.measureCount_le, hl.replay_eq r hr⟩
  · intro past q future bit e _ hmake
    exact (logged_history samples ceiling past).getLast?_outcomes hmake

/-- A history in which two calls are refused, a qubit controls its own flip, and the register is
    prepared twice: the second log starts at the second sample. -/
theorem register_eq_replay_prepared_twice :
    let calls : List Call := [.prepare 1, .hadamard 0, .measure 0, .flip 5, .prepare 2, .hadamard 1,
      .controlledNot 1 1, .prepare 99, .measure 1]
    let h := (fresh (Samples.ofSeed 42) none).history calls
    ∃ r, h.engine.register = some r ∧ h.outcomes.length = 2 ∧ h.engine.circuit.measureCount = 1 ∧
      (h.engine.circuit.replay (Samples.ofSeed 42) 1).register = r := by
  intro calls h
  have hr : h.engine.register = some _ := rfl
  refine ⟨_, hr, rfl, rfl, ?_⟩
  exact congrArg Replay.register ((register_eq_replay (Samples.ofSeed 42) none calls).1 _ hr).2

end Engine

end QubitBasic
