/-
  One listing, two machines.

  A configuration can be tightened in four ways (`Policy`).  Three of them concern the machine: what a
  jump to a missing line does, how large a register may be, and whether there is an engine at all.  Two
  machines of which one runs under the tighter choice are `Twins`: they differ in their engines only,
  and in these only as the choice allows.  This is a `Simulation`, in which the tighter machine is excused
  for the error that belongs to the choice: executing one statement on both ends alike, or with that
  error (`matches_step`).

  A missing engine is noticed in two places, before the operands of a quantum statement are evaluated
  and again by the operation itself; the twin that has an engine never gets one prepared, because the
  first quantum statement ends the run of the other.
-/
import QubitBasic.Proofs.Engine.History
import QubitBasic.Proofs.Machine.Simulation

namespace QubitBasic

/-- The choices of a configuration that can be made more or less tightly. -/
inductive Policy where
  /-- What becomes of a jump to a line that does not exist. -/
  | targets
  /-- How large a register may be. -/
  | ceiling
  /-- Whether there is a quantum engine. -/
  | engine
  /-- What becomes of lines that share a number. -/
  | duplicates
  deriving DecidableEq, Repr

namespace Policy

/-- The kind of the error with which the tighter choice cuts a run short. -/
def kind : Policy → String
  | .targets => "UnknownLineTarget"
  | .ceiling => "InvalidQubitCount"
  | .engine => "QuantumEngineNotAttached"
  | .duplicates => "DuplicateLineNumber"

/-- The tighter machine may stop with this error.  Lines that share a number are found before there is
    a machine. -/
def Excuses (policy : Policy) (error : RunError) : Prop :=
  policy ≠ .duplicates ∧ error.kind = policy.kind

end Policy

/-! ## Engines -/

namespace Engine

/-- The second engine differs from the first in its ceiling only, which is no lower. -/
def Roomier (e e' : Engine) : Prop := ∃ ceiling, e' = { e with ceiling } ∧ e.ceiling ≤ ceiling

/-- The engine refuses the size of a new register. -/
def IsCountError : QuantumError → Prop
  | .qubitCount _ _ => True
  | .qubitIndex _ _ => False

theorem matches_checkQubit (q : Int) : Matches Roomier IsCountError (checkQubit q) (checkQubit q) := by
  rintro e _ ⟨ceiling, rfl, hle⟩
  have hroom : e.Roomier { e with ceiling } := ⟨ceiling, rfl, hle⟩
  by_cases h : e.InRange q
  · rw [checkQubit_of_inRange h, checkQubit_of_inRange (e := { e with ceiling }) h]
    exact .ok hroom
  · rw [checkQubit_of_not_inRange h, checkQubit_of_not_inRange (e := { e with ceiling }) h]
    exact .error hroom

theorem matches_getRegister (q : Int) :
    Matches Roomier IsCountError (getRegister q) (getRegister q) := by
  intro e e' hroom
  have hsame : e'.register = e.register := by
    obtain ⟨ceiling, rfl, -⟩ := hroom
    rfl
  cases hr : e.register with
  | none =>
    rw [getRegister_of_none q hr, getRegister_of_none q (hsame.trans hr)]
    exact .error hroom
  | some r =>
    rw [getRegister_of_some q hr, getRegister_of_some q (hsame.trans hr)]
    exact .ok hroom

theorem matches_record (operation : Operation) (r : Register Float) :
    Matches Roomier IsCountError (record operation r) (record operation r) := by
  rintro e _ ⟨ceiling, rfl, hle⟩
  exact .ok ⟨ceiling, rfl, hle⟩

theorem matches_draw : Matches Roomier IsCountError draw draw := by
  rintro e _ ⟨ceiling, rfl, hle⟩
  exact .ok ⟨ceiling, rfl, hle⟩

/-- A register that fits under the lower ceiling fits under the higher one. -/
theorem matches_prepare (count : Int) :
    Matches Roomier IsCountError (prepare count) (prepare count) := by
  rintro e _ ⟨ceiling, rfl, hle⟩
  rw [prepare, get_bind, get_bind]
  by_cases h : 1 ≤ count ∧ count ≤ e.ceiling
  · have h' : 1 ≤ count ∧ count ≤ ceiling := ⟨h.1, by omega⟩
    rw [if_pos h, if_pos h']
    exact .ok ⟨ceiling, rfl, hle⟩
  · rw [if_neg h]
    exact .excused trivial

theorem matches_hadamard (q : Int) : Matches Roomier IsCountError (hadamard q) (hadamard q) :=
  (matches_checkQubit q).bind fun _ => (matches_getRegister q).bind fun _ => matches_record _ _

theorem matches_flip (q : Int) : Matches Roomier IsCountError (flip q) (flip q) :=
  (matches_checkQubit q).bind fun _ => (matches_getRegister q).bind fun _ => matches_record _ _

theorem matches_controlledNot (c t : Int) :
    Matches Roomier IsCountError (controlledNot c t) (controlledNot c t) :=
  (matches_checkQubit c).bind fun _ => (matches_checkQubit t).bind fun _ =>
    (matches_getRegister c).bind fun _ => matches_record _ _

theorem matches_measure (q : Int) : Matches Roomier IsCountError (measure q) (measure q) :=
  (matches_checkQubit q).bind fun _ => matches_draw.bind fun _ => (matches_getRegister q).bind fun _ =>
    (matches_record _ _).bind fun _ => matches_pure _

theorem matches_of_isOperation {α : Type} {operation : Step α} (h : IsOperation operation) :
    Matches Roomier IsCountError operation operation := by
  cases h with
  | prepare count => exact matches_prepare count
  | hadamard qubit => exact matches_hadamard qubit
  | flip qubit => exact matches_flip qubit
  | controlledNot control target => exact matches_controlledNot control target
  | measure qubit => exact matches_measure qubit

end Engine

/-! ## Machines -/

namespace Policy

/-- How the engines of two machines may differ, the first of which runs under the tighter choice. -/
def Engines : Policy → Option Engine → Option Engine → Prop
  | .ceiling, tight, loose => tight = loose ∨ ∃ e e', tight = some e ∧ loose = some e' ∧ e.Roomier e'
  | .engine, tight, loose => tight = none ∧ ∃ e, loose = some e ∧ e.register = none
  | .targets, tight, loose | .duplicates, tight, loose => tight = loose

/-- How the rules for missing lines may differ. -/
def Targets (policy : Policy) (rule rule' : TargetPolicy) : Prop :=
  rule = rule' ∨ policy = .targets ∧ rule = .strict

/-- Without the choice between an engine and none, both machines have one or neither has. -/
theorem Engines.isNone_eq {policy : Policy} {tight loose : Option Engine}
    (h : policy.Engines tight loose) (hpolicy : policy ≠ .engine) : tight.isNone = loose.isNone := by
  cases policy with
  | engine => exact absurd rfl hpolicy
  | ceiling =>
    rcases h with rfl | ⟨e, e', rfl, rfl, -⟩
    · rfl
    · rfl
  | targets =>
    obtain rfl : tight = loose := h
    rfl
  | duplicates =>
    obtain rfl : tight = loose := h
    rfl

end Policy

namespace Machine

/-- The machines differ in their engines only, and in these as the choice allows. -/
def Twins (policy : Policy) (m m' : Machine) : Prop :=
  ∃ engine, m' = { m with engine } ∧ policy.Engines m.engine engine

variable {policy : Policy} {rule rule' : TargetPolicy}

theorem Twins.counter_eq {m m' : Machine} (h : Twins policy m m') : m'.counter = m.counter := by
  obtain ⟨engine, rfl, -⟩ := h
  rfl

theorem Twins.output_eq {m m' : Machine} (h : Twins policy m m') : m'.output = m.output := by
  obtain ⟨engine, rfl, -⟩ := h
  rfl

/-- The same engine does the same. -/
theorem alike_quantum_of_eq {α : Type} (statement : String) (operation : Engine.Step α) (m : Machine)
    (hrefl : ∀ engine, policy.Engines engine engine) :
    Alike (Twins policy) policy.Excuses (quantum statement operation m)
      (quantum statement operation m) := by
  have htwins : ∀ m, Twins policy m m := fun m => ⟨m.engine, rfl, hrefl m.engine⟩
  cases quantum statement operation m with
  | ok result m₁ => exact .ok (htwins m₁)
  | error error m₁ => exact .error (htwins m₁)

/-- An engine with more room does the same, or the one with less refuses the size of a register. -/
theorem alike_quantum_of_roomier {α : Type} (statement : String) {operation : Engine.Step α}
    (hop : Matches Engine.Roomier Engine.IsCountError operation operation) {m : Machine}
    {e e' : Engine} (he : m.engine = some e) (hroom : e.Roomier e') :
    Alike (Twins .ceiling) Policy.ceiling.Excuses (quantum statement operation m)
      (quantum statement operation { m with engine := some e' }) := by
  have halike := hop hroom
  generalize hr : operation e = r at halike
  generalize hr' : operation e' = r' at halike
  cases halike with
  | ok hroom₁ =>
    rw [quantum_of_ok he hr, quantum_of_ok (m := { m with engine := some e' }) rfl hr']
    exact .ok ⟨_, rfl, Or.inr ⟨_, _, rfl, rfl, hroom₁⟩⟩
  | error hroom₁ =>
    rw [quantum_of_error he hr, quantum_of_error (m := { m with engine := some e' }) rfl hr']
    exact .error ⟨_, rfl, Or.inr ⟨_, _, rfl, rfl, hroom₁⟩⟩
  | @excused error _ _ hcount =>
    rw [quantum_of_error he hr]
    cases error with
    | qubitCount requested greatest => exact .excused ⟨by decide, rfl⟩
    | qubitIndex qubit qubits => exact hcount.elim

theorem matches_quantum {α : Type} (statement : String) {operation : Engine.Step α}
    (hop : Matches Engine.Roomier Engine.IsCountError operation operation) :
    Matches (Twins policy) policy.Excuses (quantum statement operation)
      (quantum statement operation) := by
  rintro m _ ⟨engine, rfl, hengine⟩
  cases policy with
  | targets =>
    obtain rfl : m.engine = engine := hengine
    exact alike_quantum_of_eq statement operation m fun _ => rfl
  | duplicates =>
    obtain rfl : m.engine = engine := hengine
    exact alike_quantum_of_eq statement operation m fun _ => rfl
  | ceiling =>
    rcases hengine with rfl | ⟨e, e', he, rfl, hroom⟩
    · exact alike_quantum_of_eq statement operation m fun _ => Or.inl rfl
    · exact alike_quantum_of_roomier statement hop he hroom
  | engine =>
    rw [quantum_of_none hengine.1]
    exact .excused ⟨by decide, rfl⟩

/-- The stricter rule fails with its own error where the other one goes on. -/
theorem relocates_id (hrule : policy.Targets rule rule') (listing : Listing) :
    Relocates policy.Excuses id rule rule' listing listing := by
  intro target
  rcases hrule with rfl | ⟨rfl, rfl⟩
  · rw [Flow.relocate_id]
    cases jump rule listing target <;> exact Or.inl rfl
  · unfold jump
    cases if 0 ≤ target then listing.index? target.toNat else none with
    | some index => exact Or.inl rfl
    | none => exact Or.inr ⟨.unknownTarget target, rfl, by decide, rfl⟩

theorem simulation_twins : Simulation (Twins policy) policy.Excuses where
  vars_eq := by
    rintro m _ ⟨engine, rfl, -⟩
    rfl
  print := by
    rintro m _ ⟨engine, rfl, hengine⟩ line
    exact ⟨engine, rfl, hengine⟩
  assign := by
    rintro m _ ⟨engine, rfl, hengine⟩ name value
    exact ⟨engine, rfl, hengine⟩
  count := by
    rintro m _ ⟨engine, rfl, hengine⟩
    exact ⟨engine, rfl, hengine⟩
  engine := by
    rintro m _ ⟨engine, rfl, hengine⟩
    by_cases hpolicy : policy = .engine
    · subst hpolicy
      exact Or.inr ⟨hengine.1, fun _ => ⟨by decide, rfl⟩⟩
    · exact Or.inl (hengine.isNone_eq hpolicy)
  quantum statement _ hop := matches_quantum statement (Engine.matches_of_isOperation hop)

/-- One line, decoded and executed on both machines. -/
theorem matches_step (hrule : policy.Targets rule rule') (listing : Listing) (line : Line) :
    Matches (Twins policy) policy.Excuses (step rule listing line) (step rule' listing line) := by
  have hstep := simulation_twins.matches_step (relocates_id hrule listing) line
  rwa [Flow.relocate_id, id_map] at hstep

/-- Twins go on at the same line, or neither goes on. -/
theorem Twins.follow? {m m' : Machine} (h : Twins policy m m') (flow : Flow) :
    (m.follow? flow = none ∧ m'.follow? flow = none) ∨
      ∃ m₁ m₁', m.follow? flow = some m₁ ∧ m'.follow? flow = some m₁' ∧ Twins policy m₁ m₁' := by
  obtain ⟨engine, rfl, hengine⟩ := h
  cases flow with
  | next => exact Or.inr ⟨_, _, rfl, rfl, engine, rfl, hengine⟩
  | jump index => exact Or.inr ⟨_, _, rfl, rfl, engine, rfl, hengine⟩
  | halt => exact Or.inl ⟨rfl, rfl⟩

end Machine

end QubitBasic
