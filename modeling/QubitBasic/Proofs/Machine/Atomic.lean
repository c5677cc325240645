/-
  A statement that fails leaves the machine as it was.

  A statement can fail at several points: the engine is missing, an operand is no whole number, the
  engine refuses an operation, a line does not exist.  All of them come before the first change.  For
  the order of steps within a statement this is seen from the way statements are built
  (`Reads.bind_atomic`, `Atomic.bind_neverFails`); that the engine itself fails without a trace is known
  from its calls.
-/
import QubitBasic.Proofs.Engine.Refusal
import QubitBasic.Proofs.Machine.Frame

namespace QubitBasic.Machine

theorem reads_value (source : String) : Reads (value source) := fun _ => rfl

theorem reads_integer (statement operand : String) : Reads (integer statement operand) := by
  refine (reads_value operand).bind fun v => ?_
  cases v.integer? with
  | some n => exact reads_pure n
  | none => exact reads_throw _

theorem neverFails_print (line : String) : NeverFails (print line) := fun _ => ⟨(), _, rfl⟩

theorem neverFails_assign (name : String) (v : Value) : NeverFails (assign name v) :=
  fun _ => ⟨(), _, rfl⟩

/-- A line is printed and the run goes on. -/
theorem neverFails_print_next (line : String) :
    NeverFails (do print line; return Flow.next : Step Flow) :=
  (neverFails_print line).bind fun _ => neverFails_pure Flow.next

theorem atomic_quantum {α : Type} (statement : String) {operation : Engine.Step α}
    (hop : Atomic operation) : Atomic (quantum statement operation) := by
  intro m error m' h
  cases he : m.engine with
  | none =>
    rw [quantum_of_none he] at h
    cases h
    rfl
  | some e =>
    cases hrun : operation e with
    | ok result e' =>
      rw [quantum_of_ok he hrun] at h
      cases h
    | error error' e' =>
      rw [quantum_of_error he hrun, hop hrun, ← he] at h
      cases h
      rfl

/-- A gate prints a line once the engine has accepted it. -/
theorem atomic_gate (statement line : String) {operation : Engine.Step Unit}
    (hop : Atomic operation) : Atomic (do
      quantum statement operation
      print line
      return Flow.next : Step Flow) :=
  (atomic_quantum statement hop).bind_neverFails fun _ => neverFails_print_next line

theorem atomic_perform (policy : TargetPolicy) (listing : Listing) (statement : String)
    (action : Action) : Atomic (perform policy listing statement action) := by
  have hreads := reads_integer statement
  cases action with
  | print items =>
    have hitem : ∀ item : String, Reads (do return (← value item).display : Step String) :=
      fun item => (reads_value item).bind fun v => reads_pure v.display
    exact (reads_mapM hitem items).atomic.bind_neverFails fun _ => neverFails_print_next _
  | assign name expr =>
    exact (reads_value expr).atomic.bind_neverFails fun v =>
      (neverFails_assign name v).bind fun _ => neverFails_pure Flow.next
  | prepare count =>
    exact (hreads count).bind_atomic fun n => atomic_gate _ _ (Engine.atomic_prepare n)
  | hadamard qubit =>
    exact (hreads qubit).bind_atomic fun q => atomic_gate _ _ (Engine.atomic_hadamard q)
  | flip qubit =>
    exact (hreads qubit).bind_atomic fun q => atomic_gate _ _ (Engine.atomic_flip q)
  | controlledNot control target =>
    exact (hreads control).bind_atomic fun c => (hreads target).bind_atomic fun t =>
      atomic_gate _ _ (Engine.atomic_controlledNot c t)
  | measure qubit =>
    refine (hreads qubit).bind_atomic fun q => ?_
    refine (atomic_quantum statement (Engine.atomic_measure q)).bind_neverFails fun bit => ?_
    exact (neverFails_assign measured _).bind fun _ => neverFails_print_next _
  | goto target =>
    refine (hreads target).bind_atomic fun n => ?_
    cases jump policy listing n with
    | ok flow => exact (reads_pure flow).atomic
    | error error => exact (reads_throw error).atomic
  | stop => exact (reads_pure Flow.halt).atomic
  | remark text => exact (reads_pure Flow.next).atomic

theorem atomic_act (policy : TargetPolicy) (listing : Listing) (statement : String)
    (action : Action) : Atomic (act policy listing statement action) := by
  have hperform := atomic_perform policy listing statement action
  refine reads_get.bind_atomic fun m => ?_
  cases action.isQuantum && m.engine.isNone with
  | true => exact (reads_throw _).bind_atomic fun _ => hperform
  | false => exact hperform

/-- A statement that fails, guarded or not, leaves the machine that it found. -/
theorem atomic_execute (policy : TargetPolicy) (listing : Listing) (text : String)
    (statement : Statement) : Atomic (execute policy listing text statement) := by
  cases statement with
  | simple action => exact atomic_act policy listing text action
  | conditional condition action =>
    refine reads_get.bind_atomic fun m => ?_
    cases Condition.holds m.vars condition with
    | true => exact atomic_act policy listing text action
    | false => exact (reads_pure Flow.next).atomic

end QubitBasic.Machine
