/-
  Two machines in step.

  Two machines may execute one statement in different surroundings: with another engine, at another
  place of another listing, under another rule for missing lines.  Whether they stay in step is decided
  by few things.  A `Simulation` is a relation between machines that every elementary change keeps when
  it is made on both: a line printed, a variable bound, a step counted, an operation of the engine.
  `Relocates` says the same of jumps: where one listing is jumped in, the other is jumped in to the line
  that stands for it.  From the two it follows that a whole step ends alike on both machines, up to an
  excused error of the first and to the place where they go on (`Simulation.matches_step`).

  A statement looks at its listing for jumps only, so nothing else has to be known about the listings.
-/
import QubitBasic.Proofs.Machine.Frame

namespace QubitBasic

/-- The operations of an engine that statements ask for. -/
inductive Engine.IsOperation : {α : Type} → Engine.Step α → Prop
  | prepare (count : Int) : IsOperation (Engine.prepare count)
  | hadamard (qubit : Int) : IsOperation (Engine.hadamard qubit)
  | flip (qubit : Int) : IsOperation (Engine.flip qubit)
  | controlledNot (control target : Int) : IsOperation (Engine.controlledNot control target)
  | measure (qubit : Int) : IsOperation (Engine.measure qubit)

/-- The same way on, where the line with index `i` has index `place i`. -/
def Flow.relocate (place : Nat → Nat) : Flow → Flow
  | .next => .next
  | .jump index => .jump (place index)
  | .halt => .halt

theorem Flow.relocate_id : Flow.relocate id = id := by
  funext flow
  cases flow <;> rfl

namespace Machine

/-- A jump in the second listing leads to the line that stands for the one that it leads to in the
    first listing, unless it fails there with an excused error. -/
def Relocates (excused : RunError → Prop) (place : Nat → Nat) (rule rule' : TargetPolicy)
    (listing listing' : Listing) : Prop :=
  ∀ target, jump rule' listing' target = (jump rule listing target).map (Flow.relocate place) ∨
    ∃ error, jump rule listing target = .error error ∧ excused error

/-- A relation between machines that the elementary changes keep when they are made on both. -/
structure Simulation (S : Machine → Machine → Prop) (excused : RunError → Prop) : Prop where
  vars_eq : ∀ ⦃m m'⦄, S m m' → m'.vars = m.vars
  print : ∀ ⦃m m'⦄, S m m' → ∀ line,
    S { m with output := m.output.push line } { m' with output := m'.output.push line }
  assign : ∀ ⦃m m'⦄, S m m' → ∀ name value,
    S { m with vars := m.vars.bind name value } { m' with vars := m'.vars.bind name value }
  count : ∀ ⦃m m'⦄, S m m' → S { m with steps := m.steps + 1 } { m' with steps := m'.steps + 1 }
  /-- Both machines have an engine or neither has, or it is excused that the first has none. -/
  engine : ∀ ⦃m m'⦄, S m m' → m.engine.isNone = m'.engine.isNone ∨
    m.engine = none ∧ ∀ statement, excused (.engineMissing statement)
  quantum : ∀ {α : Type} (statement : String) {operation : Engine.Step α},
    Engine.IsOperation operation →
      Matches S excused (quantum statement operation) (quantum statement operation)

/-- Machines with the same engine get the same from it. -/
theorem matches_quantum_of_engine_eq {S : Machine → Machine → Prop} (excused : RunError → Prop)
    (hsame : ∀ ⦃m m'⦄, S m m' → m'.engine = m.engine)
    (hset : ∀ ⦃m m'⦄, S m m' → ∀ engine, S { m with engine } { m' with engine }) {α : Type}
    (statement : String) (operation : Engine.Step α) :
    Matches S excused (quantum statement operation) (quantum statement operation) := by
  intro m m' hm
  cases he : m.engine with
  | none =>
    rw [quantum_of_none he, quantum_of_none ((hsame hm).trans he)]
    exact .error hm
  | some e =>
    cases hop : operation e with
    | ok result e' =>
      rw [quantum_of_ok he hop, quantum_of_ok ((hsame hm).trans he) hop]
      exact .ok (hset hm _)
    | error error e' =>
      rw [quantum_of_error he hop, quantum_of_error ((hsame hm).trans he) hop]
      exact .error (hset hm _)

namespace Simulation

variable {S : Machine → Machine → Prop} {excused : RunError → Prop} (hS : Simulation S excused)

include hS

theorem matches_value (source : String) :
    Matches S excused (Machine.value source) (Machine.value source) := by
  intro m m' hm
  have hvalue : ∀ m : Machine, Machine.value source m = .ok (evaluate m.vars source) m := fun _ => rfl
  rw [hvalue, hvalue, hS.vars_eq hm]
  exact .ok hm

theorem matches_print (line : String) :
    Matches S excused (Machine.print line) (Machine.print line) :=
  fun _ _ hm => .ok (hS.print hm line)

theorem matches_assign (name : String) (value : Value) :
    Matches S excused (Machine.assign name value) (Machine.assign name value) :=
  fun _ _ hm => .ok (hS.assign hm name value)

theorem matches_integer (statement operand : String) :
    Matches S excused (integer statement operand) (integer statement operand) := by
  refine (hS.matches_value operand).bind fun v => ?_
  cases v.integer? with
  | some n => exact matches_pure n
  | none => exact matches_throw _

variable {place : Nat → Nat} {rule rule' : TargetPolicy} {listing listing' : Listing}

/-- What ends with the next line ends so in both. -/
theorem matches_gate (statement line : String) {operation : Engine.Step Unit}
    (hop : Engine.IsOperation operation) :
    Matches S excused
      (Flow.relocate place <$> do Machine.quantum statement operation; Machine.print line; return .next)
      (do Machine.quantum statement operation; Machine.print line; return .next) :=
  (hS.quantum statement hop).bind_map fun _ => (hS.matches_print line).bind_map fun _ =>
    matches_pure Flow.next

theorem matches_perform (hjump : Relocates excused place rule rule' listing listing')
    (statement : String) (action : Action) :
    Matches S excused (Flow.relocate place <$> perform rule listing statement action)
      (perform rule' listing' statement action) := by
  cases action with
  | print items =>
    have hitem : ∀ item : String, Matches S excused
        (do return (← Machine.value item).display : Step String)
        (do return (← Machine.value item).display) :=
      fun item => (hS.matches_value item).bind fun v => matches_pure v.display
    exact (matches_mapM hitem items).bind_map fun _ => (hS.matches_print _).bind_map fun _ =>
      matches_pure Flow.next
  | assign name expr =>
    exact (hS.matches_value expr).bind_map fun v => (hS.matches_assign name v).bind_map fun _ =>
      matches_pure Flow.next
  | prepare count =>
    exact (hS.matches_integer statement count).bind_map fun n =>
      hS.matches_gate statement _ (.prepare n)
  | hadamard qubit =>
    exact (hS.matches_integer statement qubit).bind_map fun q =>
      hS.matches_gate statement _ (.hadamard q)
  | flip qubit =>
    exact (hS.matches_integer statement qubit).bind_map fun q =>
      hS.matches_gate statement _ (.flip q)
  | controlledNot control target =>
    exact (hS.matches_integer statement control).bind_map fun c =>
      (hS.matches_integer statement target).bind_map fun t =>
        hS.matches_gate statement _ (.controlledNot c t)
  | measure qubit =>
    exact (hS.matches_integer statement qubit).bind_map fun q =>
      (hS.quantum statement (.measure q)).bind_map fun _ =>
        (hS.matches_assign measured _).bind_map fun _ => (hS.matches_print _).bind_map fun _ =>
          matches_pure Flow.next
  | goto target =>
    refine (hS.matches_integer statement target).bind_map fun n => ?_
    rcases hjump n with hsame | ⟨error, herror, hexcused⟩
    · rw [hsame]
      cases jump rule listing n with
      | ok flow => exact matches_pure (flow.relocate place)
      | error error => exact matches_throw error
    · rw [herror]
      exact fun _ _ _ => .excused hexcused
  | stop => exact matches_pure Flow.halt
  | remark text => exact matches_pure Flow.next

theorem matches_act (hjump : Relocates excused place rule rule' listing listing')
    (statement : String) (action : Action) :
    Matches S excused (Flow.relocate place <$> act rule listing statement action)
      (act rule' listing' statement action) := by
  intro m m' hm
  have hperform := hS.matches_perform hjump statement action hm
  cases hmissing : action.isQuantum && m.engine.isNone with
  | true =>
    rw [map_of_error _ (act_of_engineMissing hmissing)]
    rcases hS.engine hm with hsame | ⟨-, hexcused⟩
    · rw [act_of_engineMissing (by rw [← hsame, hmissing])]
      exact .error hm
    · exact .excused (hexcused statement)
  | false =>
    have hmissing' : (action.isQuantum && m'.engine.isNone) = false := by
      rcases hS.engine hm with hsame | ⟨hnone, -⟩
      · rw [← hsame, hmissing]
      · -- Without an engine only what needs none gets this far.
        rw [hnone, Option.isNone_none, Bool.and_true] at hmissing
        rw [hmissing, Bool.false_and]
    rwa [map_congr_at _ (act_of_not_engineMissing hmissing), act_of_not_engineMissing hmissing']

theorem matches_execute (hjump : Relocates excused place rule rule' listing listing') (text : String)
    (statement : Statement) :
    Matches S excused (Flow.relocate place <$> execute rule listing text statement)
      (execute rule' listing' text statement) := by
  cases statement with
  | simple action => exact hS.matches_act hjump text action
  | conditional condition action =>
    intro m m' hm
    have hact := hS.matches_act hjump text action hm
    have hvars := hS.vars_eq hm
    cases hcondition : Condition.holds m.vars condition with
    | true => rwa [map_congr_at _ (execute_of_holds hcondition), execute_of_holds (hvars ▸ hcondition)]
    | false =>
      rw [map_of_ok _ (execute_of_not_holds hcondition), execute_of_not_holds (hvars ▸ hcondition)]
      exact .ok hm

/-- **One step on both machines.**  The same line, decoded and executed, ends alike. -/
theorem matches_step (hjump : Relocates excused place rule rule' listing listing') (line : Line) :
    Matches S excused (Flow.relocate place <$> step rule listing line) (step rule' listing' line) := by
  have hcount : Matches S excused
      (modify fun m => { m with steps := m.steps + 1 } : Step Unit)
      (modify fun m => { m with steps := m.steps + 1 }) := fun _ _ hm => .ok (hS.count hm)
  refine hcount.bind_map fun _ => ?_
  cases Statement.parse line.statement with
  | error error => exact matches_throw _
  | ok statement => exact hS.matches_execute hjump line.statement statement

end Simulation

end Machine

end QubitBasic
