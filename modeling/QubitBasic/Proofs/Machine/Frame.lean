/-
  What a statement cannot touch.

  A statement changes a machine in three elementary ways only: it prints a line, binds a variable that
  it names (`Statement.binds`) or puts another engine in place of the one that is there.  A `Frame` is a
  relation between machines that allows for these three, for variables of certain names; it then holds
  between the machines before and after any statement that binds no others, whether the statement
  completes or fails.  In particular a statement never takes a printed line back and never changes the
  count of steps (`frame_grows`): only the step itself counts, once.
-/
import QubitBasic.Machine
import QubitBasic.Proofs.Computation

namespace QubitBasic

/-- The variables that an action may bind. -/
def Action.binds : Action → List String
  | .assign name _ => [name]
  | .measure _ => [Machine.measured]
  | _ => []

/-- The variables that a statement may bind. -/
def Statement.binds : Statement → List String
  | .simple action => action.binds
  | .conditional _ action => action.binds

namespace Machine

/-! ## Operands -/

theorem integer_of_some {statement operand : String} {m : Machine} {n : Int}
    (h : (evaluate m.vars operand).integer? = some n) :
    integer statement operand m = .ok n m := by
  have hvalue : value operand m = .ok (evaluate m.vars operand) m := rfl
  rw [integer, bind_of_ok hvalue, h]
  rfl

/-! ## Operations of the engine -/

section

variable {α : Type} {statement : String} {operation : Engine.Step α} {m : Machine} {e e' : Engine}

theorem quantum_of_none (he : m.engine = none) :
    quantum statement operation m = .error (.engineMissing statement) m := by
  rw [quantum, get_bind, he]
  rfl

theorem quantum_of_ok {result : α} (he : m.engine = some e) (hop : operation e = .ok result e') :
    quantum statement operation m = .ok result { m with engine := some e' } := by
  rw [quantum, get_bind, he]
  simp only [hop]
  rfl

theorem quantum_of_error {error : QuantumError} (he : m.engine = some e)
    (hop : operation e = .error error e') :
    quantum statement operation m = .error (.quantum error) { m with engine := some e' } := by
  rw [quantum, get_bind, he]
  simp only [hop]
  rfl

end

/-! ## Actions and statements -/

section

variable {policy : TargetPolicy} {listing : Listing} {text condition : String} {action : Action}
  {m : Machine}

theorem act_of_engineMissing (h : (action.isQuantum && m.engine.isNone) = true) :
    act policy listing text action m = .error (.engineMissing text) m := by
  rw [act, get_bind, h]
  rfl

theorem act_of_not_engineMissing (h : (action.isQuantum && m.engine.isNone) = false) :
    act policy listing text action m = perform policy listing text action m := by
  rw [act, get_bind, h]
  rfl

theorem execute_of_holds (h : Condition.holds m.vars condition = true) :
    execute policy listing text (.conditional condition action) m =
      act policy listing text action m := by
  rw [execute, get_bind, h]
  rfl

theorem execute_of_not_holds (h : Condition.holds m.vars condition = false) :
    execute policy listing text (.conditional condition action) m = .ok .next m := by
  rw [execute, get_bind, h]
  rfl

end

/-! ## The frame rule -/

/-- A relation from before to after that the elementary changes of a machine respect, bindings of the
    given names among them. -/
structure Frame (names : String → Prop) (R : Machine → Machine → Prop) : Prop where
  refl : ∀ m, R m m
  trans : ∀ ⦃m m' m''⦄, R m m' → R m' m'' → R m m''
  print : ∀ m line, R m { m with output := m.output.push line }
  assign : ∀ m name value, names name → R m { m with vars := m.vars.bind name value }
  engine : ∀ m e e', m.engine = some e → R m { m with engine := some e' }

namespace Frame

variable {names : String → Prop} {R : Machine → Machine → Prop} (hR : Frame names R)

include hR

theorem keeps_print (line : String) : Keeps R (Machine.print line) := fun m => hR.print m line

theorem keeps_assign {name : String} (hname : names name) (value : Value) :
    Keeps R (Machine.assign name value) := fun m => hR.assign m name value hname

theorem keeps_value (source : String) : Keeps R (Machine.value source) := fun m => hR.refl m

theorem keeps_integer (statement operand : String) : Keeps R (Machine.integer statement operand) := by
  refine (hR.keeps_value operand).bind hR.trans fun v => ?_
  cases v.integer? with
  | some n => exact keeps_pure hR.refl n
  | none => exact keeps_throw hR.refl _

theorem keeps_quantum {α : Type} (statement : String) (operation : Engine.Step α) :
    Keeps R (Machine.quantum statement operation) := by
  intro m
  cases he : m.engine with
  | none =>
    rw [finalState_of_error (quantum_of_none he)]
    exact hR.refl m
  | some e =>
    cases hop : operation e with
    | ok result e' =>
      rw [finalState_of_ok (quantum_of_ok he hop)]
      exact hR.engine m e e' he
    | error error e' =>
      rw [finalState_of_error (quantum_of_error he hop)]
      exact hR.engine m e e' he

/-- A gate prints a line once the engine has accepted it. -/
theorem keeps_gate {statement : String} {operation : Engine.Step Unit} {line : String} :
    Keeps R (do
      Machine.quantum statement operation
      Machine.print line
      return Flow.next) :=
  (hR.keeps_quantum statement operation).bind hR.trans fun _ =>
    (hR.keeps_print line).bind hR.trans fun _ => keeps_pure hR.refl Flow.next

theorem keeps_perform (policy : TargetPolicy) (listing : Listing) (statement : String)
    {action : Action} (hnames : ∀ name ∈ action.binds, names name) :
    Keeps R (perform policy listing statement action) := by
  cases action with
  | print items =>
    have hitem : ∀ item : String, Keeps R (do
        return (← Machine.value item).display : Step String) := fun item =>
      (hR.keeps_value item).bind hR.trans fun v => keeps_pure hR.refl v.display
    exact (keeps_mapM hR.refl hR.trans hitem items).bind hR.trans fun _ =>
      (hR.keeps_print _).bind hR.trans fun _ => keeps_pure hR.refl Flow.next
  | assign name expr =>
    exact (hR.keeps_value expr).bind hR.trans fun v =>
      (hR.keeps_assign (hnames name (List.mem_singleton_self _)) v).bind hR.trans fun _ =>
        keeps_pure hR.refl Flow.next
  | prepare count => exact (hR.keeps_integer statement count).bind hR.trans fun _ => hR.keeps_gate
  | hadamard qubit => exact (hR.keeps_integer statement qubit).bind hR.trans fun _ => hR.keeps_gate
  | flip qubit => exact (hR.keeps_integer statement qubit).bind hR.trans fun _ => hR.keeps_gate
  | controlledNot control target =>
    exact (hR.keeps_integer statement control).bind hR.trans fun _ =>
      (hR.keeps_integer statement target).bind hR.trans fun _ => hR.keeps_gate
  | measure qubit =>
    exact (hR.keeps_integer statement qubit).bind hR.trans fun _ =>
      (hR.keeps_quantum statement _).bind hR.trans fun _ =>
        (hR.keeps_assign (hnames measured (List.mem_singleton_self _)) _).bind hR.trans fun _ =>
          (hR.keeps_print _).bind hR.trans fun _ => keeps_pure hR.refl Flow.next
  | goto target =>
    refine (hR.keeps_integer statement target).bind hR.trans fun n => ?_
    cases jump policy listing n with
    | ok flow => exact keeps_pure hR.refl flow
    | error error => exact keeps_throw hR.refl error
  | stop => exact keeps_pure hR.refl Flow.halt
  | remark text => exact keeps_pure hR.refl Flow.next

theorem keeps_act (policy : TargetPolicy) (listing : Listing) (statement : String) {action : Action}
    (hnames : ∀ name ∈ action.binds, names name) : Keeps R (act policy listing statement action) := by
  have hperform := hR.keeps_perform policy listing statement hnames
  refine (keeps_get hR.refl).bind hR.trans fun m => ?_
  cases action.isQuantum && m.engine.isNone with
  | true => exact (keeps_throw hR.refl _).bind hR.trans fun _ => hperform
  | false => exact hperform

/-- **The frame rule.**  A statement, completed or failed, leads from before to after. -/
theorem keeps_execute (policy : TargetPolicy) (listing : Listing) (text : String)
    {statement : Statement} (hnames : ∀ name ∈ statement.binds, names name) :
    Keeps R (execute policy listing text statement) := by
  cases statement with
  | simple action => exact hR.keeps_act policy listing text hnames
  | conditional condition action =>
    refine (keeps_get hR.refl).bind hR.trans fun m => ?_
    cases Condition.holds m.vars condition with
    | true => exact hR.keeps_act policy listing text hnames
    | false => exact keeps_pure hR.refl Flow.next

/-- A step counts itself; all else that it does is done by its statement. -/
theorem keeps_step (policy : TargetPolicy) (listing : Listing) {line : Line}
    (hnames : ∀ s, Statement.parse line.statement = .ok s → ∀ name ∈ s.binds, names name) :
    Keeps (fun m m' => R { m with steps := m.steps + 1 } m') (step policy listing line) := by
  intro m
  have hcount : (modify fun m => { m with steps := m.steps + 1 } : Step Unit) m =
      .ok () { m with steps := m.steps + 1 } := rfl
  show R _ _
  rw [finalState, step, bind_of_ok hcount]
  cases hparse : Statement.parse line.statement with
  | error error => exact hR.refl _
  | ok statement =>
    exact hR.keeps_execute policy listing line.statement (hnames statement hparse)
      { m with steps := m.steps + 1 }

end Frame

/-! ## Output and steps -/

/-- The second machine has printed what the first one has, and perhaps more. -/
def Extends (m m' : Machine) : Prop := m.output.toList <+: m'.output.toList

theorem Extends.trans {m m' m'' : Machine} (h : Extends m m') (h' : Extends m' m'') : Extends m m'' :=
  List.IsPrefix.trans h h'

theorem frame_grows : Frame (fun _ => True) fun m m' => m'.steps = m.steps ∧ Extends m m' where
  refl _ := ⟨rfl, List.prefix_refl _⟩
  trans _ _ _ h h' := ⟨h'.1.trans h.1, h.2.trans h'.2⟩
  print m line := ⟨rfl, by
    show m.output.toList <+: (m.output.push line).toList
    rw [Array.toList_push]
    exact List.prefix_append _ _⟩
  assign _ _ _ _ := ⟨rfl, List.prefix_refl _⟩
  engine _ _ _ _ := ⟨rfl, List.prefix_refl _⟩

/-- A step counts itself and takes no printed line back. -/
theorem keeps_step (policy : TargetPolicy) (listing : Listing) (line : Line) :
    Keeps (fun m m' => m'.steps = m.steps + 1 ∧ Extends m m') (step policy listing line) :=
  frame_grows.keeps_step policy listing fun _ _ _ _ => trivial

end Machine

end QubitBasic
