/-
  The machine that executes statements.

  All that a run changes is in one `Machine`: the variables, the lines printed so far, the index of the
  current line, the number of statements executed, and the engine.  Executing a statement yields the
  `Flow` to the next line, or an error; either way there is a machine afterwards, and after an error
  it is the one from before.
-/
import QubitBasic.Condition
import QubitBasic.RunError
import QubitBasic.Statement.Parser

namespace QubitBasic

/-- The state of a run. -/
structure Machine where
  vars : Variables := {}
  output : Array String := #[]
  /-- The index of the current line in the listing. -/
  counter : Nat := 0
  /-- The number of statements executed. -/
  steps : Nat := 0
  engine : Option Engine

/-- Where a run continues after a statement. -/
inductive Flow where
  /-- At the line after the current one. -/
  | next
  /-- At the line with the given index. -/
  | jump (index : Nat)
  /-- Nowhere. -/
  | halt
  deriving DecidableEq, Repr

namespace Machine

/-- A computation on a machine that may fail. -/
abbrev Step := EStateM RunError Machine

/-- The variable that holds the last measured value. -/
def measured : String := "QRESULT"

/-- Prints a line. -/
def print (line : String) : Step Unit := modify fun m => { m with output := m.output.push line }

/-- Binds a variable. -/
def assign (name : String) (value : Value) : Step Unit :=
  modify fun m => { m with vars := m.vars.bind name value }

/-- The value of a text. -/
def value (source : String) : Step Value := return evaluate (← get).vars source

/-- The value of an operand of `statement` that has to be a whole number. -/
def integer (statement operand : String) : Step Int := do
  let v ← value operand
  match v.integer? with
  | some n => return n
  | none => throw (.statement (.malformed statement (.notInteger operand v)))

/-- An operation of the engine, for `statement`. -/
def quantum {α : Type} (statement : String) (operation : Engine.Step α) : Step α := do
  let m ← get
  match m.engine with
  | none => throw (.engineMissing statement)
  | some e =>
    match operation e with
    | .ok result e =>
      set { m with engine := some e }
      return result
    | .error error e =>
      set { m with engine := some e }
      throw (.quantum error)

/-- Where a `GOTO` continues. -/
def jump (policy : TargetPolicy) (listing : Listing) (target : Int) : Except RunError Flow :=
  match if 0 ≤ target then listing.index? target.toNat else none with
  | some index => .ok (.jump index)
  | none =>
    match policy with
    | .strict => .error (.unknownTarget target)
    | .fallThrough => .ok .next

/-- Executes an action; one that needs an engine fails without it only after its operands are
    evaluated. -/
def perform (policy : TargetPolicy) (listing : Listing) (statement : String) : Action → Step Flow
  | .print items => do
    print (String.join (← items.mapM fun item => return (← value item).display))
    return .next
  | .assign name expr => do
    assign name (← value expr)
    return .next
  | .prepare count => do
    let n ← integer statement count
    quantum statement (Engine.prepare n)
    print s!"Initialized {n} qubit(s)"
    return .next
  | .hadamard qubit => do
    let q ← integer statement qubit
    quantum statement (Engine.hadamard q)
    print s!"Applied Hadamard to qubit {q}"
    return .next
  | .flip qubit => do
    let q ← integer statement qubit
    quantum statement (Engine.flip q)
    print s!"Applied X gate to qubit {q}"
    return .next
  | .controlledNot control target => do
    let c ← integer statement control
    let t ← integer statement target
    quantum statement (Engine.controlledNot c t)
    print s!"Applied CNOT: control={c}, target={t}"
    return .next
  | .measure qubit => do
    let q ← integer statement qubit
    let bit ← quantum statement (Engine.measure q)
    assign measured (.number (if bit then 1 else 0))
    print s!"Measured qubit {q}: {bit.toNat}"
    return .next
  | .goto target => do
    let n ← integer statement target
    match jump policy listing n with
    | .ok flow => return flow
    | .error error => throw error
  | .stop => return .halt
  | .remark _ => return .next

/-- Executes an action.  That an engine is missing is noticed before any operand is evaluated. -/
def act (policy : TargetPolicy) (listing : Listing) (statement : String) (action : Action) :
    Step Flow := do
  if action.isQuantum && (← get).engine.isNone then throw (.engineMissing statement)
  perform policy listing statement action

/-- Executes the statement of a line, whose text names it in errors. -/
def execute (policy : TargetPolicy) (listing : Listing) (text : String) : Statement → Step Flow
  | .simple action => act policy listing text action
  | .conditional condition action => do
    if Condition.holds (← get).vars condition then act policy listing text action
    else return .next

/-- Decodes and executes the current line, which counts as a step even if it fails. -/
def step (policy : TargetPolicy) (listing : Listing) (line : Line) : Step Flow := do
  modify fun m => { m with steps := m.steps + 1 }
  match Statement.parse line.statement with
  | .error error => throw (.statement error)
  | .ok statement => execute policy listing line.statement statement

/-- The machine at the line where `flow` leads; `none` if it leads nowhere. -/
def follow? (m : Machine) : Flow → Option Machine
  | .next => some { m with counter := m.counter + 1 }
  | .jump index => some { m with counter := index }
  | .halt => none

end Machine

end QubitBasic
