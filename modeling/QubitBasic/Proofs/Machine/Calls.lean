/-
  What statements ask of the engine.

  A quantum statement evaluates its operands and then makes one call to the engine (`Line.call?`).
  Nothing else in a program touches the engine, so every step is of one of two kinds:

    * it makes a call: then it completes exactly if the engine accepts the call, and leaves the engine
      after the call, one more line of output and, after a measurement, the value that was found
      (`step_of_call`);
    * it makes none: then it ends in the same way whatever the engine is, and leaves it alone
      (`step_of_no_call`).

  Whether there is an engine at all is the one thing that shows in both.
-/
import QubitBasic.Proofs.Engine.History
import QubitBasic.Proofs.Machine.Frame

namespace QubitBasic

/-! ## Calls -/

/-- The call that an action makes, with its operands evaluated; none if one of them is no whole
    number. -/
def Action.call? (vars : Variables) : Action → Option Engine.Call
  | .prepare count => (evaluate vars count).integer?.map .prepare
  | .hadamard qubit => (evaluate vars qubit).integer?.map .hadamard
  | .flip qubit => (evaluate vars qubit).integer?.map .flip
  | .controlledNot control target =>
    (evaluate vars control).integer?.bind fun c =>
      (evaluate vars target).integer?.map fun t => .controlledNot c t
  | .measure qubit => (evaluate vars qubit).integer?.map .measure
  | _ => none

/-- The action that a statement carries out: its own, or that behind `THEN` if the condition holds. -/
def Statement.action? (vars : Variables) : Statement → Option Action
  | .simple action => some action
  | .conditional condition action => if Condition.holds vars condition then some action else none

/-- The action that a line carries out. -/
def Line.action? (vars : Variables) (line : Line) : Option Action :=
  match Statement.parse line.statement with
  | .error _ => none
  | .ok statement => statement.action? vars

/-- The call that a line makes. -/
def Line.call? (vars : Variables) (line : Line) : Option Engine.Call :=
  (line.action? vars).bind (Action.call? vars)

/-- The line that is printed for a call that has been answered. -/
def Engine.Call.announce (answer : Option Bool) : Engine.Call → String
  | .prepare n => s!"Initialized {n} qubit(s)"
  | .hadamard q => s!"Applied Hadamard to qubit {q}"
  | .flip q => s!"Applied X gate to qubit {q}"
  | .controlledNot c t => s!"Applied CNOT: control={c}, target={t}"
  | .measure q => s!"Measured qubit {q}: {(answer.getD false).toNat}"

theorem Action.isQuantum_of_call? {vars : Variables} {action : Action} {c : Engine.Call}
    (h : action.call? vars = some c) : action.isQuantum = true := by
  cases action <;> first | rfl | cases h

namespace Machine

/-- The machine after the engine has answered a call and become `e`. -/
def answered (m : Machine) (c : Engine.Call) (answer : Option Bool) (e : Engine) : Machine :=
  { m with
    vars := answer.elim m.vars fun bit => m.vars.bind measured (.number (if bit then 1 else 0))
    output := m.output.push (c.announce answer)
    engine := some e }

/-- How a call ends for the machine that makes it. -/
def afterCall (m : Machine) (c : Engine.Call) (e : Engine) : EStateM.Result RunError Machine Flow :=
  match c.make e with
  | .ok answer e' => .ok .next (m.answered c answer e')
  | .error error e' => .error (.quantum error) { m with engine := some e' }

/-- The machine after an action that makes no call. -/
def withEffect (m : Machine) : Action → Machine
  | .print items =>
    { m with
      output := m.output.push (String.join (items.map fun item => (evaluate m.vars item).display)) }
  | .assign name expr => { m with vars := m.vars.bind name (evaluate m.vars expr) }
  | _ => m

/-- The machine after a line that makes no call. -/
def stepped (m : Machine) (line : Line) : Machine :=
  (line.action? m.vars).elim { m with steps := m.steps + 1 }
    (withEffect { m with steps := m.steps + 1 })

/-- The computation does not depend on which engine the machine `m` has, if it has one, and leaves that
    engine as it is.  It fails with the machine `base`, or goes on from the machine `after`. -/
def IgnoresEngine (x : Step Flow) (m base after : Machine) : Prop :=
  (∃ error, ∀ engine, engine.isNone = m.engine.isNone →
    x { m with engine } = .error error { base with engine }) ∨
  (∃ flow, ∀ engine, engine.isNone = m.engine.isNone →
    x { m with engine } = .ok flow { after with engine })

variable {policy : TargetPolicy} {listing : Listing} {text : String} {m : Machine} {e : Engine}
  {c : Engine.Call}

theorem engine_stepped (m : Machine) (line : Line) : (m.stepped line).engine = m.engine := by
  rw [stepped]
  cases line.action? m.vars with
  | none => rfl
  | some action => cases action <;> rfl

theorem steps_stepped (m : Machine) (line : Line) : (m.stepped line).steps = m.steps + 1 := by
  rw [stepped]
  cases line.action? m.vars with
  | none => rfl
  | some action => cases action <;> rfl

/-- A line prints at most one line. -/
theorem size_output_stepped (m : Machine) (line : Line) :
    m.output.size ≤ (m.stepped line).output.size ∧
      (m.stepped line).output.size ≤ m.output.size + 1 := by
  rw [stepped]
  cases line.action? m.vars with
  | none => exact ⟨Nat.le_refl _, Nat.le_succ _⟩
  | some action =>
    cases action with
    | print items => simp [withEffect]
    | _ => exact ⟨Nat.le_refl _, Nat.le_succ _⟩

/-! ## Operands -/

theorem integer_of_none {statement operand : String}
    (h : (evaluate m.vars operand).integer? = none) :
    integer statement operand m =
      .error (.statement (.malformed statement (.notInteger operand (evaluate m.vars operand)))) m := by
  have hvalue : value operand m = .ok (evaluate m.vars operand) m := rfl
  rw [integer, bind_of_ok hvalue, h]
  rfl

theorem mapM_value (items : List String) (m : Machine) :
    items.mapM (fun item => do return (← value item).display : String → Step String) m =
      .ok (items.map fun item => (evaluate m.vars item).display) m := by
  induction items with
  | nil => rfl
  | cons item items ih =>
    rw [List.mapM_cons]
    exact (bind_of_ok rfl).trans (bind_of_ok ih)

/-! ## Actions -/

/-- A gate is called for, and a line printed. -/
theorem gate_eq {operation : Engine.Step Unit} (hmake : c.make = do operation; return none)
    (he : m.engine = some e) :
    (do quantum text operation; print (c.announce none); return .next : Step Flow) m =
      m.afterCall c e := by
  rw [afterCall, hmake]
  cases hop : operation e with
  | ok _ e' =>
    rw [bind_of_ok (quantum_of_ok he hop), bind_of_ok hop]
    rfl
  | error error e' =>
    rw [bind_of_error (quantum_of_error he hop), bind_of_error hop]

theorem perform_of_call {action : Action} (hcall : action.call? m.vars = some c)
    (he : m.engine = some e) : perform policy listing text action m = m.afterCall c e := by
  cases action with
  | prepare count =>
    obtain ⟨n, hn, rfl⟩ := Option.map_eq_some_iff.1 hcall
    rw [perform, bind_of_ok (integer_of_some hn)]
    exact gate_eq (c := .prepare n) rfl he
  | hadamard qubit =>
    obtain ⟨q, hq, rfl⟩ := Option.map_eq_some_iff.1 hcall
    rw [perform, bind_of_ok (integer_of_some hq)]
    exact gate_eq (c := .hadamard q) rfl he
  | flip qubit =>
    obtain ⟨q, hq, rfl⟩ := Option.map_eq_some_iff.1 hcall
    rw [perform, bind_of_ok (integer_of_some hq)]
    exact gate_eq (c := .flip q) rfl he
  | controlledNot control target =>
    obtain ⟨c, hc, hrest⟩ := Option.bind_eq_some_iff.1 hcall
    obtain ⟨t, ht, rfl⟩ := Option.map_eq_some_iff.1 hrest
    rw [perform, bind_of_ok (integer_of_some hc), bind_of_ok (integer_of_some ht)]
    exact gate_eq (c := .controlledNot c t) rfl he
  | measure qubit =>
    obtain ⟨q, hq, rfl⟩ := Option.map_eq_some_iff.1 hcall
    rw [perform, bind_of_ok (integer_of_some hq), afterCall]
    cases hop : Engine.measure q e with
    | ok bit e' =>
      have hmake : (Engine.Call.measure q).make e = .ok (some bit) e' := bind_of_ok hop
      rw [bind_of_ok (quantum_of_ok he hop), hmake]
      rfl
    | error error e' =>
      have hmake : (Engine.Call.measure q).make e = .error error e' := bind_of_error hop
      rw [bind_of_error (quantum_of_error he hop), hmake]
  | _ => cases hcall

/-- An operand that is no whole number ends the statement, whatever the engine. -/
theorem integer_bind_of_none {operand : String} {rest : Int → Step Flow}
    (h : (evaluate m.vars operand).integer? = none) :
    ∃ error, ∀ engine, (integer text operand >>= rest) { m with engine } =
      .error error { m with engine } :=
  ⟨.statement (.malformed text (.notInteger operand (evaluate m.vars operand))),
    fun engine => bind_of_error (integer_of_none (m := { m with engine }) h)⟩

/-- A quantum action that makes no call fails at an operand. -/
theorem perform_of_isQuantum_of_no_call (policy : TargetPolicy) (listing : Listing) (text : String)
    {action : Action} (hquantum : action.isQuantum = true) (hcall : action.call? m.vars = none) :
    ∃ error, ∀ engine, perform policy listing text action { m with engine } =
      .error error { m with engine } := by
  cases action with
  | prepare count => exact integer_bind_of_none (Option.map_eq_none_iff.1 hcall)
  | hadamard qubit => exact integer_bind_of_none (Option.map_eq_none_iff.1 hcall)
  | flip qubit => exact integer_bind_of_none (Option.map_eq_none_iff.1 hcall)
  | measure qubit => exact integer_bind_of_none (Option.map_eq_none_iff.1 hcall)
  | controlledNot control target =>
    cases hcontrol : (evaluate m.vars control).integer? with
    | none => exact integer_bind_of_none hcontrol
    | some c =>
      -- The control is fine, so it is the target that is no whole number.
      rw [Action.call?, hcontrol, Option.bind_some, Option.map_eq_none_iff] at hcall
      obtain ⟨error, herror⟩ := integer_bind_of_none hcall
      refine ⟨error, fun engine => ?_⟩
      rw [perform, bind_of_ok (integer_of_some (m := { m with engine }) hcontrol)]
      exact herror engine
  | _ => cases hquantum

theorem perform_of_no_call (policy : TargetPolicy) (listing : Listing) (text : String)
    {action : Action} (hcall : action.call? m.vars = none) :
    IgnoresEngine (perform policy listing text action) m m (m.withEffect action) := by
  cases action with
  | print items => exact .inr ⟨.next, fun engine _ => bind_of_ok (mapM_value items { m with engine })⟩
  | assign name expr => exact .inr ⟨.next, fun engine _ => rfl⟩
  | goto target =>
    cases htarget : (evaluate m.vars target).integer? with
    | none =>
      obtain ⟨error, herror⟩ := integer_bind_of_none htarget
      exact .inl ⟨error, fun engine _ => herror engine⟩
    | some n =>
      cases hjump : jump policy listing n with
      | error error =>
        refine .inl ⟨error, fun engine _ => ?_⟩
        rw [perform, bind_of_ok (integer_of_some (m := { m with engine }) htarget), hjump]
        rfl
      | ok flow =>
        refine .inr ⟨flow, fun engine _ => ?_⟩
        rw [perform, bind_of_ok (integer_of_some (m := { m with engine }) htarget), hjump]
        rfl
  | stop => exact .inr ⟨.halt, fun engine _ => rfl⟩
  | remark remark => exact .inr ⟨.next, fun engine _ => rfl⟩
  | _ =>
    obtain ⟨error, herror⟩ := perform_of_isQuantum_of_no_call policy listing text rfl hcall
    exact .inl ⟨error, fun engine _ => herror engine⟩

/-- What makes no call needs an engine only to be there. -/
theorem act_of_no_call (policy : TargetPolicy) (listing : Listing) (text : String)
    {action : Action} (hcall : action.call? m.vars = none) :
    IgnoresEngine (act policy listing text action) m m (m.withEffect action) := by
  cases hmissing : action.isQuantum && m.engine.isNone with
  | true =>
    refine .inl ⟨.engineMissing text, fun engine hengine => ?_⟩
    exact act_of_engineMissing (m := { m with engine }) (by rw [hengine, hmissing])
  | false =>
    have hact : ∀ engine, engine.isNone = m.engine.isNone →
        act policy listing text action { m with engine } =
          perform policy listing text action { m with engine } := fun engine hengine =>
      act_of_not_engineMissing (m := { m with engine }) (by rw [hengine, hmissing])
    rcases perform_of_no_call policy listing text hcall with ⟨error, herror⟩ | ⟨flow, hok⟩
    · exact .inl ⟨error, fun engine hengine => (hact engine hengine).trans (herror engine hengine)⟩
    · exact .inr ⟨flow, fun engine hengine => (hact engine hengine).trans (hok engine hengine)⟩

/-! ## Steps -/

theorem step_of_parse_ok {line : Line} {statement : Statement}
    (h : Statement.parse line.statement = .ok statement) (m : Machine) :
    step policy listing line m =
      execute policy listing line.statement statement { m with steps := m.steps + 1 } := by
  have hcount : (modify fun m => { m with steps := m.steps + 1 } : Step Unit) m =
      .ok () { m with steps := m.steps + 1 } := rfl
  rw [step, bind_of_ok hcount, h]

theorem step_of_parse_error {line : Line} {error : Statement.Error}
    (h : Statement.parse line.statement = .error error) (m : Machine) :
    step policy listing line m = .error (.statement error) { m with steps := m.steps + 1 } := by
  have hcount : (modify fun m => { m with steps := m.steps + 1 } : Step Unit) m =
      .ok () { m with steps := m.steps + 1 } := rfl
  rw [step, bind_of_ok hcount, h]
  rfl

/-- A line that carries out an action is executed by acting. -/
theorem step_of_action {line : Line} {action : Action} (h : line.action? m.vars = some action) :
    step policy listing line m =
      act policy listing line.statement action { m with steps := m.steps + 1 } := by
  rw [Line.action?] at h
  split at h
  · cases h
  · rename_i statement hparse
    rw [step_of_parse_ok hparse]
    cases statement with
    | simple action' =>
      obtain rfl := Option.some.inj h
      rfl
    | conditional condition action' =>
      obtain ⟨hholds, rfl⟩ : Condition.holds m.vars condition = true ∧ action' = action := by
        simpa [Statement.action?] using h
      exact execute_of_holds hholds

/-- **A step that makes a call** ends as the call does. -/
theorem step_of_call {line : Line} (hcall : line.call? m.vars = some c) (he : m.engine = some e) :
    step policy listing line m = afterCall { m with steps := m.steps + 1 } c e := by
  obtain ⟨action, haction, hcall⟩ := Option.bind_eq_some_iff.1 hcall
  rw [step_of_action haction, act_of_not_engineMissing (by rw [he]; simp)]
  exact perform_of_call hcall he

/-- A call needs an engine to be there. -/
theorem step_of_call_of_none {line : Line} (hcall : line.call? m.vars = some c)
    (he : m.engine = none) : step policy listing line m =
      .error (.engineMissing line.statement) { m with steps := m.steps + 1 } := by
  obtain ⟨action, haction, hcall⟩ := Option.bind_eq_some_iff.1 hcall
  rw [step_of_action haction]
  refine act_of_engineMissing ?_
  rw [Action.isQuantum_of_call? hcall, he]
  rfl

/-- **A step that makes no call** ends in the same way for all engines and leaves them alone. -/
theorem step_of_no_call (policy : TargetPolicy) (listing : Listing) {line : Line}
    (hcall : line.call? m.vars = none) :
    IgnoresEngine (step policy listing line) m { m with steps := m.steps + 1 } (m.stepped line) := by
  cases haction : line.action? m.vars with
  | some action =>
    have hstepped : m.stepped line = withEffect { m with steps := m.steps + 1 } action := by
      rw [stepped, haction]
      rfl
    rw [Line.call?, haction, Option.bind_some] at hcall
    have hstep : ∀ engine, step policy listing line { m with engine } =
        act policy listing line.statement action { m with engine, steps := m.steps + 1 } :=
      fun engine => step_of_action (m := { m with engine }) haction
    rw [hstepped]
    have hact := act_of_no_call (m := { m with steps := m.steps + 1 }) policy listing line.statement hcall
    rcases hact with ⟨error, herror⟩ | ⟨flow, hok⟩
    · exact .inl ⟨error, fun engine hengine => (hstep engine).trans (herror engine hengine)⟩
    · exact .inr ⟨flow, fun engine hengine => (hstep engine).trans (hok engine hengine)⟩
  | none =>
    have hstepped : m.stepped line = { m with steps := m.steps + 1 } := by
      rw [stepped, haction]
      rfl
    rw [hstepped]
    rw [Line.action?] at haction
    split at haction
    · rename_i error hparse
      exact .inl ⟨.statement error, fun engine _ => step_of_parse_error hparse { m with engine }⟩
    · rename_i statement hparse
      cases statement with
      | simple action => cases haction
      | conditional condition action =>
        have hfails : Condition.holds m.vars condition = false := by
          simpa [Statement.action?] using haction
        refine .inr ⟨.next, fun engine _ => ?_⟩
        rw [step_of_parse_ok hparse { m with engine }]
        exact execute_of_not_holds hfails

/-- **What a completed step leaves**, by the call that it makes or does not make. -/
theorem step_ok_cases {line : Line} {flow : Flow} {after : Machine}
    (h : step policy listing line m = .ok flow after) :
    (line.call? m.vars = none ∧ after = m.stepped line) ∨
    (∃ c e answer e', line.call? m.vars = some c ∧ m.engine = some e ∧ c.make e = .ok answer e' ∧
      flow = .next ∧ after = answered { m with steps := m.steps + 1 } c answer e') := by
  cases hcall : line.call? m.vars with
  | none =>
    left
    rcases step_of_no_call policy listing hcall with ⟨error, herror⟩ | ⟨flow', hok⟩
    · cases h.symm.trans (herror m.engine rfl)
    · cases h.symm.trans (hok m.engine rfl)
      exact ⟨rfl, by rw [← engine_stepped m line]⟩
  | some c =>
    right
    cases he : m.engine with
    | none =>
      rw [step_of_call_of_none hcall he] at h
      cases h
    | some e =>
      rw [step_of_call hcall he, afterCall] at h
      cases hmake : c.make e with
      | error error e' =>
        rw [hmake] at h
        cases h
      | ok answer e' =>
        rw [hmake] at h
        cases h
        exact ⟨c, e, answer, e', rfl, rfl, hmake, rfl, rfl⟩

/-- A quantum action that completes has made its call. -/
theorem exists_call_of_step_ok {line : Line} {flow : Flow} {after : Machine} {action : Action}
    (h : step policy listing line m = .ok flow after) (haction : line.action? m.vars = some action)
    (hquantum : action.isQuantum = true) : ∃ c, action.call? m.vars = some c := by
  rw [step_of_action haction] at h
  cases hcall : action.call? m.vars with
  | some c => exact ⟨c, rfl⟩
  | none =>
    have hact : ∃ error m', act policy listing line.statement action { m with steps := m.steps + 1 } =
        .error error m' := by
      cases hmissing : action.isQuantum && m.engine.isNone with
      | true => exact ⟨_, _, act_of_engineMissing (m := { m with steps := m.steps + 1 }) hmissing⟩
      | false =>
        rw [act_of_not_engineMissing (m := { m with steps := m.steps + 1 }) hmissing]
        obtain ⟨error, herror⟩ := perform_of_isQuantum_of_no_call
          (m := { m with steps := m.steps + 1 }) policy listing line.statement hquantum hcall
        exact ⟨error, _, herror m.engine⟩
    obtain ⟨error, m', herror⟩ := hact
    cases h.symm.trans herror

/-! ## Going on -/

/-- Going on moves to another line and does nothing else. -/
theorem exists_counter_of_follow? {flow : Flow} {next : Machine} (h : m.follow? flow = some next) :
    ∃ index, next = { m with counter := index } := by
  cases flow with
  | next => exact ⟨m.counter + 1, (Option.some.inj h).symm⟩
  | jump index => exact ⟨index, (Option.some.inj h).symm⟩
  | halt => cases h

/-- Where to go on does not depend on the engine. -/
theorem follow?_engine (m : Machine) (engine : Option Engine) (flow : Flow) :
    follow? { m with engine } flow = (m.follow? flow).map fun next => { next with engine } := by
  cases flow <;> rfl

end Machine

end QubitBasic
