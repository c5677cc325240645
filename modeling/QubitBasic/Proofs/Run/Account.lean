/-
  The report of a run accounts for the statements that it executed.

  A run that succeeds has executed each of its statements to the end (`Completes`), and of these the
  quantum statements have made one call each.  An engine that was fresh before the calls `Recounts`
  them: without a register none of them was a `prepare`, and with one the last `prepare` is what gave
  the register its size, and the entries of the log are the calls since then, one by one.  Each call
  prints a line, and each line is printed by a statement, so that

      entries of the log < calls ≤ lines ≤ statements ≤ limit

  where the first holds of an engine with a register.  One call keeps the account of the engine
  (`Engine.Recounts.make`), hence one statement that of the machine (`Machine.Recounts.step`), hence so
  does the whole run (`Completes.recounts`).
-/
import QubitBasic.Proofs.Engine.WellFormed
import QubitBasic.Proofs.Run.Calls
import QubitBasic.Proofs.Run.Tightening

namespace QubitBasic

namespace Engine

/-! ## Engines and their calls -/

/-- The entry in the log is that of the call: of its kind and with its qubits. -/
def Call.RecordedAs (c : Call) (op : Operation) : Prop :=
  c.operation? = some op ∧ op.qubits.map Int.ofNat = c.named

/-- Register and log of an engine are the work of `calls`, the calls that it has answered. -/
structure Recounts (calls : List Call) (e : Engine) : Prop where
  wellFormed : e.WellFormed
  /-- Without a register none has been prepared. -/
  unprepared : e.register = none → ∀ count, Call.prepare count ∉ calls
  /-- The register is the one that was prepared last, and the log holds the calls since then. -/
  prepared : ∀ r, e.register = some r → ∃ earlier later,
    calls = earlier ++ .prepare r.qubits :: later ∧ (∀ count, Call.prepare count ∉ later) ∧
      List.Forall₂ Call.RecordedAs later e.operations.toList

variable {calls : List Call} {c : Call} {e e' : Engine}

theorem Call.ne_prepare_of_operation? {op : Operation} (h : c.operation? = some op) (count : Int) :
    Call.prepare count ≠ c := by
  rintro rfl
  cases h

/-- In a register a qubit has the number by which it is called for. -/
theorem Call.recordedAs_of_inRange {op : Operation} (hop : c.operation? = some op)
    (hrange : ∀ q ∈ c.named, e.InRange q) : c.RecordedAs op := by
  refine ⟨hop, ?_⟩
  rw [Call.qubits_eq_map_named hop, List.map_map]
  calc c.named.map (Int.ofNat ∘ Int.toNat)
      = c.named.map id := List.map_congr_left fun q hq => Int.toNat_of_nonneg (hrange q hq).1
    _ = c.named := List.map_id _

/-- **One call.**  What an engine has answered is accounted for afterwards. -/
theorem Recounts.make {answer : Option Bool} (h : e.Recounts calls)
    (hmake : c.make e = .ok answer e') : e'.Recounts (calls ++ [c]) := by
  have hwell : e'.WellFormed := by
    have hextend := WellFormed.extend (h := { engine := e }) h.wellFormed c
    rwa [History.engine_extend_ok hmake] at hextend
  rcases c.make_cases e with ⟨error, herror⟩ | ⟨count, rfl, hone, -, hok⟩ |
    ⟨op, r, hop, hr, hrange, hok⟩
  · cases herror.symm.trans hmake
  · cases hok.symm.trans hmake
    refine ⟨hwell, fun hnone => (by cases hnone), ?_⟩
    rintro _ ⟨⟩
    have hcount : ((Register.zeros count.toNat : Register Float).qubits : Int) = count := by
      show (count.toNat : Int) = count
      omega
    -- A new register starts a new account: nothing has come after its call yet.
    exact ⟨calls, [], by rw [hcount], by simp, .nil⟩
  · cases hok.symm.trans hmake
    obtain ⟨earlier, later, rfl, hnone, hlog⟩ := h.prepared r hr
    refine ⟨hwell, fun hnone => (by cases hnone), ?_⟩
    rintro _ ⟨⟩
    -- The register stays the one it was, and the call joins those that the log holds.
    refine ⟨earlier, later ++ [c], ?_, ?_, ?_⟩
    · rw [Operation.act_qubits, List.append_assoc, List.cons_append]
    · intro count hmem
      rcases List.mem_append.1 hmem with hlater | hlast
      · exact hnone count hlater
      · exact Call.ne_prepare_of_operation? hop count (List.mem_singleton.1 hlast)
    · show List.Forall₂ _ _ (e.operations.push op).toList
      rw [Array.toList_push]
      exact List.rel_append hlog (.cons (Call.recordedAs_of_inRange hop hrange) .nil)

end Engine

/-! ## Machines and the calls of their statements -/

/-- A call for a register is made by the action that prepares one. -/
theorem Action.call?_eq_prepare {vars : Variables} {action : Action} {n : Int}
    (h : action.call? vars = some (.prepare n)) :
    ∃ count, action = .prepare count ∧ (evaluate vars count).integer? = some n := by
  cases action with
  | prepare count =>
    obtain ⟨n', hn', heq⟩ := Option.map_eq_some_iff.1 h
    cases heq
    exact ⟨count, rfl, hn'⟩
  | controlledNot control target =>
    obtain ⟨c, -, hrest⟩ := Option.bind_eq_some_iff.1 h
    obtain ⟨t, -, heq⟩ := Option.map_eq_some_iff.1 hrest
    cases heq
  | hadamard qubit | flip qubit | measure qubit =>
    obtain ⟨q, -, heq⟩ := Option.map_eq_some_iff.1 h
    cases heq
  | _ => cases h

namespace Machine

/-- The action that a machine is about to carry out, as a whole statement or behind `THEN`. -/
def action? (listing : Listing) (m : Machine) : Option Action :=
  (listing.line? m.counter).bind (Line.action? m.vars)

/-- The call that a machine is about to make. -/
def call? (listing : Listing) (m : Machine) : Option Engine.Call :=
  (m.action? listing).bind (Action.call? m.vars)

theorem call?_of_line? {listing : Listing} {m : Machine} {line : Line}
    (hline : listing.line? m.counter = some line) : m.call? listing = line.call? m.vars := by
  rw [call?, action?, hline]
  rfl

/-- The engine of a machine accounts for `calls`, each call has printed a line, and each line was
    printed by a statement. -/
structure Recounts (calls : List Engine.Call) (m : Machine) : Prop where
  engine : ∀ e, m.engine = some e → e.Recounts calls
  no_engine : m.engine = none → calls = []
  calls_le : calls.length ≤ m.output.size
  output_le : m.output.size ≤ m.steps

variable {policy : TargetPolicy} {listing : Listing} {m : Machine} {calls : List Engine.Call}

theorem recounts_initial (config : Config) (samples : Samples) :
    Recounts [] { engine := config.engine samples } := by
  refine ⟨fun e he => ?_, fun _ => rfl, Nat.le_refl 0, Nat.le_refl 0⟩
  rw [Config.engine] at he
  split at he
  · obtain rfl := Option.some.inj he
    refine ⟨Engine.wellFormed_fresh samples (some config.maxQubits.toNat), ?_, ?_⟩
    · exact fun _ _ => List.not_mem_nil
    · rintro r ⟨⟩
  · cases he

/-- **One statement.**  If it completes, its call is accounted for. -/
theorem Recounts.step (h : m.Recounts calls) {line : Line} {flow : Flow} {after : Machine}
    (hstep : step policy listing line m = .ok flow after) :
    after.Recounts (calls ++ (line.call? m.vars).toList) := by
  rcases step_ok_cases hstep with ⟨hcall, rfl⟩ | ⟨c, e, answer, e', hcall, he, hmake, -, rfl⟩
  · rw [hcall, Option.toList_none, List.append_nil]
    obtain ⟨hgrows, hle⟩ := size_output_stepped m line
    refine ⟨?_, ?_, Nat.le_trans h.calls_le hgrows, ?_⟩
    · rw [engine_stepped]
      exact h.engine
    · rw [engine_stepped]
      exact h.no_engine
    · rw [steps_stepped]
      exact Nat.le_trans hle (Nat.succ_le_succ h.output_le)
  · rw [hcall, Option.toList_some]
    have hsize : (m.output.push (c.announce answer)).size = m.output.size + 1 := Array.size_push _
    refine ⟨?_, fun hnone => (by cases hnone), ?_, ?_⟩
    · rintro _ ⟨⟩
      exact (h.engine e he).make hmake
    · show (calls ++ [c]).length ≤ (m.output.push (c.announce answer)).size
      rw [List.length_append, hsize]
      exact Nat.succ_le_succ h.calls_le
    · show (m.output.push (c.announce answer)).size ≤ m.steps + 1
      rw [hsize]
      exact Nat.succ_le_succ h.output_le

theorem Recounts.follow? (h : m.Recounts calls) {flow : Flow} {next : Machine}
    (hfollow : m.follow? flow = some next) : next.Recounts calls := by
  obtain ⟨index, rfl⟩ := exists_counter_of_follow? hfollow
  exact ⟨h.engine, h.no_engine, h.calls_le, h.output_le⟩

end Machine

namespace Run

variable {policy : TargetPolicy} {listing : Listing}

/-! ## Runs that end by themselves -/

/-- The run from `m` executes its statements on the listed machines, all of them to the end, and leaves
    the last machine. -/
inductive Completes (policy : TargetPolicy) (listing : Listing) :
    Machine → List Machine → Machine → Prop
  /-- There is no current line. -/
  | offEnd {m} : listing.line? m.counter = none → Completes policy listing m [] m
  /-- The current statement stops the run. -/
  | halt {m last line flow} : listing.line? m.counter = some line →
      Machine.step policy listing line m = .ok flow last → last.follow? flow = none →
      Completes policy listing m [m] last
  | onward {m next last statements} : Continues policy listing m next →
      Completes policy listing next statements last →
      Completes policy listing m (m :: statements) last

/-- An outcome is that of a run which has executed every statement to the end. -/
theorem completes_of_untimed (config : Config) {fuel : Nat} {m : Machine} {outcome : Outcome}
    (h : untimed config listing fuel m = .ok outcome) :
    ∃ last, outcome = .ofMachine last ∧
      Completes config.missingTarget listing m (executed config.missingTarget listing fuel m) last := by
  induction fuel generalizing m with
  | zero =>
    cases hline : listing.line? m.counter with
    | none =>
      rw [untimed_offEnd config hline] at h
      exact ⟨m, (Except.ok.inj h).symm, .offEnd hline⟩
    | some line =>
      rw [untimed_zero config hline] at h
      cases h
  | succ fuel ih =>
    cases hline : listing.line? m.counter with
    | none =>
      rw [untimed_offEnd config hline] at h
      rw [executed_offEnd hline]
      exact ⟨m, (Except.ok.inj h).symm, .offEnd hline⟩
    | some line =>
      cases hstep : Machine.step config.missingTarget listing line m with
      | error error m' =>
        rw [untimed_failure config hline hstep] at h
        cases h
      | ok flow after =>
        cases hfollow : after.follow? flow with
        | none =>
          rw [untimed_halt config hline hstep hfollow] at h
          rw [executed_halt hline hstep hfollow]
          exact ⟨after, (Except.ok.inj h).symm, .halt hline hstep hfollow⟩
        | some next =>
          have hnext : Continues config.missingTarget listing m next :=
            ⟨line, flow, after, hline, hstep, hfollow⟩
          rw [untimed_onward config hnext] at h
          rw [executed_onward hnext]
          obtain ⟨last, hlast, hcompletes⟩ := ih h
          exact ⟨last, hlast, .onward hnext hcompletes⟩

theorem length_executed_le (policy : TargetPolicy) (listing : Listing) (fuel : Nat) (m : Machine) :
    (executed policy listing fuel m).length ≤ fuel := by
  induction fuel generalizing m with
  | zero => exact Nat.le_refl 0
  | succ fuel ih =>
    rw [executed]
    split
    · exact Nat.zero_le _
    · split
      · exact Nat.le_add_left 1 fuel
      · split
        · exact Nat.le_add_left 1 fuel
        · exact Nat.succ_le_succ (ih _)

namespace Completes

variable {m last : Machine} {statements : List Machine}

/-- Each statement counts as a step. -/
theorem steps_eq (h : Completes policy listing m statements last) :
    last.steps = m.steps + statements.length := by
  induction h with
  | offEnd _ => rfl
  | @halt m last line flow _ hstep _ =>
    have hkeeps := (Machine.keeps_step policy listing line m).1
    rwa [finalState_of_ok hstep] at hkeeps
  | onward hnext _ ih =>
    rw [ih, hnext.steps_eq, List.length_cons]
    omega

theorem recounts {calls : List Engine.Call} (h : Completes policy listing m statements last)
    (hm : m.Recounts calls) :
    last.Recounts (calls ++ statements.filterMap (Machine.call? listing)) := by
  induction h generalizing calls with
  | offEnd _ => rwa [List.filterMap_nil, List.append_nil]
  | halt hline hstep _ =>
    have hlast := hm.step hstep
    rwa [← Machine.call?_of_line? hline] at hlast
  | @onward m next last statements hnext _ ih =>
    obtain ⟨line, flow, after, hline, hstep, hfollow⟩ := hnext
    have hlast := ih ((hm.step hstep).follow? hfollow)
    rw [← Machine.call?_of_line? hline, List.append_assoc] at hlast
    rw [List.filterMap_cons]
    cases hcall : m.call? listing <;> rwa [hcall] at hlast

/-- Every statement that is executed has completed. -/
theorem exists_step (h : Completes policy listing m statements last) :
    ∀ m' ∈ statements, ∃ line flow after, listing.line? m'.counter = some line ∧
      Machine.step policy listing line m' = .ok flow after := by
  induction h with
  | offEnd _ => exact fun m' hm' => absurd hm' List.not_mem_nil
  | halt hline hstep _ =>
    intro m' hm'
    obtain rfl := List.mem_singleton.1 hm'
    exact ⟨_, _, _, hline, hstep⟩
  | onward hnext _ ih =>
    intro m' hm'
    rcases List.mem_cons.1 hm' with rfl | hm'
    · obtain ⟨line, flow, after, hline, hstep, -⟩ := hnext
      exact ⟨line, flow, after, hline, hstep⟩
    · exact ih m' hm'

/-- Every quantum statement that is executed has made its call. -/
theorem exists_call (h : Completes policy listing m statements last) {m' : Machine}
    (hm' : m' ∈ statements) {action : Action} (haction : m'.action? listing = some action)
    (hquantum : action.isQuantum = true) : ∃ c, m'.call? listing = some c := by
  obtain ⟨line, flow, after, hline, hstep⟩ := h.exists_step m' hm'
  have hline_action : line.action? m'.vars = some action := by
    rwa [Machine.action?, hline] at haction
  rw [Machine.call?, haction, Option.bind_some]
  exact Machine.exists_call_of_step_ok hstep hline_action hquantum

/-- Among the calls there is one for a register exactly if a statement that prepares one was executed,
    also when only some of the statements are looked at. -/
theorem prepare_mem_iff (h : Completes policy listing m statements last) {part : List Machine}
    (hsub : part ⊆ statements) :
    (∃ n, Engine.Call.prepare n ∈ part.filterMap (Machine.call? listing)) ↔
      ∃ m' ∈ part, ∃ count, m'.action? listing = some (.prepare count) := by
  constructor
  · rintro ⟨n, hn⟩
    obtain ⟨m', hm', hcall⟩ := List.mem_filterMap.1 hn
    obtain ⟨action, haction, hcall⟩ := Option.bind_eq_some_iff.1 hcall
    obtain ⟨count, rfl, -⟩ := Action.call?_eq_prepare hcall
    exact ⟨m', hm', count, haction⟩
  · rintro ⟨m', hm', count, haction⟩
    obtain ⟨c, hcall⟩ := h.exists_call (hsub hm') haction rfl
    have hprepare := hcall
    rw [Machine.call?, haction, Option.bind_some] at hprepare
    obtain ⟨n, -, rfl⟩ := Option.map_eq_some_iff.1 hprepare
    exact ⟨n, List.mem_filterMap.2 ⟨m', hm', hcall⟩⟩

/-- A register was prepared by one of the statements, and those after it are in the log. -/
theorem exists_prepare (h : Completes policy listing m statements last)
    (hlast : last.Recounts (statements.filterMap (Machine.call? listing))) {e : Engine}
    {r : Register Float} (he : last.engine = some e) (hr : e.register = some r) :
    ∃ earlier m' later count, statements = earlier ++ m' :: later ∧
      m'.action? listing = some (.prepare count) ∧
      (evaluate m'.vars count).integer? = some (r.qubits : Int) ∧
      (∀ m'' ∈ later, ∀ count, m''.action? listing ≠ some (.prepare count)) ∧
      List.Forall₂ Engine.Call.RecordedAs (later.filterMap (Machine.call? listing))
        e.operations.toList ∧
      e.operations.size + 1 ≤ last.output.size := by
  obtain ⟨earlierCalls, laterCalls, hcalls, hnone, hlog⟩ := (hlast.engine e he).prepared r hr
  have hle := hlast.calls_le
  have hsize : laterCalls.length = e.operations.size := hlog.length_eq
  rw [hcalls, List.length_append, List.length_cons, hsize] at hle
  -- The calls are split at the last `prepare`, hence so are the statements that made them.
  obtain ⟨earlier, rest, rfl, -, hrest⟩ := List.filterMap_eq_append_iff.1 hcalls
  obtain ⟨skipped, m', later, rfl, -, hcall, rfl⟩ := List.filterMap_eq_cons_iff.1 hrest
  obtain ⟨action, haction, hcall⟩ := Option.bind_eq_some_iff.1 hcall
  obtain ⟨count, rfl, hcount⟩ := Action.call?_eq_prepare hcall
  refine ⟨earlier ++ skipped, m', later, count, ?_, haction, hcount, ?_, hlog, by omega⟩
  · rw [List.append_assoc]
  · intro m'' hm'' count' haction'
    have hsub : later ⊆ earlier ++ (skipped ++ m' :: later) := by
      intro x hx
      simp [hx]
    obtain ⟨n, hn⟩ := (h.prepare_mem_iff hsub).2 ⟨m'', hm'', count', haction'⟩
    exact hnone n hn

end Completes

/-! ## The report -/

/-- Either no register was called for and nothing of the engine is reported, or both its parts are. -/
theorem reported_cases {m : Machine} {calls : List Engine.Call} (h : m.Recounts calls) :
    (Outcome.ofMachine m = ⟨m.output, none, none, m.steps⟩ ∧
      ¬ ∃ n, Engine.Call.prepare n ∈ calls) ∨
    (∃ e r, m.engine = some e ∧ e.register = some r ∧
      Outcome.ofMachine m = ⟨m.output, some e.probabilities, some e.circuit, m.steps⟩ ∧
      ∃ n, Engine.Call.prepare n ∈ calls) := by
  cases he : m.engine with
  | none =>
    rw [h.no_engine he]
    refine .inl ⟨ofMachine_of_no_register fun e he' => ?_, by simp⟩
    cases he.symm.trans he'
  | some e =>
    have hengine := h.engine e he
    cases hr : e.register with
    | none =>
      refine .inl ⟨ofMachine_of_no_register fun e' he' => ?_, fun ⟨n, hn⟩ => ?_⟩
      · cases he.symm.trans he'
        exact hr
      · exact hengine.unprepared hr n hn
    | some r =>
      obtain ⟨earlier, later, hcalls, -⟩ := hengine.prepared r hr
      exact .inr ⟨e, r, rfl, hr, ofMachine_of_register he hr, r.qubits, by simp [hcalls]⟩

/-- **The report accounts for the statements executed.**  Let a run with the engine of its
    configuration succeed, with whatever clock, and take the statements that it has executed.
    (a) Probabilities and circuit are reported together, namely exactly if one of the statements, as a
    whole or behind `THEN`, has prepared a register.
    (b) Then the circuit has as many qubits as the operand of the last such statement came to, there is
    a probability for each basis state, and the entries of the circuit are the calls of the quantum
    statements after it, in order and with their operands as evaluated; and there is at least one more
    line of output than there are entries.
    (c) No quantum statement is executed without making its call.
    (d) There are at most as many lines as steps, and the steps are the statements, within the limit. -/
theorem report_accounts_for_statements {σ : Type} {elapsed : StateM σ Nat} {clock : σ}
    {config : Config} {samples : Samples} {source : String} {outcome : Outcome}
    (hrun : ((runTimed elapsed config (config.engine samples) source).run clock).1 = .ok outcome) :
    ∃ listing, Listing.parse config.duplicates source = .ok listing ∧
      let statements := executed config.missingTarget listing config.maxSteps.toNat
        { engine := config.engine samples }
      ((outcome.probabilities.isSome ↔ outcome.circuit.isSome) ∧
        (outcome.circuit.isSome ↔
          ∃ m ∈ statements, ∃ count, m.action? listing = some (.prepare count))) ∧
      (∀ circuit, outcome.circuit = some circuit →
        (∃ earlier m later count, statements = earlier ++ m :: later ∧
          m.action? listing = some (.prepare count) ∧
          (evaluate m.vars count).integer? = some (circuit.qubits : Int) ∧
          (∀ m' ∈ later, ∀ count, m'.action? listing ≠ some (.prepare count)) ∧
          List.Forall₂ Engine.Call.RecordedAs (later.filterMap (Machine.call? listing))
            circuit.operations.toList) ∧
        (∃ probabilities, outcome.probabilities = some probabilities ∧
          probabilities.size = 2 ^ circuit.qubits) ∧
        circuit.operations.size + 1 ≤ outcome.output.size) ∧
      (∀ m ∈ statements, ∀ action, m.action? listing = some action → action.isQuantum = true →
        ∃ c, m.call? listing = some c) ∧
      outcome.output.size ≤ outcome.steps ∧ outcome.steps = statements.length ∧
        outcome.steps ≤ config.maxSteps.toNat := by
  obtain ⟨listing, hparse, hok⟩ := exists_listing_of_runTimed_ok config hrun
  refine ⟨listing, hparse, ?_⟩
  intro statements
  obtain ⟨last, rfl, hcompletes⟩ := completes_of_untimed config hok
  have hlast : last.Recounts (statements.filterMap (Machine.call? listing)) :=
    hcompletes.recounts (Machine.recounts_initial config samples)
  have hsteps : last.steps = statements.length := hcompletes.steps_eq.trans (Nat.zero_add _)
  have hlimit : last.steps ≤ config.maxSteps.toNat := by
    rw [hsteps]
    exact length_executed_le _ _ _ _
  refine ⟨?_, ?_, fun m hm action => hcompletes.exists_call hm, hlast.output_le, hsteps, hlimit⟩
  · rw [← hcompletes.prepare_mem_iff (List.Subset.refl statements)]
    rcases reported_cases hlast with ⟨hreport, hnone⟩ | ⟨e, r, -, -, hreport, n, hn⟩
    · rw [hreport]
      exact ⟨Iff.rfl, iff_of_false Bool.false_ne_true hnone⟩
    · rw [hreport]
      exact ⟨Iff.rfl, iff_of_true rfl ⟨n, hn⟩⟩
  · intro circuit hcircuit
    rcases reported_cases hlast with ⟨hreport, -⟩ | ⟨e, r, he, hr, hreport, -⟩
    · rw [hreport] at hcircuit
      cases hcircuit
    · rw [hreport] at hcircuit
      obtain rfl := Option.some.inj hcircuit
      have hqubits : e.circuit.qubits = r.qubits := by
        rw [Engine.circuit, Engine.qubits, hr]
        rfl
      have hfull : e.probabilities.size = 2 ^ r.qubits := by
        rw [Engine.probabilities, hr]
        exact Array.size_map.trans ((hlast.engine e he).wellFormed.full r hr)
      obtain ⟨earlier, m, later, count, hsplit, haction, hcount, hnone, hlog, hlines⟩ :=
        hcompletes.exists_prepare hlast he hr
      rw [hqubits]
      refine ⟨⟨earlier, m, later, count, hsplit, haction, hcount, hnone, hlog⟩, ?_, hlines⟩
      exact ⟨e.probabilities, by rw [hreport], hfull⟩

/-- A register that is replaced behind `THEN` while the clock goes on: the report shows the second
    register, and the gate on the first one only as a line of output. -/
theorem report_accounts_for_statements_replaced_register :
    let source := "10 QINIT 2\n20 HADAMARD 0\n30 IF 1 = 1 THEN QINIT 1 + 2\n40 LET A = 1\n" ++
      "50 QNOT A\n60 CNOT A, A + 1\n70 MEASURE 2\n80 PRINT QRESULT\n90 END\n95 QINIT 1"
    let config : Config := { timeBudget := some 1, maxSteps := 9 }
    let samples : Samples := fun _ => 0
    let outcome : Outcome :=
      { output := #["Initialized 2 qubit(s)", "Applied Hadamard to qubit 0", "Initialized 3 qubit(s)",
          "Applied X gate to qubit 1", "Applied CNOT: control=1, target=2", "Measured qubit 2: 1", "1"]
        probabilities := some #[0, 0, 0, 0, 0, 0, 1, 0]
        circuit := some ⟨3, #[.flip 1, .controlledNot 1 2, .measure 2]⟩
        steps := 9 }
    (StateT.run (runTimed (μ := StateM Nat) (fun reading => (reading, reading + 1)) config
      (config.engine samples) source) 0).1 = .ok outcome ∧
    ∃ listing, Listing.parse .keep source = .ok listing ∧
      ∃ earlier m later count,
        executed .fallThrough listing 9 { engine := config.engine samples } = earlier ++ m :: later ∧
        m.action? listing = some (.prepare count) ∧
        (evaluate m.vars count).integer? = some 3 ∧
        List.Forall₂ Engine.Call.RecordedAs (later.filterMap (Machine.call? listing))
          [.flip 1, .controlledNot 1 2, .measure 2] := by
  intro source config samples outcome
  have hrun : (StateT.run (runTimed (μ := StateM Nat) (fun reading => (reading, reading + 1)) config
      (config.engine samples) source) 0).1 = .ok outcome := by decide +kernel
  obtain ⟨listing, hparse, -, hcircuit, -⟩ := report_accounts_for_statements hrun
  obtain ⟨⟨earlier, m, later, count, hsplit, haction, hcount, -, hlog⟩, -⟩ := hcircuit _ rfl
  exact ⟨hrun, listing, hparse, earlier, m, later, count, hsplit, haction, hcount, hlog⟩

end Run

end QubitBasic
