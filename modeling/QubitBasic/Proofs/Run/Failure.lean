/-
  What a failure leaves.

  A statement that fails leaves the machine as it was, so the output of a run that fails in execution
  is what the statements before the failing one have printed, no more and no less.  To say which lines
  those are, `Prints m blocks m'` follows the statements that lead from `m` to `m'` without ending the
  run and collects the lines that each of them adds.

  Which statement is the failing one is told by the number of those completed: the steps are spent, or
  the clock has gone past the time budget when it is read for that statement, or there are steps and
  time left and the statement itself fails (`FailsAt`).  The clock is any source of readings (`StateM`),
  read once for each statement, so its reading for a statement depends on the number of the statement
  alone (`reading`).
-/
import QubitBasic.Proofs.Machine.Atomic
import QubitBasic.Proofs.Run.Budget

namespace QubitBasic.Run

variable {policy : TargetPolicy} {listing : Listing}

/-! ## Completed statements -/

/-- As many statements as there are blocks lead from one machine to the other, none of which ends the
    run, and each adds the lines of its block to the output. -/
inductive Prints (policy : TargetPolicy) (listing : Listing) :
    Machine → List (List String) → Machine → Prop
  | refl {m} : Prints policy listing m [] m
  | onward {m m' m'' lines blocks} : Continues policy listing m m' →
      m'.output.toList = m.output.toList ++ lines → Prints policy listing m' blocks m'' →
      Prints policy listing m (lines :: blocks) m''

theorem Prints.output_eq {m m' : Machine} {blocks : List (List String)}
    (h : Prints policy listing m blocks m') :
    m'.output.toList = m.output.toList ++ blocks.flatten := by
  induction h with
  | refl => simp
  | onward _ hlines _ ih => rw [ih, hlines, List.flatten_cons, List.append_assoc]

/-- One more statement is completed. -/
theorem Prints.concat {m m' m'' : Machine} {blocks : List (List String)} {lines : List String}
    (h : Prints policy listing m blocks m') (hnext : Continues policy listing m' m'')
    (hlines : m''.output.toList = m'.output.toList ++ lines) :
    Prints policy listing m (blocks ++ [lines]) m'' := by
  induction h with
  | refl => exact .onward hnext hlines .refl
  | onward hfirst hfirstLines _ ih => exact .onward hfirst hfirstLines (ih hnext hlines)

/-- Decoding and executing a line that fails changes nothing but the count of steps. -/
theorem eq_of_step_error {line : Line} {m m' : Machine} {error : RunError}
    (h : Machine.step policy listing line m = .error error m') :
    m' = { m with steps := m.steps + 1 } := by
  have hcount : (modify fun m => { m with steps := m.steps + 1 } : Machine.Step Unit) m =
      .ok () { m with steps := m.steps + 1 } := rfl
  rw [Machine.step, bind_of_ok hcount] at h
  cases hparse : Statement.parse line.statement with
  | error parseError =>
    rw [hparse] at h
    cases h
    rfl
  | ok statement =>
    rw [hparse] at h
    exact Machine.atomic_execute policy listing line.statement statement h

/-! ## The failing statement -/

section

variable {σ : Type}

/-- The state of a clock that is at `clock` after it has been read `k` times. -/
def clockAfter {α : Type} (read : StateM σ α) (clock : σ) (k : Nat) : σ :=
  (fun clock => (read.run clock).2)^[k] clock

/-- What a clock that is at `clock` shows when it is read after `k` earlier readings. -/
def reading {α : Type} (read : StateM σ α) (clock : σ) (k : Nat) : α :=
  (read.run (clockAfter read clock k)).1

variable (elapsed : StateM σ Nat) (config : Config) (listing : Listing) (clock : σ)

/-- There is a time budget, and after `k` earlier readings the clock shows more than it. -/
def TimeOver (k : Nat) : Prop :=
  ∃ budget, config.timeBudget = some budget ∧ budget.toNat * 1000000 < reading elapsed clock k

/-- Why a run fails at the current statement of the machine `m` after `k` completed statements. -/
inductive FailsAt (k : Nat) (m : Machine) : RunError → Prop
  /-- The completed statements are all that the configuration allows. -/
  | stepLimit {line : Line} : listing.line? m.counter = some line → k = config.maxSteps.toNat →
      FailsAt k m (.stepLimit config.maxSteps.toNat)
  /-- One more is allowed, but the time is over. -/
  | timeLimit {line : Line} {budget : UInt64} : listing.line? m.counter = some line →
      k < config.maxSteps.toNat → config.timeBudget = some budget → TimeOver elapsed config clock k →
      FailsAt k m (.timeLimit budget.toNat)
  /-- One more is allowed and there is time, and executing it fails. -/
  | statement {line : Line} {error : RunError} {m' : Machine} :
      listing.line? m.counter = some line → k < config.maxSteps.toNat →
      ¬ TimeOver elapsed config clock k →
      Machine.step config.missingTarget listing line m = .error error m' → FailsAt k m error

/-- The readings that a run takes are those of the clock, if there is a time budget. -/
theorem reading_expired_iff (k : Nat) :
    reading (expired elapsed config) clock k = true ↔ TimeOver elapsed config clock k := by
  cases hbudget : config.timeBudget with
  | none =>
    have hnever : expired elapsed config = pure false := by rw [expired, hbudget]
    rw [hnever, TimeOver, hbudget]
    constructor
    · exact Bool.false_ne_true.elim
    · rintro ⟨budget, hsome, -⟩
      cases hsome
  | some budget =>
    have hread : ∀ clock, (expired elapsed config).run clock =
        (decide (budget.toNat * 1000000 < (elapsed.run clock).1), (elapsed.run clock).2) := by
      intro clock
      rw [expired, hbudget]
      rfl
    have hafter : clockAfter (expired elapsed config) clock k = clockAfter elapsed clock k := by
      simp only [clockAfter, hread]
    rw [reading, hafter, hread, decide_eq_true_iff, TimeOver, hbudget]
    constructor
    · intro hlate
      exact ⟨budget, rfl, hlate⟩
    · rintro ⟨budget', hsome, hlate⟩
      cases hsome
      exact hlate

end

/-! ## Runs with a clock -/

section

variable {σ : Type} (expired : StateM σ Bool) (config : Config)

/-- The result of a run with at most `fuel` further statements and the clock in the given state. -/
def timed (listing : Listing) (fuel : Nat) (m : Machine) (clock : σ) : Except Failure Outcome :=
  ((advance expired config listing fuel m).run clock).1

theorem timed_offEnd {m : Machine} (hline : listing.line? m.counter = none) (fuel : Nat) (clock : σ) :
    timed expired config listing fuel m clock = .ok (.ofMachine m) := by
  rw [timed, advance, hline]
  rfl

theorem timed_zero {m : Machine} {line : Line} (hline : listing.line? m.counter = some line)
    (clock : σ) : timed expired config listing 0 m clock =
      .error ⟨.stepLimit config.maxSteps.toNat, m.output⟩ := by
  rw [timed, advance, hline]
  rfl

/-- A statement is executed unless the clock forbids it, and the run goes on with the clock as it is
    then. -/
theorem timed_succ {m : Machine} {line : Line} (hline : listing.line? m.counter = some line)
    (fuel : Nat) (clock : σ) :
    timed expired config listing (fuel + 1) m clock =
      if (expired.run clock).1 then
        .error ⟨.timeLimit (config.timeBudget.elim 0 UInt64.toNat), m.output⟩
      else
        match Machine.step config.missingTarget listing line m with
        | .error error m => .error ⟨error, m.output⟩
        | .ok flow m =>
          match m.follow? flow with
          | none => .ok (.ofMachine m)
          | some m => timed expired config listing fuel m (expired.run clock).2 := by
  have hfirst : timed expired config listing (fuel + 1) m clock =
      ((if (expired.run clock).1 then
          return .error ⟨.timeLimit (config.timeBudget.elim 0 UInt64.toNat), m.output⟩
        else
          match Machine.step config.missingTarget listing line m with
          | .error error m => return .error ⟨error, m.output⟩
          | .ok flow m =>
            match m.follow? flow with
            | none => return .ok (.ofMachine m)
            | some m => advance expired config listing fuel m : StateM σ _).run
        (expired.run clock).2).1 := by
    rw [timed, advance, hline]
    rfl
  rw [hfirst]
  split
  · rfl
  · cases Machine.step config.missingTarget listing line m with
    | error error m₁ => rfl
    | ok flow m₁ => cases hfollow : m₁.follow? flow <;> simp only [hfollow] <;> rfl

/-- **What a run does next**: it ends where no line is left, its steps or its time are used up, its
    statement fails or ends it, or it goes on with one statement less to spend and the clock read once
    more. -/
theorem timed_cases (listing : Listing) (fuel : Nat) (m : Machine) (clock : σ) :
    (listing.line? m.counter = none ∧ timed expired config listing fuel m clock = .ok (.ofMachine m)) ∨
    ∃ line, listing.line? m.counter = some line ∧
      ((fuel = 0 ∧ timed expired config listing fuel m clock =
        .error ⟨.stepLimit config.maxSteps.toNat, m.output⟩) ∨
      ∃ fuel', fuel = fuel' + 1 ∧
        (((expired.run clock).1 = true ∧ timed expired config listing fuel m clock =
          .error ⟨.timeLimit (config.timeBudget.elim 0 UInt64.toNat), m.output⟩) ∨
        ((expired.run clock).1 = false ∧
          ((∃ error m', Machine.step config.missingTarget listing line m = .error error m' ∧
            timed expired config listing fuel m clock = .error ⟨error, m'.output⟩) ∨
          (∃ flow after, Machine.step config.missingTarget listing line m = .ok flow after ∧
            after.follow? flow = none ∧
            timed expired config listing fuel m clock = .ok (.ofMachine after)) ∨
          (∃ next, Continues config.missingTarget listing m next ∧
            timed expired config listing fuel m clock =
              timed expired config listing fuel' next (expired.run clock).2))))) := by
  cases hline : listing.line? m.counter with
  | none => exact .inl ⟨rfl, timed_offEnd expired config hline fuel clock⟩
  | some line =>
    refine .inr ⟨line, rfl, ?_⟩
    cases fuel with
    | zero => exact .inl ⟨rfl, timed_zero expired config hline clock⟩
    | succ fuel =>
      refine .inr ⟨fuel, rfl, ?_⟩
      rw [timed_succ expired config hline]
      cases (expired.run clock).1 with
      | true => exact .inl ⟨rfl, rfl⟩
      | false =>
        refine .inr ⟨rfl, ?_⟩
        rw [if_neg Bool.false_ne_true]
        split
        · rename_i error m' hstep
          exact .inl ⟨error, m', hstep, rfl⟩
        · rename_i flow after hstep
          split
          · rename_i hfollow
            exact .inr (.inl ⟨flow, after, hstep, hfollow, rfl⟩)
          · rename_i next hfollow
            exact .inr (.inr ⟨next, ⟨line, flow, after, hline, hstep, hfollow⟩, rfl⟩)

/-- A clock can only cut a run short: an outcome that is reached with it is the one without it. -/
theorem untimed_of_timed_ok {fuel : Nat} {m : Machine} {clock : σ} {outcome : Outcome}
    (h : timed expired config listing fuel m clock = .ok outcome) :
    untimed config listing fuel m = .ok outcome := by
  induction fuel using Nat.strongRecOn generalizing m clock with
  | ind fuel ih =>
    rcases timed_cases expired config listing fuel m clock with ⟨hline, hend⟩ |
      ⟨line, hline, ⟨-, hlimit⟩ | ⟨fuel', rfl, ⟨-, hlimit⟩ | ⟨-, ⟨error, m', -, hfails⟩ |
        ⟨flow, after, hstep, hfollow, hends⟩ | ⟨next, hnext, hgoes⟩⟩⟩⟩
    · rw [untimed_offEnd config hline, ← hend, h]
    · cases h.symm.trans hlimit
    · cases h.symm.trans hlimit
    · cases h.symm.trans hfails
    · rw [untimed_halt config hline hstep hfollow, ← hends, h]
    · rw [untimed_onward config hnext]
      exact ih fuel' (Nat.lt_succ_self _) (hgoes ▸ h)

/-- A run that succeeds is one of a valid configuration on a source that can be read. -/
theorem exists_listing_of_runTimed_ok {elapsed : StateM σ Nat} {engine : Option Engine}
    {source : String} {clock : σ} {outcome : Outcome}
    (h : ((runTimed elapsed config engine source).run clock).1 = .ok outcome) :
    ∃ listing, Listing.parse config.duplicates source = .ok listing ∧
      untimed config listing config.maxSteps.toNat { engine } = .ok outcome := by
  rw [runTimed] at h
  split at h
  · cases h
  · split at h
    · cases h
    · rename_i listing hparse
      exact ⟨listing, hparse, untimed_of_timed_ok _ config h⟩

end

/-- Wherever a run fails in execution, its output is that of the statements completed before, and which
    those are is told by the step limit, the clock and the statements.  `before` are the statements that
    are completed already. -/
theorem exists_prints_of_timed_error {σ : Type} {elapsed : StateM σ Nat} {config : Config} {clock : σ}
    {start m : Machine} {before : List (List String)} {fuel : Nat} {failure : Failure}
    (hbefore : Prints config.missingTarget listing start before m)
    (hfuel : before.length + fuel = config.maxSteps.toNat)
    (hintime : ∀ k < before.length, ¬ TimeOver elapsed config clock k)
    (h : timed (expired elapsed config) config listing fuel m
      (clockAfter (expired elapsed config) clock before.length) = .error failure) :
    ∃ blocks m', Prints config.missingTarget listing start blocks m' ∧
      (∀ k < blocks.length, ¬ TimeOver elapsed config clock k) ∧
      FailsAt elapsed config listing clock blocks.length m' failure.error ∧
      failure.output = m'.output := by
  induction fuel using Nat.strongRecOn generalizing m before with
  | ind fuel ih =>
    have hreading := reading_expired_iff elapsed config clock before.length
    rcases timed_cases (expired elapsed config) config listing fuel m
        (clockAfter (expired elapsed config) clock before.length) with ⟨-, hend⟩ |
      ⟨line, hline, ⟨rfl, hlimit⟩ | ⟨fuel', rfl, hread⟩⟩
    · cases h.symm.trans hend
    · cases h.symm.trans hlimit
      exact ⟨before, m, hbefore, hintime, .stepLimit hline hfuel, rfl⟩
    have hleft : before.length < config.maxSteps.toNat := by omega
    rcases hread with ⟨hover, hlimit⟩ | ⟨htime, hnext⟩
    · cases h.symm.trans hlimit
      obtain ⟨budget, hbudget, hlate⟩ := hreading.1 hover
      rw [hbudget]
      exact ⟨before, m, hbefore, hintime,
        .timeLimit hline hleft hbudget ⟨budget, hbudget, hlate⟩, rfl⟩
    have htime : ¬ TimeOver elapsed config clock before.length := by
      rw [← hreading, reading, htime]
      exact Bool.false_ne_true
    rcases hnext with ⟨error, m₁, hstep, hfails⟩ | ⟨flow, after, -, -, hends⟩ | ⟨next, hnext, hgoes⟩
    · cases h.symm.trans hfails
      exact ⟨before, m, hbefore, hintime, .statement hline hleft htime hstep,
        by rw [eq_of_step_error hstep]⟩
    · cases h.symm.trans hends
    · -- One more statement is completed, and the clock has been read once more.
      obtain ⟨lines, hlines⟩ := hnext.extends
      have hlength : (before ++ [lines]).length = before.length + 1 := by simp
      refine ih fuel' (Nat.lt_succ_self _) (hbefore.concat hnext hlines.symm) (by omega) ?_ ?_
      · intro k hk
        rcases Nat.lt_succ_iff_lt_or_eq.1 (hlength ▸ hk) with hk | rfl
        · exact hintime k hk
        · exact htime
      · rw [hlength, clockAfter, Function.iterate_succ_apply']
        exact hgoes.symm.trans h

/-! ## Failures of every kind -/

/-- **A failure leaves no trace.**
    (a) A statement that fails, guarded by a condition or not, leaves the machine exactly as it was.
    (b) If the program of a valid configuration fails in execution, with whatever clock, its output is
    that of the statements completed before the failing one, block by block.  The failing one is that
    for which no step is left, or else the first one for which the time is over, or the one that fails
    itself.
    (c) A call that an engine refuses can be left out of any history: the engine is the same without
    it, and so are the answers to all other calls.
    (d) An engine refuses a call exactly if its integers are out of range. -/
theorem failure_leaves_no_trace :
    (∀ policy listing text statement m error m',
      Machine.execute policy listing text statement m = .error error m' → m' = m) ∧
    (∀ (σ : Type) (elapsed : StateM σ Nat) (clock : σ) (config : Config) (engine : Option Engine)
        (source : String) (listing : Listing) (failure : Failure),
      config.check = .ok () → Listing.parse config.duplicates source = .ok listing →
      ((runTimed elapsed config engine source).run clock).1 = .error failure →
      ∃ blocks m, Prints config.missingTarget listing { engine } blocks m ∧
        (∀ k < blocks.length, ¬ TimeOver elapsed config clock k) ∧
        FailsAt elapsed config listing clock blocks.length m failure.error ∧
        failure.output.toList = blocks.flatten) ∧
    (∀ (e : Engine) (past future : List Engine.Call) (c : Engine.Call) (error : QuantumError)
        (e' : Engine), c.make (e.history past).engine = .error error e' →
      e' = (e.history past).engine ∧
      ∃ later, e.history (past ++ future) =
          ⟨(e.history (past ++ future)).engine, (e.history past).answers ++ later⟩ ∧
        e.history (past ++ c :: future) =
          ⟨(e.history (past ++ future)).engine, (e.history past).answers ++ .error error :: later⟩) ∧
    (∀ (e : Engine) (c : Engine.Call), (∃ error e', c.make e = .error error e') ↔ e.Refuses c) := by
  refine ⟨?_, ?_, ?_, Engine.make_error_iff⟩
  · intro policy listing text statement m error m' h
    exact Machine.atomic_execute policy listing text statement h
  · intro σ elapsed clock config engine source listing failure hcheck hparse h
    rw [runTimed, hcheck, hparse] at h
    obtain ⟨blocks, m, hprints, hintime, hfails, houtput⟩ :=
      exists_prints_of_timed_error .refl (Nat.zero_add _) (fun _ hk => absurd hk (Nat.not_lt_zero _)) h
    refine ⟨blocks, m, hprints, hintime, hfails, ?_⟩
    rw [houtput, hprints.output_eq]
    rfl
  · intro e past future c error e' h
    refine ⟨c.atomic_make h, ((e.history past).engine.history future).answers, ?_, ?_⟩
    · rw [Engine.history_append]
    · exact Engine.history_of_refused h future

/-- A guarded measurement of a qubit that is not there: executed on a machine, called for in the midst
    of a history, and met in a run whose clock goes on by one nanosecond at each reading.  With one step
    for two statements, a run has printed what the first of them prints. -/
theorem failure_leaves_no_trace_missing_qubit :
    let prepared := ((Engine.fresh (fun _ => 0) none).history [.prepare 1]).engine
    let m : Machine := { engine := some prepared }
    let source := "10 QINIT 1\n20 IF 1 = 1 THEN MEASURE 5\n30 MEASURE 0"
    let config : Config := { timeBudget := some 1 }
    let elapsed : StateM Nat Nat := fun clock => (clock, clock + 1)
    let failure : Failure := ⟨.quantum (.qubitIndex 5 1), #["Initialized 1 qubit(s)"]⟩
    (∃ m', Machine.execute .strict ⟨#[]⟩ "MEASURE 5" (.conditional "1 = 1" (.measure "5")) m =
      .error failure.error m' ∧ m' = m) ∧
    (∃ listing, Listing.parse .keep source = .ok listing ∧
      ∃ blocks m, Prints .fallThrough listing { engine := config.engine fun _ => 0 } blocks m ∧
        (∀ k < blocks.length, ¬ TimeOver elapsed config 0 k) ∧
        FailsAt elapsed config listing 0 blocks.length m failure.error ∧
        ["Initialized 1 qubit(s)"] = blocks.flatten) ∧
    (∃ listing, Listing.parse .keep "10 PRINT 1\n20 PRINT 2" = .ok listing ∧
      ∃ blocks m, Prints .fallThrough listing { engine := none } blocks m ∧
        FailsAt elapsed { maxSteps := 1 } listing 0 blocks.length m (.stepLimit 1) ∧
        ["1"] = blocks.flatten) ∧
    (∃ later, prepared.history [.measure 5, .flip 0] =
      ⟨(prepared.history [.flip 0]).engine, .error (.qubitIndex 5 1) :: later⟩) ∧
    prepared.Refuses (.measure 5) := by
  intro prepared m source config elapsed failure
  obtain ⟨hexecute, hrun, hhistory, hrefuses⟩ := failure_leaves_no_trace
  have hmake : (Engine.Call.measure 5).make prepared = .error (.qubitIndex 5 1) prepared := rfl
  refine ⟨?_, ?_, ?_, ?_, ?_⟩
  · have hcondition : Condition.holds m.vars "1 = 1" = true := by decide +kernel
    have hoperand : (evaluate m.vars "5").integer? = some 5 := by decide +kernel
    have hfail : Machine.execute .strict ⟨#[]⟩ "MEASURE 5" (.conditional "1 = 1" (.measure "5")) m =
        .error failure.error m := by
      rw [Machine.execute_of_holds hcondition, Machine.act_of_not_engineMissing rfl, Machine.perform,
        bind_of_ok (Machine.integer_of_some hoperand)]
      rfl
    exact ⟨m, hfail, hexecute _ _ _ _ _ _ _ hfail⟩
  · have hresult : (StateT.run (runTimed elapsed config (config.engine fun _ => 0) source) 0).1 =
        .error failure := by decide +kernel
    have hparse : Listing.parse .keep source = .ok ⟨#[⟨10, "QINIT 1"⟩,
        ⟨20, "IF 1 = 1 THEN MEASURE 5"⟩, ⟨30, "MEASURE 0"⟩]⟩ := by decide +kernel
    exact ⟨_, hparse, hrun Nat elapsed 0 config _ source _ failure rfl hparse hresult⟩
  · have hresult : (StateT.run (runTimed elapsed { maxSteps := 1 } none "10 PRINT 1\n20 PRINT 2") 0).1 =
        .error ⟨.stepLimit 1, #["1"]⟩ := by decide +kernel
    have hparse : Listing.parse .keep "10 PRINT 1\n20 PRINT 2" =
        .ok ⟨#[⟨10, "PRINT 1"⟩, ⟨20, "PRINT 2"⟩]⟩ := by decide +kernel
    obtain ⟨blocks, m, hprints, -, hfails, houtput⟩ :=
      hrun Nat elapsed 0 { maxSteps := 1 } none _ _ _ rfl hparse hresult
    exact ⟨_, hparse, blocks, m, hprints, hfails, houtput⟩
  · obtain ⟨-, later, -, hlater⟩ := hhistory prepared [] [.flip 0] _ _ _ hmake
    exact ⟨later, hlater⟩
  · exact (hrefuses _ _).1 ⟨_, _, hmake⟩

end QubitBasic.Run
