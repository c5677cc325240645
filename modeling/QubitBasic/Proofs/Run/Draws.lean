/-
  What a run takes from its stream of samples.

  An engine draws one sample for every measurement that it makes and none for anything else: not for a
  gate, not for a new register, not for a call that it refuses.  So the position in the stream tells how
  many measurements a run has completed so far (`Reaches.draws_eq`).

  Engines that differ in their streams only are `Synchronous` for as many samples as the streams agree
  on from where they stand.  A measurement uses up one of these samples and finds the same value on both
  engines, and every other call leaves them as they are (`Synchronous.make_ok`).  Two machines with such
  engines stay in step for as long as the samples last: to the end of the run, if they last for the
  measurements that it completes (`untimed_eq_of_synchronous`).
-/
import QubitBasic.Proofs.Engine.Refusal
import QubitBasic.Proofs.Run.Calls
import QubitBasic.Proofs.Run.Tightening

namespace QubitBasic

/-! ## Engines -/

/-- Without a measurement the sample does not matter. -/
theorem Operation.act_eq_of_not_isMeasurement {op : Operation} (h : op.isMeasurement = false)
    (sample sample' : Float) (r : Register Float) : op.act sample r = op.act sample' r := by
  cases op with
  | measure q => cases h
  | _ => rfl

namespace Engine

/-- The calls that draw a sample when they are answered. -/
def Call.isMeasurement : Call → Bool
  | .measure _ => true
  | _ => false

theorem Call.isMeasurement_eq {c : Call} {op : Operation} (hop : c.operation? = some op) :
    op.isMeasurement = c.isMeasurement := by
  cases c with
  | prepare count => cases hop
  | _ =>
    cases hop
    rfl

/-- The engines differ in their streams only, and these agree on the next `n` samples. -/
def Synchronous (n : Nat) (e e' : Engine) : Prop :=
  ∃ samples draws, e' = { e with samples, draws } ∧
    ∀ i < n, e.samples (e.draws + i) = samples (draws + i)

variable {n : Nat} {e e' e₁ : Engine} {c : Call}

/-- A call that is answered leaves the stream alone and draws a sample exactly if it measures. -/
theorem draws_of_make {answer : Option Bool} (h : c.make e = .ok answer e₁) :
    e₁.samples = e.samples ∧ e₁.draws = e.draws + c.isMeasurement.toNat := by
  rcases c.make_cases e with ⟨error, hmake⟩ | ⟨count, rfl, -, -, hmake⟩ | ⟨op, r, hop, -, -, hmake⟩
  · cases hmake.symm.trans h
  · cases hmake.symm.trans h
    exact ⟨rfl, rfl⟩
  · cases hmake.symm.trans h
    rw [← Call.isMeasurement_eq hop]
    exact ⟨rfl, rfl⟩

/-- What one engine refuses the other refuses for the same reason. -/
theorem Synchronous.make_error {error : QuantumError} (h : e.Synchronous n e')
    (hmake : c.make e = .error error e₁) : c.make e' = .error error e' := by
  obtain ⟨samples, draws, rfl, -⟩ := h
  have hrefusal := refusal?_of_make hmake
  refine make_of_refusal? ?_
  rw [← hrefusal]
  cases c <;> rfl

/-- A call that both engines answer has the same answer, and they have a sample less in common if it
    measures. -/
theorem Synchronous.make_ok {answer : Option Bool}
    (h : e.Synchronous (c.isMeasurement.toNat + n) e') (hmake : c.make e = .ok answer e₁) :
    ∃ e₁', c.make e' = .ok answer e₁' ∧ e₁.Synchronous n e₁' := by
  obtain ⟨samples, draws, rfl, hagree⟩ := h
  rcases c.make_cases e with ⟨error, herror⟩ | ⟨count, rfl, hone, hle, hok⟩ |
    ⟨op, r, hop, hr, hrange, hok⟩
  · cases herror.symm.trans hmake
  · cases hok.symm.trans hmake
    refine ⟨_, Call.make_prepare_of_le ⟨hone, hle⟩, samples, draws, rfl, fun i hi => ?_⟩
    exact hagree i (by omega)
  · cases hok.symm.trans hmake
    have hkind := Call.isMeasurement_eq hop
    have hact : op.act (samples draws) r = op.act (e.samples e.draws) r := by
      cases hmeasures : op.isMeasurement with
      | false => exact op.act_eq_of_not_isMeasurement hmeasures _ _ r
      | true =>
        -- A measurement is counted, so the first sample is one that the streams agree on.
        rw [hkind] at hmeasures
        rw [hmeasures] at hagree
        rw [show e.samples e.draws = samples draws from hagree 0 (by simp)]
    have hmake' := Call.make_of_inRange (e := { e with samples, draws }) hop hr hrange
    refine ⟨_, hmake'.trans (by rw [← hact]), samples, draws + op.isMeasurement.toNat, ?_, ?_⟩
    · rw [after, after, hact]
    · intro i hi
      have hnext := hagree (op.isMeasurement.toNat + i) (by rw [hkind]; omega)
      rwa [← Nat.add_assoc, ← Nat.add_assoc] at hnext

end Engine

namespace Run

open Engine (Synchronous)

variable {policy : TargetPolicy} {listing : Listing}

/-- The number of measurements that a run completes. -/
def measurements (config : Config) (engine : Option Engine) (source : String) : Nat :=
  (calls config engine source).countP (·.isMeasurement)

/-! ## Samples drawn -/

/-- A statement that completes moves on in the stream by the measurements that it makes. -/
theorem draws_of_continues {m m' : Machine} {e : Engine} (he : m.engine = some e)
    (h : Continues policy listing m m') :
    ∃ e', m'.engine = some e' ∧ e'.samples = e.samples ∧
      e'.draws = e.draws + (m.completedCall? policy listing).toList.countP (·.isMeasurement) := by
  obtain ⟨line, flow, after, hline, hstep, hfollow⟩ := h
  obtain ⟨index, rfl⟩ := Machine.exists_counter_of_follow? hfollow
  rw [completedCall?_of_ok hline hstep]
  rcases Machine.step_ok_cases hstep with ⟨hcall, rfl⟩ |
    ⟨c, e₀, answer, e₁, hcall, he₀, hmake, -, rfl⟩
  · rw [hcall]
    exact ⟨e, (Machine.engine_stepped m line).trans he, rfl, rfl⟩
  · obtain rfl := Option.some.inj (he.symm.trans he₀)
    obtain ⟨hsamples, hdraws⟩ := Engine.draws_of_make hmake
    refine ⟨e₁, rfl, hsamples, ?_⟩
    rw [hcall, hdraws, Option.toList_some, List.countP_singleton]
    cases c.isMeasurement <;> rfl

/-- The position in the stream counts the measurements completed. -/
theorem Reaches.draws_eq {m m' : Machine} {k : Nat} (h : Reaches policy listing m k m') {e : Engine}
    (he : m.engine = some e) :
    ∃ e', m'.engine = some e' ∧ e'.samples = e.samples ∧
      e'.draws = e.draws + (callsOf policy listing k m).countP (·.isMeasurement) := by
  induction h generalizing e with
  | refl => exact ⟨e, he, rfl, rfl⟩
  | @onward m m₁ m₂ k hnext _ ih =>
    obtain ⟨e₁, he₁, hsamples₁, hdraws₁⟩ := draws_of_continues he hnext
    obtain ⟨e₂, he₂, hsamples₂, hdraws₂⟩ := ih he₁
    refine ⟨e₂, he₂, hsamples₂.trans hsamples₁, ?_⟩
    rw [callsOf_onward hnext, List.countP_append, hdraws₂, hdraws₁, Nat.add_assoc]

/-! ## Machines in step -/

/-- What is reported of an engine does not show its stream. -/
theorem ofMachine_eq_of_synchronous {m : Machine} {n : Nat} {e e' : Engine}
    (he : m.engine = some e) (h : e.Synchronous n e') :
    Outcome.ofMachine { m with engine := some e' } = Outcome.ofMachine m := by
  obtain ⟨samples, draws, rfl, -⟩ := h
  rcases Option.eq_none_or_eq_some e.register with hr | ⟨r, hr⟩
  · rw [ofMachine_of_no_register, ofMachine_of_no_register]
    · rintro _ he'
      obtain rfl := Option.some.inj (he.symm.trans he')
      exact hr
    · rintro _ he'
      cases he'
      exact hr
  · rw [ofMachine_of_register he hr, ofMachine_of_register (e := { e with samples, draws }) rfl hr]
    rfl

/-- How one line is executed on two machines whose engines are synchronous. -/
theorem step_synchronous {m : Machine} {e e' : Engine} {n : Nat} {line : Line}
    (hline : listing.line? m.counter = some line) (he : m.engine = some e)
    (hsync : e.Synchronous
      ((m.completedCall? policy listing).toList.countP (·.isMeasurement) + n) e') :
    (∃ error m₁, Machine.step policy listing line m = .error error m₁ ∧
      ∃ m₁', Machine.step policy listing line { m with engine := some e' } = .error error m₁' ∧
        m₁'.output = m₁.output) ∨
    (∃ flow after e₁ e₁', Machine.step policy listing line m = .ok flow after ∧
      Machine.step policy listing line { m with engine := some e' } =
        .ok flow { after with engine := some e₁' } ∧
      after.engine = some e₁ ∧ e₁.Synchronous n e₁') := by
  cases hcall : line.call? m.vars with
  | none =>
    have hsync' : e.Synchronous n e' := by
      obtain ⟨samples, draws, rfl, hagree⟩ := hsync
      exact ⟨samples, draws, rfl, fun i hi => hagree i (by omega)⟩
    rcases Machine.step_of_no_call policy listing hcall with ⟨error, herror⟩ | ⟨flow, hok⟩
    · exact .inl ⟨error, _, herror m.engine rfl, _, herror (some e') (by rw [he]; rfl), rfl⟩
    · exact .inr ⟨flow, _, e, e', hok m.engine rfl, hok (some e') (by rw [he]; rfl), he, hsync'⟩
  | some c =>
    have hstep : Machine.step policy listing line m = _ := Machine.step_of_call hcall he
    have hstep' : Machine.step policy listing line { m with engine := some e' } = _ :=
      Machine.step_of_call (m := { m with engine := some e' }) hcall rfl
    rw [Machine.afterCall] at hstep hstep'
    cases hmake : c.make e with
    | error error e₁ =>
      rw [hmake] at hstep
      rw [hsync.make_error hmake] at hstep'
      exact .inl ⟨_, _, hstep, _, hstep', rfl⟩
    | ok answer e₁ =>
      rw [hmake] at hstep
      rw [completedCall?_of_ok hline hstep, hcall, Option.toList_some, List.countP_singleton] at hsync
      obtain ⟨e₁', hmake', hsync₁⟩ := Synchronous.make_ok (c := c) (n := n) (by
        cases hmeasures : c.isMeasurement <;> rwa [hmeasures] at hsync) hmake
      rw [hmake'] at hstep'
      exact .inr ⟨_, _, e₁, e₁', hstep, hstep', rfl, hsync₁⟩

/-- **Two runs in step.**  If the streams agree on as many samples as the first run completes
    measurements, the second one ends as the first. -/
theorem untimed_eq_of_synchronous (config : Config) {fuel : Nat} {m : Machine} {e e' : Engine}
    (he : m.engine = some e)
    (hsync : e.Synchronous
      ((callsOf config.missingTarget listing fuel m).countP (·.isMeasurement)) e') :
    untimed config listing fuel { m with engine := some e' } = untimed config listing fuel m := by
  induction fuel generalizing m e e' with
  | zero =>
    cases hline : listing.line? m.counter with
    | none =>
      rw [untimed_offEnd config hline, untimed_offEnd config (m := { m with engine := some e' }) hline,
        ofMachine_eq_of_synchronous he hsync]
    | some line =>
      rw [untimed_zero config hline, untimed_zero config (m := { m with engine := some e' }) hline]
  | succ fuel ih =>
    cases hline : listing.line? m.counter with
    | none =>
      rw [untimed_offEnd config hline, untimed_offEnd config (m := { m with engine := some e' }) hline,
        ofMachine_eq_of_synchronous he hsync]
    | some line =>
      have hline' : listing.line? ({ m with engine := some e' } : Machine).counter = some line := hline
      obtain ⟨rest, hcalls⟩ := exists_callsOf_succ config.missingTarget hline fuel
      have hsync' := hsync
      rw [hcalls, List.countP_append] at hsync'
      rcases step_synchronous hline he hsync' with
        ⟨error, m₁, hstep, m₁', hstep', houtput⟩ | ⟨flow, after, e₁, e₁', hstep, hstep', he₁, hsync₁⟩
      · rw [untimed_failure config hline hstep, untimed_failure config hline' hstep', houtput]
      · have hfollow' := after.follow?_engine (some e₁') flow
        cases hfollow : after.follow? flow with
        | none =>
          rw [hfollow] at hfollow'
          rw [untimed_halt config hline hstep hfollow, untimed_halt config hline' hstep' hfollow',
            ofMachine_eq_of_synchronous he₁ hsync₁]
        | some next =>
          rw [hfollow] at hfollow'
          have hnext : Continues config.missingTarget listing m next :=
            ⟨line, flow, after, hline, hstep, hfollow⟩
          have hnext' : Continues config.missingTarget listing { m with engine := some e' }
              { next with engine := some e₁' } := ⟨line, flow, _, hline', hstep', hfollow'⟩
          have henext : next.engine = some e₁ := by
            obtain ⟨index, rfl⟩ := Machine.exists_counter_of_follow? hfollow
            exact he₁
          rw [untimed_onward config hnext, untimed_onward config hnext']
          refine ih henext ?_
          rw [callsOf_onward hnext] at hcalls
          rwa [List.append_cancel_left hcalls]

/-! ## Whole runs -/

/-- The run of a program with another engine, which differs in its stream only. -/
theorem run_eq_of_synchronous {config : Config} (hclock : config.timeBudget = none) {source : String}
    {e e' : Engine} (hsync : e.Synchronous (measurements config (some e) source) e') :
    run config (some e') source = run config (some e) source := by
  cases hcheck : config.check with
  | error error => rw [run, run, runTimed, runTimed, hcheck]
  | ok _ =>
    cases hparse : Listing.parse config.duplicates source with
    | error error =>
      rw [run, run, runTimed, runTimed, hcheck, hparse]
    | ok listing =>
      rw [measurements, calls_of_parse_ok hparse] at hsync
      rw [run_of_parse_ok hcheck hclock hparse, run_of_parse_ok hcheck hclock hparse]
      exact untimed_eq_of_synchronous config rfl hsync

/-- **Only the samples that are consumed matter.**  Let a configuration have no time budget.
    (a) If the stream of the engine is replaced by one that agrees with it, from where the two stand, on
    as many samples as the run completes measurements, then the result is the same.
    (b) These are the samples that are consumed: after any number of statements the engine has moved on
    in its stream by the measurements completed so far, whatever gates and registers there were, and a
    statement that fails leaves the engine alone.
    (c) A run with the engine of its configuration that completes no measurement gives the same result
    for every stream. -/
theorem only_consumed_samples_matter {config : Config} (hclock : config.timeBudget = none)
    (source : String) :
    (∀ (e : Engine) (samples : Samples) (draws : Nat),
      (∀ i < measurements config (some e) source,
        e.samples (e.draws + i) = samples (draws + i)) →
      run config (some { e with samples, draws }) source = run config (some e) source) ∧
    (∀ (e : Engine) (listing : Listing) (k : Nat) (m : Machine),
      Reaches config.missingTarget listing { engine := some e } k m →
      (∃ e', m.engine = some e' ∧ e'.samples = e.samples ∧ e'.draws = e.draws +
        (callsOf config.missingTarget listing k { engine := some e }).countP (·.isMeasurement)) ∧
      ∀ line error m', Machine.step config.missingTarget listing line m = .error error m' →
        m'.engine = m.engine) ∧
    (∀ samples samples' : Samples, measurements config (config.engine samples) source = 0 →
      ofConfig config samples' source = ofConfig config samples source) := by
  refine ⟨?_, ?_, ?_⟩
  · intro e samples draws hagree
    exact run_eq_of_synchronous hclock ⟨samples, draws, rfl, hagree⟩
  · intro e listing k m hreaches
    refine ⟨hreaches.draws_eq rfl, fun line error m' hstep => ?_⟩
    rw [eq_of_step_error hstep]
  · intro samples samples' hnone
    unfold ofConfig
    cases hquantum : config.quantum with
    | false => simp only [Config.engine, hquantum, Bool.false_eq_true, if_false]
    | true =>
      simp only [Config.engine, hquantum, if_true] at hnone ⊢
      refine run_eq_of_synchronous hclock ⟨samples', 0, rfl, ?_⟩
      intro i hi
      rw [hnone] at hi
      exact absurd hi (Nat.not_lt_zero i)

/-- A program that measures once, between gates and registers, and fails when it is to measure again:
    a stream that has only this one sample in common with the other, and at another place, gives the
    same failure. -/
theorem only_consumed_samples_matter_one_measurement :
    let source :=
      "10 QINIT 1\n20 HADAMARD 0\n30 MEASURE 0\n40 QINIT 2\n50 PRINT QRESULT\n60 MEASURE 7"
    let e : Engine := { samples := fun _ => 0 }
    let samples : Samples := fun i => if i = 5 then 0 else 1
    measurements {} (some e) source = 1 ∧
      run {} (some { e with samples, draws := 5 }) source = run {} (some e) source ∧
      measurements {} (Config.engine {} samples) "10 QINIT 2\n20 QNOT 1" = 0 ∧
      ofConfig {} (fun _ => 0) "10 QINIT 2\n20 QNOT 1" =
        ofConfig {} samples "10 QINIT 2\n20 QNOT 1" := by
  intro source e samples
  have hone : measurements {} (some e) source = 1 := by decide +kernel
  have hzero : measurements {} (Config.engine {} samples) "10 QINIT 2\n20 QNOT 1" = 0 := by
    decide +kernel
  obtain ⟨hreplaced, -, -⟩ := @only_consumed_samples_matter {} rfl source
  obtain ⟨-, -, hnone⟩ := @only_consumed_samples_matter {} rfl "10 QINIT 2\n20 QNOT 1"
  refine ⟨hone, hreplaced e samples 5 ?_, hzero, hnone samples _ hzero⟩
  intro i hi
  obtain rfl : i = 0 := by omega
  rfl

end Run

end QubitBasic
