/-
  Tightening a choice only cuts a run short.

  A run under a tighter configuration keeps in step with the run under the looser one: the machines stay
  twins, statement by statement, until the tighter one stops with the error that belongs to the choice
  (`untimed_eq_or_excused`).  A failing statement prints nothing, so what the tighter run has printed by
  then the looser one has printed too, and it takes no line back.  If the tighter run is not cut short
  the results are equal: what a run reports of its engine does not show the ceiling, nor an engine that
  never had a register (`ofMachine_eq_of_twins`).
-/
import QubitBasic.Proofs.Machine.Twins
import QubitBasic.Proofs.Run.Failure

namespace QubitBasic

/-- The configurations differ in one choice only, which the first makes more tightly. -/
inductive Policy.Tightens : Policy → Config → Config → Prop
  | targets (config : Config) : Policy.targets.Tightens
      { config with missingTarget := .strict } { config with missingTarget := .fallThrough }
  | ceiling (config : Config) {low high : UInt64} : low ≤ high → Policy.ceiling.Tightens
      { config with maxQubits := low } { config with maxQubits := high }
  | engine (config : Config) : Policy.engine.Tightens
      { config with quantum := false } { config with quantum := true }
  | duplicates (config : Config) : Policy.duplicates.Tightens
      { config with duplicates := .reject } { config with duplicates := .keep }

namespace Run

open Machine (Twins)

variable {policy : Policy} {listing : Listing}

/-! ## Results -/

/-- The tighter result is the looser one, or a failure that belongs to the choice and whose output the
    looser run begins with. -/
def CutShort (policy : Policy) (tight loose : Except Failure Outcome) : Prop :=
  tight = loose ∨ ∃ failure, tight = .error failure ∧ failure.error.kind = policy.kind ∧
    failure.output.toList <+: printed loose ∧ (policy = .duplicates → failure.output = #[])

theorem ofMachine_of_register {m : Machine} {e : Engine} {r : Register Float}
    (he : m.engine = some e) (hr : e.register = some r) :
    Outcome.ofMachine m = ⟨m.output, some e.probabilities, some e.circuit, m.steps⟩ := by
  have hfilter : m.engine.filter (·.register.isSome) = some e := by
    rw [he, Option.filter_some, hr]
    rfl
  rw [Outcome.ofMachine, hfilter]
  rfl

/-- An engine without a register is not reported. -/
theorem ofMachine_of_no_register {m : Machine} (h : ∀ e, m.engine = some e → e.register = none) :
    Outcome.ofMachine m = ⟨m.output, none, none, m.steps⟩ := by
  have hfilter : m.engine.filter (·.register.isSome) = none := by
    rw [Option.filter_eq_none_iff]
    intro e he
    rw [h e he]
    decide
  rw [Outcome.ofMachine, hfilter]
  rfl

/-- Twins that have come to the end report the same. -/
theorem ofMachine_eq_of_twins {m m' : Machine} (h : Twins policy m m') :
    Outcome.ofMachine m = Outcome.ofMachine m' := by
  obtain ⟨engine, rfl, hengine⟩ := h
  cases policy with
  | targets =>
    obtain rfl : m.engine = engine := hengine
    rfl
  | duplicates =>
    obtain rfl : m.engine = engine := hengine
    rfl
  | ceiling =>
    rcases hengine with rfl | ⟨e, _, he, rfl, ceiling, rfl, -⟩
    · rfl
    · by_cases hr : ∃ r, e.register = some r
      · obtain ⟨r, hr⟩ := hr
        rw [ofMachine_of_register he hr, ofMachine_of_register (e := { e with ceiling }) rfl hr]
        rfl
      · have hnone : e.register = none := Option.eq_none_iff_forall_ne_some.2 fun r h => hr ⟨r, h⟩
        rw [ofMachine_of_no_register, ofMachine_of_no_register]
        · intro e' he'
          cases he'
          exact hnone
        · intro e' he'
          obtain rfl := Option.some.inj (he.symm.trans he')
          exact hnone
  | engine =>
    obtain ⟨hnone, e, rfl, hregister⟩ := hengine
    rw [ofMachine_of_no_register, ofMachine_of_no_register]
    · intro e' he'
      cases he'
      exact hregister
    · intro e' he'
      cases hnone.symm.trans he'

/-- The tighter machine stops at a statement, having printed what its twin has. -/
theorem cutShort_of_excused {tight loose : Config} {m m' m₁ : Machine} {line : Line}
    {error : RunError} {fuel : Nat} (htwins : Twins policy m m')
    (hline : listing.line? m.counter = some line)
    (hstep : Machine.step tight.missingTarget listing line m = .error error m₁)
    (hexcused : policy.Excuses error) :
    CutShort policy (untimed tight listing (fuel + 1) m) (untimed loose listing (fuel + 1) m') := by
  obtain ⟨engine, rfl, -⟩ := htwins
  obtain rfl := eq_of_step_error hstep
  refine Or.inr ⟨_, untimed_failure tight hline hstep fuel, hexcused.2, ?_, ?_⟩
  · exact prefix_printed_untimed loose listing (fuel + 1) { m with engine }
  · intro hduplicates
    exact absurd hduplicates hexcused.1

/-- Twins keep in step. -/
theorem untimed_eq_or_excused {tight loose : Config}
    (hrule : policy.Targets tight.missingTarget loose.missingTarget)
    (hsteps : tight.maxSteps = loose.maxSteps) {fuel : Nat} {m m' : Machine}
    (htwins : Twins policy m m') :
    CutShort policy (untimed tight listing fuel m) (untimed loose listing fuel m') := by
  induction fuel generalizing m m' with
  | zero =>
    have hcounter := htwins.counter_eq
    cases hline : listing.line? m.counter with
    | none =>
      rw [untimed_offEnd tight hline, untimed_offEnd loose (hcounter.symm ▸ hline),
        ofMachine_eq_of_twins htwins]
      exact Or.inl rfl
    | some line =>
      rw [untimed_zero tight hline, untimed_zero loose (hcounter.symm ▸ hline), hsteps,
        htwins.output_eq]
      exact Or.inl rfl
  | succ fuel ih =>
    have hcounter := htwins.counter_eq
    cases hline : listing.line? m.counter with
    | none =>
      rw [untimed_offEnd tight hline, untimed_offEnd loose (hcounter.symm ▸ hline),
        ofMachine_eq_of_twins htwins]
      exact Or.inl rfl
    | some line =>
      have hline' : listing.line? m'.counter = some line := hcounter.symm ▸ hline
      have halike := Machine.matches_step hrule listing line htwins
      generalize hr : Machine.step tight.missingTarget listing line m = r at halike
      generalize hr' : Machine.step loose.missingTarget listing line m' = r' at halike
      cases halike with
      | @ok flow m₁ m₁' htwins₁ =>
        rcases htwins₁.follow? flow with ⟨hfollow, hfollow'⟩ | ⟨m₂, m₂', hfollow, hfollow', htwins₂⟩
        · rw [untimed_halt tight hline hr hfollow, untimed_halt loose hline' hr' hfollow',
            ofMachine_eq_of_twins htwins₁]
          exact Or.inl rfl
        · rw [untimed_onward tight ⟨line, flow, m₁, hline, hr, hfollow⟩,
            untimed_onward loose ⟨line, flow, m₁', hline', hr', hfollow'⟩]
          exact ih htwins₂
      | @error error m₁ m₁' htwins₁ =>
        rw [untimed_failure tight hline hr, untimed_failure loose hline' hr', htwins₁.output_eq]
        exact Or.inl rfl
      | excused hexcused => exact cutShort_of_excused htwins hline hr hexcused

/-! ## Whole runs -/

/-- The run of a program with the engine of its configuration and the given samples. -/
def ofConfig (config : Config) (samples : Samples) (source : String) : Except Failure Outcome :=
  run config (config.engine samples) source

theorem ofConfig_of_parse_error {config : Config} {source : String} {error : Listing.Error}
    (hcheck : config.check = .ok ()) (hparse : Listing.parse config.duplicates source = .error error)
    (samples : Samples) : ofConfig config samples source = .error ⟨.listing error, #[]⟩ := by
  rw [ofConfig, run, runTimed, hcheck, hparse]
  rfl

theorem ofConfig_of_parse_ok {config : Config} {source : String} (hcheck : config.check = .ok ())
    (hclock : config.timeBudget = none) (hparse : Listing.parse config.duplicates source = .ok listing)
    (samples : Samples) : ofConfig config samples source =
      untimed config listing config.maxSteps.toNat { engine := config.engine samples } :=
  run_of_parse_ok hcheck hclock hparse (config.engine samples)

/-- Refusing duplicates either does not show or fails before anything is executed. -/
theorem parse_reject (source : String) :
    Listing.parse .reject source = Listing.parse .keep source ∨
      ∃ number, Listing.parse .reject source = .error (.duplicate number) := by
  unfold Listing.parse
  cases Listing.readLines (Listing.rawLines source.toList) with
  | error error => exact Or.inl rfl
  | ok lines =>
    cases hduplicate : Listing.duplicate? (Listing.sort lines) with
    | none => exact Or.inl (by simp [hduplicate])
    | some number => exact Or.inr ⟨number, by simp [hduplicate]⟩

/-- Where both configurations read the same listing, the run starts with twins. -/
theorem cutShort_of_parse_eq {tight loose : Config} {samples : Samples} {source : String}
    (htight : tight.check = .ok ()) (hloose : loose.check = .ok ())
    (hclock : tight.timeBudget = none) (hclock' : loose.timeBudget = none)
    (hparse : Listing.parse tight.duplicates source = Listing.parse loose.duplicates source)
    (hsteps : tight.maxSteps = loose.maxSteps)
    (hrule : policy.Targets tight.missingTarget loose.missingTarget)
    (hengines : policy.Engines (tight.engine samples) (loose.engine samples)) :
    CutShort policy (ofConfig tight samples source) (ofConfig loose samples source) := by
  cases hloose' : Listing.parse loose.duplicates source with
  | error error =>
    rw [ofConfig_of_parse_error htight (hparse.trans hloose'), ofConfig_of_parse_error hloose hloose']
    exact Or.inl rfl
  | ok listing =>
    rw [ofConfig_of_parse_ok htight hclock (hparse.trans hloose'),
      ofConfig_of_parse_ok hloose hclock' hloose', hsteps]
    exact untimed_eq_or_excused hrule hsteps ⟨_, rfl, hengines⟩

/-- A higher ceiling gives an engine with more room, if there is an engine. -/
theorem engines_ceiling (config : Config) (samples : Samples) {low high : UInt64} (hle : low ≤ high) :
    Policy.ceiling.Engines (Config.engine { config with maxQubits := low } samples)
      (Config.engine { config with maxQubits := high } samples) := by
  unfold Config.engine
  cases config.quantum with
  | false => exact Or.inl rfl
  | true =>
    have hle' := UInt64.le_iff_toNat_le.1 hle
    refine Or.inr ⟨_, _, rfl, rfl, _, rfl, ?_⟩
    show min low.toNat Engine.greatestCeiling ≤ min high.toNat Engine.greatestCeiling
    omega

/-- **Tightening a choice only cuts a run short.**  Take two valid configurations without a time budget
    that differ in one choice only, any samples and any program.  The run under the tighter one gives
    the same result as the run under the looser one, or it fails with the error that belongs to the
    choice, and then the looser run begins with what it has printed; where duplicates are refused that
    is nothing. -/
theorem tightening_cuts_short {policy : Policy} {tight loose : Config}
    (h : policy.Tightens tight loose) (htight : tight.check = .ok ()) (hloose : loose.check = .ok ())
    (hclock : tight.timeBudget = none) (samples : Samples) (source : String) :
    CutShort policy (ofConfig tight samples source) (ofConfig loose samples source) := by
  cases h with
  | targets config =>
    exact cutShort_of_parse_eq htight hloose hclock hclock rfl rfl (Or.inr ⟨rfl, rfl⟩) rfl
  | @ceiling config low high hle =>
    refine cutShort_of_parse_eq htight hloose hclock hclock rfl rfl (Or.inl rfl) ?_
    exact engines_ceiling config samples hle
  | engine config =>
    exact cutShort_of_parse_eq htight hloose hclock hclock rfl rfl (Or.inl rfl) ⟨rfl, _, rfl, rfl⟩
  | duplicates config =>
    rcases parse_reject source with hsame | ⟨number, hreject⟩
    · exact cutShort_of_parse_eq htight hloose hclock hclock hsame rfl (Or.inl rfl) rfl
    · rw [ofConfig_of_parse_error htight hreject]
      exact Or.inr ⟨_, rfl, rfl, List.nil_prefix, fun _ => rfl⟩

/-- A jump to a missing line ends the strict run after its first line and not the other one. -/
theorem tightening_cuts_short_missing_line :
    let source := "10 PRINT 1\n20 GOTO 15\n30 PRINT 2"
    let tight : Config := { missingTarget := .strict }
    let loose : Config := { missingTarget := .fallThrough }
    tight.check = .ok () ∧ loose.check = .ok () ∧
      ofConfig tight (fun _ => 0) source = .error ⟨.unknownTarget 15, #["1"]⟩ ∧
      ofConfig loose (fun _ => 0) source = .ok ⟨#["1", "2"], none, none, 3⟩ ∧
      CutShort .targets (ofConfig tight (fun _ => 0) source) (ofConfig loose (fun _ => 0) source) := by
  intro source tight loose
  have htight : ofConfig tight (fun _ => 0) source = .error ⟨.unknownTarget 15, #["1"]⟩ := by
    decide +kernel
  have hloose : ofConfig loose (fun _ => 0) source = .ok ⟨#["1", "2"], none, none, 3⟩ := by
    decide +kernel
  exact ⟨rfl, rfl, htight, hloose, tightening_cuts_short (.targets {}) rfl rfl rfl _ source⟩

end Run

end QubitBasic
