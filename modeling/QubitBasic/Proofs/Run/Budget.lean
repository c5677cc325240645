/-
  The step budget of a run is exact and only truncates.

  A run without a clock is determined by where it would end by itself.  `Ends m k result` says that the
  machine `m` executes exactly `k` further statements and then ends with `result`, in one of three ways:
  there is no current line, the `k`-th statement fails, or it stops the run.  `Reaches m k m'` says that
  `k` statements lead from `m` to `m'` without ending.  Neither mentions a budget.

  A budget of `fuel` statements is then fully described by two equations (`Ends.untimed_eq`,
  `Reaches.untimed_add`) and a dichotomy (`untimed_cases`): either the run ends within it, and the
  result is that of the run by itself, or `fuel` statements are executed with a line still to come, and
  the result is the output so far with the complaint about the limit.  In particular a run that ends by
  itself after `k` statements needs a budget of `k` and not one less, whichever way it ends (`Settles`).
-/
import Mathlib
import QubitBasic.Proofs.Machine.Frame
import QubitBasic.Run

namespace QubitBasic.Run

variable {policy : TargetPolicy} {listing : Listing}

/-! ## Runs without a budget -/

/-- One statement leads from `m` to the line that `m'` stands at. -/
def Continues (policy : TargetPolicy) (listing : Listing) (m m' : Machine) : Prop :=
  ∃ line flow after, listing.line? m.counter = some line ∧
    Machine.step policy listing line m = .ok flow after ∧ after.follow? flow = some m'

/-- From `m` exactly `k` further statements are executed, and the run ends with the result. -/
inductive Ends (policy : TargetPolicy) (listing : Listing) :
    Machine → Nat → Except Failure Outcome → Prop
  /-- There is no current line. -/
  | offEnd {m} : listing.line? m.counter = none → Ends policy listing m 0 (.ok (.ofMachine m))
  /-- The current statement fails. -/
  | failure {m m' line error} : listing.line? m.counter = some line →
      Machine.step policy listing line m = .error error m' →
      Ends policy listing m 1 (.error ⟨error, m'.output⟩)
  /-- The current statement stops the run. -/
  | halt {m m' line flow} : listing.line? m.counter = some line →
      Machine.step policy listing line m = .ok flow m' → m'.follow? flow = none →
      Ends policy listing m 1 (.ok (.ofMachine m'))
  | onward {m m' k result} : Continues policy listing m m' → Ends policy listing m' k result →
      Ends policy listing m (k + 1) result

/-- From `m` exactly `k` statements lead to `m'`, none of which ends the run. -/
inductive Reaches (policy : TargetPolicy) (listing : Listing) : Machine → Nat → Machine → Prop
  | refl {m} : Reaches policy listing m 0 m
  | onward {m m' m'' k} : Continues policy listing m m' → Reaches policy listing m' k m'' →
      Reaches policy listing m (k + 1) m''

/-! ## What a statement adds -/

/-- A relation that every step keeps holds from line to line, as long as it does not look at where the
    second machine stands. -/
theorem Continues.of_keeps {R : Machine → Machine → Prop}
    (hkeeps : ∀ line, Keeps R (Machine.step policy listing line))
    (hcounter : ∀ m m' index, R m m' → R m { m' with counter := index }) {m m' : Machine}
    (h : Continues policy listing m m') : R m m' := by
  obtain ⟨line, flow, after, -, hstep, hfollow⟩ := h
  have hafter : R m after := finalState_of_ok hstep ▸ hkeeps line m
  cases flow with
  | next => exact Option.some.inj hfollow ▸ hcounter m after _ hafter
  | jump index => exact Option.some.inj hfollow ▸ hcounter m after index hafter
  | halt => cases hfollow

theorem Continues.steps_eq_and_extends {m m' : Machine} (h : Continues policy listing m m') :
    m'.steps = m.steps + 1 ∧ m.Extends m' :=
  h.of_keeps (Machine.keeps_step policy listing) fun _ _ _ h => h

theorem Continues.steps_eq {m m' : Machine} (h : Continues policy listing m m') :
    m'.steps = m.steps + 1 := h.steps_eq_and_extends.1

theorem Continues.extends {m m' : Machine} (h : Continues policy listing m m') : m.Extends m' :=
  h.steps_eq_and_extends.2

/-- A run that ends by itself reports the statements it has executed. -/
theorem Ends.steps_eq {m : Machine} {k : Nat} {outcome : Outcome}
    (h : Ends policy listing m k (.ok outcome)) : outcome.steps = m.steps + k := by
  generalize hresult : Except.ok outcome = result at h
  induction h with
  | offEnd _ =>
    obtain rfl := Except.ok.inj hresult
    rfl
  | failure _ _ => cases hresult
  | @halt m m' line flow _ hstep _ =>
    obtain rfl := Except.ok.inj hresult
    have hkeeps := (Machine.keeps_step policy listing line m).1
    rw [finalState_of_ok hstep] at hkeeps
    exact hkeeps
  | onward hnext _ ih =>
    rw [ih hresult, hnext.steps_eq]
    omega

/-! ## Runs within a budget -/

/-- The run with at most `fuel` further statements and no clock. -/
def untimed (config : Config) (listing : Listing) (fuel : Nat) (m : Machine) :
    Except Failure Outcome :=
  Id.run (advance (pure false) config listing fuel m)

theorem untimed_offEnd (config : Config) {m : Machine} (hline : listing.line? m.counter = none)
    (fuel : Nat) : untimed config listing fuel m = .ok (.ofMachine m) := by
  rw [untimed, advance, hline]
  rfl

theorem untimed_zero (config : Config) {m : Machine} {line : Line}
    (hline : listing.line? m.counter = some line) :
    untimed config listing 0 m = .error ⟨.stepLimit config.maxSteps.toNat, m.output⟩ := by
  rw [untimed, advance, hline]
  rfl

theorem untimed_failure (config : Config) {m m' : Machine} {line : Line} {error : RunError}
    (hline : listing.line? m.counter = some line)
    (hstep : Machine.step config.missingTarget listing line m = .error error m') (fuel : Nat) :
    untimed config listing (fuel + 1) m = .error ⟨error, m'.output⟩ := by
  rw [untimed, advance, hline]
  simp [hstep]

theorem untimed_halt (config : Config) {m m' : Machine} {line : Line} {flow : Flow}
    (hline : listing.line? m.counter = some line)
    (hstep : Machine.step config.missingTarget listing line m = .ok flow m')
    (hfollow : m'.follow? flow = none) (fuel : Nat) :
    untimed config listing (fuel + 1) m = .ok (.ofMachine m') := by
  rw [untimed, advance, hline]
  simp [hstep, hfollow]

theorem untimed_onward (config : Config) {m m' : Machine}
    (h : Continues config.missingTarget listing m m') (fuel : Nat) :
    untimed config listing (fuel + 1) m = untimed config listing fuel m' := by
  obtain ⟨line, flow, after, hline, hstep, hfollow⟩ := h
  rw [untimed, advance, hline]
  simp [hstep, hfollow, untimed]

/-- A budget that is large enough does not show. -/
theorem Ends.untimed_eq (config : Config) {m : Machine} {k : Nat} {result : Except Failure Outcome}
    (h : Ends config.missingTarget listing m k result) {fuel : Nat} (hfuel : k ≤ fuel) :
    untimed config listing fuel m = result := by
  induction h generalizing fuel with
  | offEnd hline => exact untimed_offEnd config hline fuel
  | failure hline hstep =>
    obtain ⟨fuel, rfl⟩ := Nat.exists_eq_add_of_le' hfuel
    exact untimed_failure config hline hstep fuel
  | halt hline hstep hfollow =>
    obtain ⟨fuel, rfl⟩ := Nat.exists_eq_add_of_le' hfuel
    exact untimed_halt config hline hstep hfollow fuel
  | @onward m m' k result hnext _ ih =>
    obtain ⟨fuel, rfl⟩ : ∃ f, fuel = f + 1 := ⟨fuel - 1, by omega⟩
    rw [untimed_onward config hnext]
    exact ih (by omega)

/-- A budget that is too small is used up. -/
theorem Ends.untimed_eq_stepLimit (config : Config) {m : Machine} {k : Nat}
    {result : Except Failure Outcome} (h : Ends config.missingTarget listing m k result) {fuel : Nat}
    (hfuel : fuel < k) :
    ∃ output, untimed config listing fuel m = .error ⟨.stepLimit config.maxSteps.toNat, output⟩ := by
  induction h generalizing fuel with
  | offEnd _ => exact absurd hfuel (Nat.not_lt_zero fuel)
  | failure hline _ =>
    obtain rfl : fuel = 0 := by omega
    exact ⟨_, untimed_zero config hline⟩
  | halt hline _ _ =>
    obtain rfl : fuel = 0 := by omega
    exact ⟨_, untimed_zero config hline⟩
  | @onward m m' k result hnext _ ih =>
    cases fuel with
    | zero =>
      obtain ⟨line, flow, after, hline, -, -⟩ := hnext
      exact ⟨_, untimed_zero config hline⟩
    | succ fuel =>
      rw [untimed_onward config hnext]
      exact ih (by omega)

/-- The budget is spent one statement at a time. -/
theorem Reaches.untimed_add (config : Config) {m m' : Machine} {k : Nat}
    (h : Reaches config.missingTarget listing m k m') (fuel : Nat) :
    untimed config listing (fuel + k) m = untimed config listing fuel m' := by
  induction h with
  | refl => rfl
  | onward hnext _ ih =>
    rw [← Nat.add_assoc, untimed_onward config hnext]
    exact ih

/-- **The dichotomy.**  Within its budget a run either ends by itself, or is cut short with a line
    still to come. -/
theorem untimed_cases (config : Config) (listing : Listing) (fuel : Nat) (m : Machine) :
    (∃ k, k ≤ fuel ∧ Ends config.missingTarget listing m k (untimed config listing fuel m)) ∨
    (∃ m', Reaches config.missingTarget listing m fuel m' ∧
      untimed config listing fuel m =
        .error ⟨.stepLimit config.maxSteps.toNat, m'.output⟩) := by
  induction fuel generalizing m with
  | zero =>
    cases hline : listing.line? m.counter with
    | none =>
      rw [untimed_offEnd config hline]
      exact Or.inl ⟨0, Nat.le_refl 0, .offEnd hline⟩
    | some line => exact Or.inr ⟨m, .refl, untimed_zero config hline⟩
  | succ fuel ih =>
    cases hline : listing.line? m.counter with
    | none =>
      rw [untimed_offEnd config hline]
      exact Or.inl ⟨0, Nat.zero_le _, .offEnd hline⟩
    | some line =>
      cases hstep : Machine.step config.missingTarget listing line m with
      | error error m' =>
        rw [untimed_failure config hline hstep]
        exact Or.inl ⟨1, by omega, .failure hline hstep⟩
      | ok flow after =>
        cases hfollow : after.follow? flow with
        | none =>
          rw [untimed_halt config hline hstep hfollow]
          exact Or.inl ⟨1, by omega, .halt hline hstep hfollow⟩
        | some m' =>
          -- The run goes on with one statement less to spend.
          have hnext : Continues config.missingTarget listing m m' :=
            ⟨line, flow, after, hline, hstep, hfollow⟩
          rw [untimed_onward config hnext]
          rcases ih m' with ⟨k, hk, hends⟩ | ⟨m'', hreaches, hlimit⟩
          · exact Or.inl ⟨k + 1, by omega, .onward hnext hends⟩
          · exact Or.inr ⟨m'', .onward hnext hreaches, hlimit⟩

/-! ## Output -/

/-- The lines that a run has printed, however it ended. -/
def printed : Except Failure Outcome → List String
  | .ok outcome => outcome.output.toList
  | .error failure => failure.output.toList

theorem Ends.prefix_printed {m : Machine} {k : Nat} {result : Except Failure Outcome}
    (h : Ends policy listing m k result) : m.output.toList <+: printed result := by
  induction h with
  | offEnd _ => exact List.prefix_refl _
  | @failure m m' line error _ hstep =>
    have hkeeps := (Machine.keeps_step policy listing line m).2
    rwa [finalState_of_error hstep] at hkeeps
  | @halt m m' line flow _ hstep _ =>
    have hkeeps := (Machine.keeps_step policy listing line m).2
    rwa [finalState_of_ok hstep] at hkeeps
  | onward hnext _ ih => exact List.IsPrefix.trans hnext.extends ih

theorem Reaches.extends {m m' : Machine} {k : Nat} (h : Reaches policy listing m k m') :
    m.Extends m' := by
  induction h with
  | refl => exact List.prefix_refl _
  | onward hnext _ ih => exact hnext.extends.trans ih

/-- What has been printed stays printed, whatever the budget. -/
theorem prefix_printed_untimed (config : Config) (listing : Listing) (fuel : Nat) (m : Machine) :
    m.output.toList <+: printed (untimed config listing fuel m) := by
  rcases untimed_cases config listing fuel m with ⟨k, -, hends⟩ | ⟨m', hreaches, hlimit⟩
  · exact hends.prefix_printed
  · rw [hlimit]
    exact hreaches.extends

/-! ## Whole runs -/

/-- With a valid configuration and no clock, a listing that can be read is executed. -/
theorem run_of_parse_ok {config : Config} {source : String} (hcheck : config.check = .ok ())
    (hclock : config.timeBudget = none) (hparse : Listing.parse config.duplicates source = .ok listing)
    (engine : Option Engine) :
    run config engine source = untimed config listing config.maxSteps.toNat { engine } := by
  rw [run, runTimed, hcheck, hparse]
  simp [hclock, expired, untimed]

/-- A run that succeeds is one of a valid configuration that ends by itself. -/
theorem ends_of_run {config : Config} (hclock : config.timeBudget = none) {engine : Option Engine}
    {source : String} {outcome : Outcome} (hrun : run config engine source = .ok outcome)
    (hparse : Listing.parse config.duplicates source = .ok listing) :
    config.check = .ok () ∧
      Ends config.missingTarget listing { engine } outcome.steps (.ok outcome) := by
  have hcheck : config.check = .ok () := by
    cases hcheck : config.check with
    | ok _ => rfl
    | error error =>
      rw [run, runTimed, hcheck] at hrun
      cases hrun
  rw [run_of_parse_ok hcheck hclock hparse] at hrun
  refine ⟨hcheck, ?_⟩
  rcases untimed_cases config listing config.maxSteps.toNat { engine } with
    ⟨k, -, hends⟩ | ⟨m, -, hlimit⟩
  · rw [hrun] at hends
    have hsteps : outcome.steps = 0 + k := hends.steps_eq
    rwa [hsteps, Nat.zero_add]
  · cases hrun.symm.trans hlimit

/-- Any positive number of steps will do for a configuration that is valid otherwise. -/
theorem check_maxSteps {config : Config} (hcheck : config.check = .ok ()) {budget : UInt64}
    (hbudget : budget ≠ 0) : Config.check { config with maxSteps := budget } = .ok () := by
  unfold Config.check at hcheck ⊢
  split at hcheck
  · cases hcheck
  · rw [if_neg hbudget]
    exact hcheck

/-- The run of a program with the step budget `budget` in place of that of the configuration. -/
def within (config : Config) (engine : Option Engine) (source : String) (budget : UInt64) :
    Except Failure Outcome :=
  run { config with maxSteps := budget } engine source

/-- The run was given up because a limit was reached. -/
def Exhausted (result : Except Failure Outcome) : Prop :=
  ∃ failure, result = .error failure ∧ failure.error.kind = "ResourceExhausted"

theorem exhausted_stepLimit (steps : Nat) (output : Array String) :
    Exhausted (.error ⟨.stepLimit steps, output⟩) :=
  ⟨_, rfl, rfl⟩

/-- All that a positive budget decides is how far the listing is executed; a run that does not get that
    far fails in one way for all budgets. -/
theorem within_cases (config : Config) (hclock : config.timeBudget = none) (engine : Option Engine)
    (source : String) :
    (∃ failure, ∀ budget, 1 ≤ budget → within config engine source budget = .error failure) ∨
    (∃ listing, ∀ budget, 1 ≤ budget → within config engine source budget =
      untimed { config with maxSteps := budget } listing budget.toNat { engine }) := by
  have hcheck : ∀ budget : UInt64, 1 ≤ budget →
      Config.check { config with maxSteps := budget } = Config.check { config with maxSteps := 1 } := by
    intro budget hbudget
    have hne : budget ≠ 0 := by
      rintro rfl
      exact absurd hbudget (by decide)
    simp only [Config.check, hne, if_false]
    rfl
  cases hfirst : Config.check { config with maxSteps := 1 } with
  | error error =>
    refine Or.inl ⟨⟨.config error, #[]⟩, fun budget hbudget => ?_⟩
    rw [within, run, runTimed, hcheck budget hbudget, hfirst]
    rfl
  | ok _ =>
    cases hparse : Listing.parse config.duplicates source with
    | error error =>
      refine Or.inl ⟨⟨.listing error, #[]⟩, fun budget hbudget => ?_⟩
      rw [within, run, runTimed, hcheck budget hbudget, hfirst]
      simp [hparse]
    | ok listing =>
      refine Or.inr ⟨listing, fun budget hbudget => ?_⟩
      rw [within, run, runTimed, hcheck budget hbudget, hfirst]
      simp [hparse, hclock, expired, untimed]

/-- The run of a program ends by itself with the result: every budget of at least `k` steps is enough,
    every smaller one is used up. -/
structure Settles (config : Config) (engine : Option Engine) (source : String) (k : Nat)
    (result : Except Failure Outcome) : Prop where
  enough : ∀ j : UInt64, 1 ≤ j → k ≤ j.toNat → within config engine source j = result
  short : ∀ j : UInt64, 1 ≤ j → j.toNat < k → Exhausted (within config engine source j)
  steps_eq : ∀ outcome, result = .ok outcome → outcome.steps = k

/-- A budget that is used up cuts the output short and changes nothing of it. -/
def Truncates (config : Config) (engine : Option Engine) (source : String) (m : UInt64) : Prop :=
  Exhausted (within config engine source m) ∧ ∀ m', m ≤ m' →
    printed (within config engine source m) <+: printed (within config engine source m')

theorem settles_of_ends {config : Config} {engine : Option Engine} {source : String}
    (hrun : ∀ budget, 1 ≤ budget → within config engine source budget =
      untimed { config with maxSteps := budget } listing budget.toNat { engine })
    {k : Nat} {result : Except Failure Outcome}
    (hends : Ends config.missingTarget listing { engine } k result) :
    Settles config engine source k result := by
  constructor
  · intro j hj hle
    rw [hrun j hj]
    exact hends.untimed_eq { config with maxSteps := j } hle
  · intro j hj hlt
    obtain ⟨output, hcut⟩ := hends.untimed_eq_stepLimit { config with maxSteps := j } hlt
    rw [hrun j hj, hcut]
    exact exhausted_stepLimit _ _
  · intro outcome hok
    rw [hok] at hends
    rw [hends.steps_eq]
    exact Nat.zero_add k

theorem truncates_of_reaches {config : Config} {engine : Option Engine} {source : String}
    (hrun : ∀ budget, 1 ≤ budget → within config engine source budget =
      untimed { config with maxSteps := budget } listing budget.toNat { engine })
    {m : UInt64} (hm : 1 ≤ m) {m₁ : Machine}
    (hreaches : Reaches config.missingTarget listing { engine } m.toNat m₁)
    (hlimit : within config engine source m = .error ⟨.stepLimit m.toNat, m₁.output⟩) :
    Truncates config engine source m := by
  constructor
  · rw [hlimit]
    exact exhausted_stepLimit _ _
  · -- A larger budget goes on from where this one ended.
    intro m' hle
    obtain ⟨d, hd⟩ := Nat.exists_eq_add_of_le' (UInt64.le_iff_toNat_le.1 hle)
    rw [hlimit, hrun m' (UInt64.le_trans hm hle), hd,
      hreaches.untimed_add { config with maxSteps := m' } d]
    exact prefix_printed_untimed _ listing d m₁

/-- A budget is either enough for a run that ends by itself, or cuts it short. -/
theorem settles_or_truncates (config : Config) (hclock : config.timeBudget = none)
    (engine : Option Engine) (source : String) (m : UInt64) (hm : 1 ≤ m) :
    (∃ k result, k ≤ m.toNat ∧ Settles config engine source k result) ∨
    Truncates config engine source m := by
  rcases within_cases config hclock engine source with ⟨failure, hfail⟩ | ⟨listing, hrun⟩
  · -- The program is never executed, and no budget is needed for that.
    refine Or.inl ⟨0, .error failure, Nat.zero_le _, ⟨fun j hj _ => hfail j hj, ?_, ?_⟩⟩
    · intro j _ hlt
      exact absurd hlt (Nat.not_lt_zero _)
    · intro outcome hok
      cases hok
  · rcases untimed_cases { config with maxSteps := m } listing m.toNat { engine } with
      ⟨k, hk, hends⟩ | ⟨m₁, hreaches, hlimit⟩
    · exact Or.inl ⟨k, _, hk, settles_of_ends hrun hends⟩
    · exact Or.inr (truncates_of_reaches hrun hm hreaches ((hrun m hm).trans hlimit))

/-- **The step budget is exact and only truncates.**  Take any program, any engine with its samples and
    any configuration without a time budget, and a budget `m` of at least one step.
    (a) A run that is not given up is the same with every larger budget.
    (b) A run that succeeds after `k` steps has `k ≤ m`, is the same with every budget from `k` on (and
    from one on), and is given up with every smaller one.
    (c) A run that is given up has printed a prefix of what it prints with any larger budget. -/
theorem within_exact (config : Config) (hclock : config.timeBudget = none) (engine : Option Engine)
    (source : String) (m : UInt64) (hm : 1 ≤ m) :
    (¬ Exhausted (within config engine source m) →
      ∀ m', m ≤ m' → within config engine source m' = within config engine source m) ∧
    (∀ outcome, within config engine source m = .ok outcome →
      outcome.steps ≤ m.toNat ∧
      (∀ j : UInt64, max outcome.steps 1 ≤ j.toNat →
        within config engine source j = within config engine source m) ∧
      (∀ j : UInt64, 1 ≤ j.toNat → j.toNat < outcome.steps →
        Exhausted (within config engine source j))) ∧
    (Exhausted (within config engine source m) →
      ∀ m', m ≤ m' →
        printed (within config engine source m) <+: printed (within config engine source m')) := by
  have hone : ∀ j : UInt64, 1 ≤ j.toNat → 1 ≤ j := by
    intro j hj
    exact UInt64.le_iff_toNat_le.2 hj
  rcases settles_or_truncates config hclock engine source m hm with
    ⟨k, result, hk, hsettles⟩ | ⟨hcut, hprefix⟩
  · have hresult := hsettles.enough m hm hk
    have hsame : ∀ m', m ≤ m' → within config engine source m' = within config engine source m := by
      intro m' hle
      rw [hresult]
      exact hsettles.enough m' (UInt64.le_trans hm hle)
        (Nat.le_trans hk (UInt64.le_iff_toNat_le.1 hle))
    refine ⟨fun _ => hsame, ?_, ?_⟩
    · intro outcome hok
      have hsteps := hsettles.steps_eq outcome (hresult.symm.trans hok)
      rw [hsteps]
      refine ⟨hk, ?_, ?_⟩
      · intro j hj
        rw [hresult]
        exact hsettles.enough j (hone j (by omega)) (by omega)
      · intro j hj hlt
        exact hsettles.short j (hone j hj) hlt
    · intro _ m' hle
      simp only [hsame m' hle, List.prefix_rfl]
  · refine ⟨fun hnot => absurd hcut hnot, ?_, fun _ => hprefix⟩
    intro outcome hok
    rw [hok] at hcut
    obtain ⟨failure, hfailure, -⟩ := hcut
    cases hfailure

/-- A program of two statements ends by its own `END` with a budget of two, and is given up with a
    budget of one. -/
theorem within_exact_two_statements :
    let source := "10 PRINT \"A\"\n20 END"
    within {} none source 5 = .ok ⟨#["A"], none, none, 2⟩ ∧
      within {} none source 2 = within {} none source 5 ∧
      Exhausted (within {} none source 1) ∧
      printed (within {} none source 1) <+: printed (within {} none source 2) := by
  intro source
  have hok : within {} none source 5 = .ok ⟨#["A"], none, none, 2⟩ := by cbv
  obtain ⟨-, hsuccess, -⟩ := within_exact {} rfl none source 5 (by decide)
  obtain ⟨-, hsame, hcut⟩ := hsuccess _ hok
  have hone : Exhausted (within {} none source 1) := hcut 1 (by decide) (by decide)
  obtain ⟨-, -, hprefix⟩ := within_exact {} rfl none source 1 (by decide)
  exact ⟨hok, hsame 2 (by decide), hone, hprefix hone 2 (by decide)⟩

end QubitBasic.Run
