/-
  The statements that a run executes, and that the other ones do not matter.

  `executed` follows a run and collects the machines on which it executes a statement, in order; the
  last of these may fail.  A run decodes a line only when it comes to execute it.  All else that it
  asks of a listing is whether there is a line at an index and which index a number has, and these are
  settled by the numbers of the lines alone (`Listing.SameNumbers.index?_eq`).  So the text of a line
  that is not executed may be anything at all, also a text that is no statement.
-/
import QubitBasic.Proofs.Run.Budget

namespace QubitBasic

/-! ## Listings of the same numbers -/

namespace Listing

/-- The lines have the same numbers, one by one. -/
def SameNumbers (listing listing' : Listing) : Prop :=
  listing.lines.map Line.number = listing'.lines.map Line.number

theorem search_eq_of_numbers {lines lines' : Array Line}
    (h : lines.map Line.number = lines'.map Line.number) (number low high : Nat)
    (bound : high ≤ lines.size) (bound' : high ≤ lines'.size) :
    search lines number low high bound = search lines' number low high bound' := by
  have hnumber : ∀ i (hi : i < lines.size) (hi' : i < lines'.size),
      lines[i].number = lines'[i].number := by
    intro i hi hi'
    have hmap := congrArg (·[i]?) h
    simpa [hi, hi'] using hmap
  fun_induction search lines number low high bound with
  | case1 low high bound hlt middle hmiddle hless ih =>
    have hless' : lines'[middle].number < number := hnumber middle hmiddle (by omega) ▸ hless
    rw [ih bound']
    conv => rhs; rw [search, dif_pos hlt]
    exact (if_pos hless').symm
  | case2 low high bound hlt middle hmiddle hless ih =>
    have hless' : ¬ lines'[middle].number < number := hnumber middle hmiddle (by omega) ▸ hless
    rw [ih (by omega)]
    conv => rhs; rw [search, dif_pos hlt]
    exact (if_neg hless').symm
  | case3 low high bound hlt => rw [search, dif_neg hlt]

namespace SameNumbers

variable {listing listing' : Listing} (h : listing.SameNumbers listing')

include h

theorem number_eq (index : Nat) :
    (listing.line? index).map Line.number = (listing'.line? index).map Line.number := by
  have hmap := congrArg (·[index]?) h
  simpa [line?] using hmap

theorem line?_eq_none {index : Nat} (hline : listing.line? index = none) :
    listing'.line? index = none := by
  have hnumber := h.number_eq index
  rw [hline] at hnumber
  exact Option.map_eq_none_iff.1 hnumber.symm

theorem exists_line? {index : Nat} {line : Line} (hline : listing.line? index = some line) :
    ∃ line', listing'.line? index = some line' ∧ line'.number = line.number := by
  have hnumber := h.number_eq index
  rw [hline] at hnumber
  exact Option.map_eq_some_iff.1 hnumber.symm

/-- A line is found by its number, whatever its text. -/
theorem index?_eq (number : Nat) : listing.index? number = listing'.index? number := by
  have hsize : listing.lines.size = listing'.lines.size := by
    simpa using congrArg Array.size h
  have hsearch : search listing.lines number 0 listing.lines.size (Nat.le_refl _) =
      search listing'.lines number 0 listing'.lines.size (Nat.le_refl _) := by
    rw [search_eq_of_numbers h number 0 listing.lines.size (Nat.le_refl _) (Nat.le_of_eq hsize)]
    simp only [hsize]
  rw [index?, index?, hsearch]
  generalize search listing'.lines number 0 listing'.lines.size (Nat.le_refl _) = index
  cases hline : listing.lines[index]? with
  | none =>
    have hline' : listing'.lines[index]? = none := h.line?_eq_none hline
    rw [hline']
  | some line =>
    obtain ⟨line', hline', hsame⟩ := h.exists_line? hline
    rw [show listing'.lines[index]? = some line' from hline']
    simp only [hsame]

end SameNumbers

end Listing

/-! ## One statement -/

namespace Machine

variable {listing listing' : Listing} (h : listing.SameNumbers listing')

include h

theorem jump_eq_of_numbers (policy : TargetPolicy) (target : Int) :
    jump policy listing target = jump policy listing' target := by
  unfold jump
  rw [h.index?_eq]

/-- A statement does the same in both listings, since all it asks of them is where to jump to. -/
theorem step_eq_of_numbers (policy : TargetPolicy) (line : Line) :
    step policy listing line = step policy listing' line := by
  have hperform : ∀ statement action,
      perform policy listing statement action = perform policy listing' statement action := by
    intro statement action
    cases action with
    | goto target => simp only [perform, jump_eq_of_numbers h]
    | _ => rfl
  have hact : ∀ statement action,
      act policy listing statement action = act policy listing' statement action := by
    intro statement action
    rw [act, act, hperform]
  have hexecute : ∀ text statement,
      execute policy listing text statement = execute policy listing' text statement := by
    intro text statement
    cases statement with
    | simple action => exact hact text action
    | conditional condition action => rw [execute, execute, hact]
  rw [step, step]
  simp only [hexecute]

end Machine

namespace Run

variable {policy : TargetPolicy} {listing listing' : Listing}

/-! ## Executed statements -/

/-- The machines on which a run of at most `fuel` further statements executes them, in order. -/
def executed (policy : TargetPolicy) (listing : Listing) : (fuel : Nat) → Machine → List Machine
  | 0, _ => []
  | fuel + 1, m =>
    match listing.line? m.counter with
    | none => []
    | some line =>
      match Machine.step policy listing line m with
      | .error _ _ => [m]
      | .ok flow after =>
        match after.follow? flow with
        | none => [m]
        | some next => m :: executed policy listing fuel next

theorem executed_offEnd {m : Machine} (hline : listing.line? m.counter = none) (fuel : Nat) :
    executed policy listing fuel m = [] := by
  cases fuel with
  | zero => rfl
  | succ fuel => rw [executed, hline]

theorem executed_failure {m m' : Machine} {line : Line} {error : RunError}
    (hline : listing.line? m.counter = some line)
    (hstep : Machine.step policy listing line m = .error error m') (fuel : Nat) :
    executed policy listing (fuel + 1) m = [m] := by
  rw [executed, hline]
  simp only [hstep]

theorem executed_halt {m m' : Machine} {line : Line} {flow : Flow}
    (hline : listing.line? m.counter = some line)
    (hstep : Machine.step policy listing line m = .ok flow m') (hfollow : m'.follow? flow = none)
    (fuel : Nat) : executed policy listing (fuel + 1) m = [m] := by
  rw [executed, hline]
  simp only [hstep, hfollow]

theorem executed_onward {m m' : Machine} (h : Continues policy listing m m') (fuel : Nat) :
    executed policy listing (fuel + 1) m = m :: executed policy listing fuel m' := by
  obtain ⟨line, flow, after, hline, hstep, hfollow⟩ := h
  rw [executed, hline]
  simp only [hstep, hfollow]

/-! ## Lines that are not executed -/

/-- The run asks a listing for the lines that it executes, and for the numbers of all. -/
theorem untimed_eq_of_executed (config : Config) (hnumbers : listing.SameNumbers listing')
    {fuel : Nat} {m : Machine}
    (hsame : ∀ m' ∈ executed config.missingTarget listing fuel m,
      listing'.line? m'.counter = listing.line? m'.counter) :
    untimed config listing' fuel m = untimed config listing fuel m := by
  induction fuel generalizing m with
  | zero =>
    -- The budget is spent: all that counts is whether a line is still to come.
    cases hline : listing.line? m.counter with
    | none => rw [untimed_offEnd config hline, untimed_offEnd config (hnumbers.line?_eq_none hline)]
    | some line =>
      obtain ⟨line', hline', -⟩ := hnumbers.exists_line? hline
      rw [untimed_zero config hline, untimed_zero config hline']
  | succ fuel ih =>
    cases hline : listing.line? m.counter with
    | none => rw [untimed_offEnd config hline, untimed_offEnd config (hnumbers.line?_eq_none hline)]
    | some line =>
      have hstep' := Machine.step_eq_of_numbers hnumbers config.missingTarget line
      cases hstep : Machine.step config.missingTarget listing line m with
      | error error m₁ =>
        rw [executed_failure hline hstep] at hsame
        have hline' := (hsame m List.mem_cons_self).trans hline
        rw [untimed_failure config hline hstep, untimed_failure config hline' (hstep' ▸ hstep)]
      | ok flow after =>
        cases hfollow : after.follow? flow with
        | none =>
          rw [executed_halt hline hstep hfollow] at hsame
          have hline' := (hsame m List.mem_cons_self).trans hline
          rw [untimed_halt config hline hstep hfollow,
            untimed_halt config hline' (hstep' ▸ hstep) hfollow]
        | some next =>
          have hnext : Continues config.missingTarget listing m next :=
            ⟨line, flow, after, hline, hstep, hfollow⟩
          rw [executed_onward hnext] at hsame
          have hline' := (hsame m List.mem_cons_self).trans hline
          have hnext' : Continues config.missingTarget listing' m next :=
            ⟨line, flow, after, hline', hstep' ▸ hstep, hfollow⟩
          rw [untimed_onward config hnext, untimed_onward config hnext']
          exact ih fun m' hm' => hsame m' (List.mem_cons_of_mem m hm')

/-- **Lines that are not executed do not matter.**  Take two listings of the same numbers that differ
    only in the text of lines which the run of the first listing does not execute.  Without a clock the
    run of the second listing gives the same result, be it an outcome or a failure, and so do the runs
    of any two sources that are read as these listings. -/
theorem unexecuted_lines_do_not_matter {config : Config} (hclock : config.timeBudget = none)
    {engine : Option Engine} {listing listing' : Listing} (hnumbers : listing.SameNumbers listing')
    (hchanged : ∀ index, listing'.line? index ≠ listing.line? index →
      ∀ m ∈ executed config.missingTarget listing config.maxSteps.toNat { engine },
        m.counter ≠ index) :
    untimed config listing' config.maxSteps.toNat { engine } =
      untimed config listing config.maxSteps.toNat { engine } ∧
    ∀ source source', Listing.parse config.duplicates source = .ok listing →
      Listing.parse config.duplicates source' = .ok listing' →
        run config engine source' = run config engine source := by
  have hlistings := untimed_eq_of_executed config hnumbers fun m hm => by
    by_contra hdiffers
    exact hchanged m.counter hdiffers m hm rfl
  refine ⟨hlistings, fun source source' hparse hparse' => ?_⟩
  cases hcheck : config.check with
  | error error =>
    rw [run, run, runTimed, runTimed, hcheck]
  | ok _ =>
    rw [run_of_parse_ok hcheck hclock hparse', run_of_parse_ok hcheck hclock hparse, hlistings]

/-- A line that is jumped over is replaced by a text that is no statement. -/
theorem unexecuted_lines_do_not_matter_jumped_over :
    let source := "10 GOTO 30\n20 PRINT 1\n30 PRINT 2"
    let source' := "10 GOTO 30\n20 FROB ((\n30 PRINT 2"
    Statement.parse "FROB ((" = .error (.unknown "FROB ((") ∧
      run {} none source = .ok ⟨#["2"], none, none, 2⟩ ∧
      run {} none source' = run {} none source := by
  intro source source'
  let listing : Listing := ⟨#[⟨10, "GOTO 30"⟩, ⟨20, "PRINT 1"⟩, ⟨30, "PRINT 2"⟩]⟩
  let listing' : Listing := ⟨#[⟨10, "GOTO 30"⟩, ⟨20, "FROB (("⟩, ⟨30, "PRINT 2"⟩]⟩
  have hparse : Listing.parse .keep source = .ok listing := by decide +kernel
  have hparse' : Listing.parse .keep source' = .ok listing' := by decide +kernel
  have hcounters : (executed .fallThrough listing 1000000 { engine := none }).map (·.counter) =
      [0, 2] := by
    decide +kernel
  have hchanged : ∀ index, listing'.line? index ≠ listing.line? index →
      ∀ m ∈ executed .fallThrough listing 1000000 { engine := none }, m.counter ≠ index := by
    rintro _ hdiffers m hm rfl
    have hcounter := List.mem_map_of_mem (f := (·.counter)) hm
    rw [hcounters] at hcounter
    rcases List.mem_pair.1 hcounter with hzero | htwo
    · exact hdiffers (by rw [hzero]; rfl)
    · exact hdiffers (by rw [htwo]; rfl)
  refine ⟨by decide +kernel, by decide +kernel, ?_⟩
  have hnumbers : listing.SameNumbers listing' := by
    simp [Listing.SameNumbers, listing, listing']
  exact (@unexecuted_lines_do_not_matter {} rfl none listing listing' hnumbers hchanged).2
    source source' hparse hparse'

end Run

end QubitBasic
