/-
  The calls that a run makes to its engine.

  Of the statements that a run executes, those that make a call and complete are listed in order, each
  call with the operands as they were evaluated at the time (`callsOf`).  A call that the engine refuses
  ends the run and is not listed.  The call of the current statement comes first, and then those of the
  rest of the run (`callsOf_onward`).
-/
import QubitBasic.Proofs.Machine.Calls
import QubitBasic.Proofs.Run.Executed

namespace QubitBasic

/-- The call that the current line of a machine makes, if its statement completes. -/
def Machine.completedCall? (policy : TargetPolicy) (listing : Listing) (m : Machine) :
    Option Engine.Call :=
  match listing.line? m.counter with
  | none => none
  | some line =>
    match step policy listing line m with
    | .error _ _ => none
    | .ok _ _ => line.call? m.vars

namespace Run

variable {policy : TargetPolicy} {listing : Listing}

/-- The calls that are completed within `fuel` further statements, in order. -/
def callsOf (policy : TargetPolicy) (listing : Listing) (fuel : Nat) (m : Machine) :
    List Engine.Call :=
  (executed policy listing fuel m).filterMap (Machine.completedCall? policy listing)

/-- The calls that the run of a program completes, in order. -/
def calls (config : Config) (engine : Option Engine) (source : String) : List Engine.Call :=
  match Listing.parse config.duplicates source with
  | .error _ => []
  | .ok listing => callsOf config.missingTarget listing config.maxSteps.toNat { engine }

theorem calls_of_parse_ok {config : Config} {source : String}
    (hparse : Listing.parse config.duplicates source = .ok listing) (engine : Option Engine) :
    calls config engine source =
      callsOf config.missingTarget listing config.maxSteps.toNat { engine } := by
  rw [calls, hparse]

theorem completedCall?_of_ok {m after : Machine} {line : Line} {flow : Flow}
    (hline : listing.line? m.counter = some line)
    (hstep : Machine.step policy listing line m = .ok flow after) :
    m.completedCall? policy listing = line.call? m.vars := by
  rw [Machine.completedCall?, hline]
  simp only [hstep]

theorem callsOf_onward {m m' : Machine} (h : Continues policy listing m m') (fuel : Nat) :
    callsOf policy listing (fuel + 1) m =
      (m.completedCall? policy listing).toList ++ callsOf policy listing fuel m' := by
  rw [callsOf, executed_onward h, List.filterMap_cons, callsOf]
  cases m.completedCall? policy listing <;> rfl

/-- The call of the current statement comes first, however the run goes on. -/
theorem exists_callsOf_succ (policy : TargetPolicy) {m : Machine} {line : Line}
    (hline : listing.line? m.counter = some line) (fuel : Nat) :
    ∃ rest, callsOf policy listing (fuel + 1) m =
      (m.completedCall? policy listing).toList ++ rest := by
  have hexecuted : ∃ rest, executed policy listing (fuel + 1) m = m :: rest := by
    rw [executed, hline]
    simp only
    split
    · exact ⟨[], rfl⟩
    · split
      · exact ⟨[], rfl⟩
      · exact ⟨_, rfl⟩
  obtain ⟨rest, hrest⟩ := hexecuted
  refine ⟨rest.filterMap (Machine.completedCall? policy listing), ?_⟩
  rw [callsOf, hrest, List.filterMap_cons]
  cases m.completedCall? policy listing <;> rfl

end Run

end QubitBasic
