/-
  A remark changes nothing.

  Put a line `REM` of a new number into a source.  The listing has one line more, and all lines behind
  it have moved by one index.  A machine in the old listing and one in the new listing that stands at
  the same line, at an index moved if need be, are `Beside` each other.  They execute the line alike,
  and a jump leads both to the same line again: a jump to the new line is one that fails in the old
  listing, where missing lines are an error (`relocates_inserted`).

  Only where the old machine goes on to the next line the new one may come upon the remark instead.
  It then takes one more step, which does nothing, and is beside the old one again
  (`continues_of_before`).  So a run of `k` steps is matched by one of at most `2 * k`, and of one
  more if the remark is the first line (`Ends.inserted`).
-/
import QubitBasic.Proofs.Listing.Insertion
import QubitBasic.Proofs.Machine.Simulation
import QubitBasic.Proofs.Run.Budget
import QubitBasic.Proofs.Statement.Display

namespace QubitBasic

open Text

/-! ## The line -/

/-- However many blanks a remark ends with, what is left is the word `REM`, alone or before a space. -/
theorem exists_trim_remark (comment : List Char) :
    ∃ rest blanks, "REM ".toList ++ comment = "REM".toList ++ rest ++ blanks ∧ Blanks blanks ∧
      Trimmed ("REM".toList ++ rest) ∧ (rest = [] ∨ ∃ more, rest = ' ' :: more) := by
  have hword : Trimmed "REM".toList := Statement.trimmed_of_any_isBlank (by decide)
  obtain ⟨as, bs, ha, hb, htrimmed, hcomment⟩ := exists_trim comment
  have hspace : Blanks (' ' :: as) := by
    intro c hc
    rcases List.mem_cons.1 hc with rfl | hc
    · decide
    · exact ha c hc
  by_cases hempty : trim comment = []
  · -- A comment of nothing but blanks goes, and the space behind the word with it.
    refine ⟨[], ' ' :: as ++ bs, ?_, ?_, hword, Or.inl rfl⟩
    · rw [hcomment, hempty]
      simp
    · intro c hc
      rcases List.mem_append.1 hc with hc | hc
      · exact hspace c hc
      · exact hb c hc
  · refine ⟨' ' :: as ++ trim comment, bs, ?_, hb, ?_, Or.inr ⟨_, rfl⟩⟩
    · conv => lhs; rw [hcomment]
      simp
    · rw [← List.append_assoc]
      exact hword.append htrimmed (by decide) hempty

/-- The word `REM` makes a remark of all that follows it. -/
theorem Statement.parseChars_remark {rest : List Char} (htrimmed : Trimmed ("REM".toList ++ rest))
    (hrest : rest = [] ∨ ∃ more, rest = ' ' :: more) :
    ∃ text, parseChars ("REM".toList ++ rest) = .ok (.simple (.remark text)) := by
  have hblank : "REM".toList.any isBlank = false := by decide
  have hfirst : ∃ operands, firstWord ("REM".toList ++ rest) = ("REM".toList, operands) := by
    rcases hrest with rfl | ⟨more, rfl⟩
    · exact ⟨[], by rw [List.append_nil, firstWord_of_any_isBlank hblank]⟩
    · exact ⟨trim more, firstWord_append hblank more⟩
  obtain ⟨operands, hoperands⟩ := hfirst
  refine ⟨String.ofList operands, ?_⟩
  have hfind : Keyword.all.find? (·.spelling == upper "REM".toList) = some .remark := by decide
  rw [← htrimmed.trim_eq] at hoperands
  rw [parseChars_keyword hoperands (by decide) hfind]
  rfl

theorem toList_remark (n : Nat) (comment : String) :
    (s!"{n} REM {comment}").toList = toDigits n ++ ' ' :: ("REM ".toList ++ comment.toList) := by
  show (toString n ++ " REM " ++ comment).toList = _
  rw [String.toList_append, String.toList_append, toList_toString, List.append_assoc]
  rfl

theorem newline_not_mem_remark {n : Nat} {comment : String} (h : '\n' ∉ comment.toList) :
    '\n' ∉ (s!"{n} REM {comment}").toList := by
  rw [toList_remark]
  intro hmem
  rcases List.mem_append.1 hmem with hdigit | hrest
  · exact absurd (isDigit_of_mem_toDigits hdigit) (by decide)
  · rw [← List.cons_append] at hrest
    rcases List.mem_append.1 hrest with hword | hcomment
    · exact absurd hword (by decide)
    · exact h hcomment

/-- The text of a numbered remark is written as a line whose statement is a remark. -/
theorem exists_written_remark {n : Nat} (hword : n ≤ greatestWord) (comment : String) :
    ∃ statement text, Line.Written (trim (s!"{n} REM {comment}").toList) ⟨n, statement⟩ ∧
      Statement.parse statement = .ok (.simple (.remark text)) := by
  obtain ⟨rest, blanks, hcomment, hblanks, htrimmed, hrest⟩ := exists_trim_remark comment.toList
  obtain ⟨text, hparse⟩ := Statement.parseChars_remark htrimmed hrest
  obtain ⟨first, more, hdigits, -⟩ := exists_toDigits n
  have hne : toDigits n ≠ [] := by
    rw [hdigits]
    exact List.cons_ne_nil _ _
  have htrim : trim (s!"{n} REM {comment}").toList =
      toDigits n ++ [' '] ++ ("REM".toList ++ rest) := by
    have hline : toDigits n ++ ' ' :: ("REM ".toList ++ comment.toList) =
        [] ++ (toDigits n ++ [' '] ++ ("REM".toList ++ rest)) ++ blanks := by
      rw [hcomment]
      simp
    rw [toList_remark, hline]
    exact trim_append blanks_nil hblanks ((trimmed_toDigits n).append htrimmed hne (by simp))
  refine ⟨String.ofList ("REM".toList ++ rest), text, ?_, ?_⟩
  · rw [htrim]
    have hwritten := Line.Written.intro hne (fun c => isDigit_of_mem_toDigits)
      (by rw [ofDigits_toDigits]; exact hword) (List.cons_ne_nil ' ' []) blanks_space (by simp) htrimmed
    rwa [ofDigits_toDigits] at hwritten
  · rw [Statement.parse, String.toList_ofList]
    exact hparse

/-! ## Machines in the two listings -/

namespace Machine

open Listing (skip Inserted)

variable {position : Nat} {listing listing' : Listing} {line : Line}

/-- The machines agree but for their steps, and the second one stands at the line that the first one
    stands at, in a listing with a further line at `position`. -/
def Beside (position : Nat) (m m' : Machine) : Prop :=
  ∃ steps, m' = { m with counter := skip position m.counter, steps }

/-- The machines agree but for their steps, and the second one stands at the further line, which the
    first one has just passed over. -/
def Before (position : Nat) (m m' : Machine) : Prop :=
  m.counter = position ∧ ∃ steps, m' = { m with steps }

/-- A jump to a line that does not exist. -/
def IsUnknownTarget (error : RunError) : Prop := ∃ target, error = .unknownTarget target

theorem simulation_beside (position : Nat) (excused : RunError → Prop) :
    Simulation (Beside position) excused where
  vars_eq := by
    rintro m _ ⟨steps, rfl⟩
    rfl
  print := by
    rintro m _ ⟨steps, rfl⟩ line
    exact ⟨steps, rfl⟩
  assign := by
    rintro m _ ⟨steps, rfl⟩ name value
    exact ⟨steps, rfl⟩
  count := by
    rintro m _ ⟨steps, rfl⟩
    exact ⟨steps + 1, rfl⟩
  engine := by
    rintro m _ ⟨steps, rfl⟩
    exact Or.inl rfl
  quantum statement operation _ := by
    refine matches_quantum_of_engine_eq excused ?_ ?_ statement operation
    · rintro m _ ⟨steps, rfl⟩
      rfl
    · rintro m _ ⟨steps, rfl⟩ engine
      exact ⟨steps, rfl⟩

/-- Where missing lines are an error, a jump that succeeds is to an old line and leads there still. -/
theorem relocates_inserted (h : Inserted listing listing' position line)
    (hsorted : Listing.Sorted listing.lines.toList) (hsorted' : Listing.Sorted listing'.lines.toList)
    (hnew : ∀ index, ¬ listing.NumberedAt index line.number) :
    Relocates IsUnknownTarget (skip position) .strict .strict listing listing' := by
  intro target
  unfold jump
  cases hindex : if 0 ≤ target then listing.index? target.toNat else none with
  | none => exact Or.inr ⟨.unknownTarget target, rfl, target, rfl⟩
  | some index =>
    left
    split at hindex
    case isFalse _ => cases hindex
    case isTrue htarget =>
      -- What was found is an old line, so the target is not the new number.
      have hne : line.number ≠ target.toNat := by
        intro hnumber
        rcases Listing.index?_cases hsorted target.toNat with ⟨found, -, hfound, -⟩ | ⟨hnone, -⟩
        · exact hnew found (hnumber ▸ hfound)
        · cases hindex.symm.trans hnone
      rw [if_pos htarget, h.index?_eq hsorted hsorted' hne hindex]
      rfl

/-- A remark is passed over. -/
theorem step_remark (policy : TargetPolicy) (listing : Listing) {text : String}
    (hparse : Statement.parse line.statement = .ok (.simple (.remark text))) (m : Machine) :
    step policy listing line m = .ok .next { m with steps := m.steps + 1 } := by
  have hcount : (modify fun m => { m with steps := m.steps + 1 } : Step Unit) m =
      .ok () { m with steps := m.steps + 1 } := rfl
  rw [step, bind_of_ok hcount, hparse]
  show act policy listing line.statement (.remark text) _ = _
  rw [act_of_not_engineMissing (by rfl)]
  rfl

/-- Machines beside each other go on to the same line, or the second one comes upon the further line
    first. -/
theorem Beside.follow? {m m' next : Machine} (h : Beside position m m') {flow : Flow}
    (hfollow : m.follow? flow = some next) :
    ∃ next', m'.follow? (flow.relocate (skip position)) = some next' ∧
      (Beside position next next' ∨ Before position next next') := by
  obtain ⟨steps, rfl⟩ := h
  cases flow with
  | next =>
    obtain rfl := Option.some.inj hfollow
    refine ⟨_, rfl, ?_⟩
    by_cases hposition : m.counter + 1 = position
    · -- The next line of the old listing is the one that the further line was put before.
      have hskip : skip position m.counter = m.counter := by
        rw [skip, if_pos (by omega)]
      refine Or.inr ⟨hposition, steps, ?_⟩
      rw [hskip]
    · have hskip : skip position m.counter + 1 = skip position (m.counter + 1) := by
        unfold skip
        split <;> split <;> omega
      refine Or.inl ⟨steps, ?_⟩
      rw [hskip]
  | jump index =>
    obtain rfl := Option.some.inj hfollow
    exact ⟨_, rfl, Or.inl ⟨steps, rfl⟩⟩
  | halt => cases hfollow

end Machine

/-! ## Runs of the two listings -/

namespace Run

open Machine (Beside Before IsUnknownTarget Relocates)
open Listing (skip Inserted)

variable {position : Nat} {listing listing' : Listing} {line : Line}

/-- The remark is one step to where the machines are beside each other. -/
theorem continues_of_before {policy : TargetPolicy} (h : Inserted listing listing' position line)
    {text : String} (hparse : Statement.parse line.statement = .ok (.simple (.remark text)))
    {m m' : Machine} (hbefore : Before position m m') :
    ∃ m'', Continues policy listing' m' m'' ∧ Beside position m m'' := by
  obtain ⟨hcounter, steps, rfl⟩ := hbefore
  refine ⟨{ m with counter := m.counter + 1, steps := steps + 1 },
    ⟨line, .next, { m with steps := steps + 1 }, ?_, ?_, rfl⟩, ?_⟩
  · show listing'.line? m.counter = some line
    rw [hcounter, h.line?_position]
  · exact Machine.step_remark policy listing' hparse { m with steps }
  · refine ⟨steps + 1, ?_⟩
    rw [skip, if_neg (by omega)]

/-- One line that does not fail, executed on machines beside each other. -/
theorem step_beside (h : Inserted listing listing' position line)
    (hjump : Relocates IsUnknownTarget (skip position) .strict .strict listing listing')
    {m m' after : Machine} (hbeside : Beside position m m') {current : Line} {flow : Flow}
    (hline : listing.line? m.counter = some current)
    (hstep : Machine.step .strict listing current m = .ok flow after) :
    ∃ after', listing'.line? m'.counter = some current ∧
      Machine.step .strict listing' current m' = .ok (flow.relocate (skip position)) after' ∧
      Beside position after after' := by
  have hline' : listing'.line? m'.counter = some current := by
    obtain ⟨steps, rfl⟩ := hbeside
    exact (h.line?_skip m.counter).trans hline
  have halike := (Machine.simulation_beside position IsUnknownTarget).matches_step hjump current hbeside
  rw [map_of_ok _ hstep] at halike
  generalize hr : Machine.step .strict listing' current m' = r at halike
  cases halike with
  | ok hafter => exact ⟨_, hline', rfl, hafter⟩

/-- **The run with the remark.**  A run that succeeds after `k` steps is matched step by step, with at
    most one step more for each of its own. -/
theorem Ends.inserted (h : Inserted listing listing' position line)
    (hjump : Relocates IsUnknownTarget (skip position) .strict .strict listing listing')
    {text : String} (hparse : Statement.parse line.statement = .ok (.simple (.remark text)))
    {m m' : Machine} {k : Nat} {outcome : Outcome} (hends : Ends .strict listing m k (.ok outcome))
    (hbeside : Beside position m m') :
    ∃ k' steps, k ≤ k' ∧ k' ≤ 2 * k ∧ Ends .strict listing' m' k' (.ok { outcome with steps }) := by
  -- By induction on the old run.  Before each of its steps the machines are beside each other; the new
  -- one is free to take a step of its own to get there.
  generalize hresult : Except.ok outcome = result at hends
  induction hends generalizing m' with
  | @offEnd m hline =>
    obtain rfl := Except.ok.inj hresult
    obtain ⟨steps, rfl⟩ := hbeside
    exact ⟨0, steps, Nat.le_refl 0, Nat.le_refl 0, .offEnd ((h.line?_skip m.counter).trans hline)⟩
  | failure _ _ => cases hresult
  | @halt m after current flow hline hstep hfollow =>
    obtain rfl := Except.ok.inj hresult
    obtain ⟨after', hline', hstep', hafter⟩ := step_beside h hjump hbeside hline hstep
    have hfollow' : after'.follow? (flow.relocate (skip position)) = none := by
      cases flow with
      | next => cases hfollow
      | jump index => cases hfollow
      | halt => rfl
    obtain ⟨steps, rfl⟩ := hafter
    exact ⟨1, steps, Nat.le_refl 1, by omega, .halt hline' hstep' hfollow'⟩
  | @onward m m₁ k result hnext _ ih =>
    obtain ⟨current, flow, after, hline, hstep, hfollow⟩ := hnext
    obtain ⟨after', hline', hstep', hafter⟩ := step_beside h hjump hbeside hline hstep
    obtain ⟨m₁', hfollow', hnear⟩ := hafter.follow? hfollow
    have hnext' : Continues .strict listing' m' m₁' := ⟨current, _, after', hline', hstep', hfollow'⟩
    rcases hnear with hbeside₁ | hbefore
    · obtain ⟨k', steps, hle, hle', hends'⟩ := ih hbeside₁ hresult
      exact ⟨k' + 1, steps, by omega, by omega, .onward hnext' hends'⟩
    · -- The remark comes in between.
      obtain ⟨m₂, hremark, hbeside₂⟩ := continues_of_before h hparse hbefore
      obtain ⟨k', steps, hle, hle', hends'⟩ := ih hbeside₂ hresult
      exact ⟨k' + 2, steps, by omega, by omega, .onward hnext' (.onward hremark hends')⟩

/-- From the first line on, which may be the remark itself. -/
theorem Ends.inserted_first (h : Inserted listing listing' position line)
    (hjump : Relocates IsUnknownTarget (skip position) .strict .strict listing listing')
    {text : String} (hparse : Statement.parse line.statement = .ok (.simple (.remark text)))
    {m : Machine} {k : Nat} {outcome : Outcome} (hends : Ends .strict listing m k (.ok outcome))
    (hfirst : m.counter = 0) :
    ∃ k' steps, k ≤ k' ∧ k' ≤ 2 * k + 1 ∧ Ends .strict listing' m k' (.ok { outcome with steps }) := by
  rcases Nat.eq_zero_or_pos position with rfl | hpos
  · have hbefore : Before 0 m m := ⟨hfirst, m.steps, rfl⟩
    obtain ⟨m', hnext, hbeside⟩ := continues_of_before h hparse hbefore
    obtain ⟨k', steps, hle, hle', hends'⟩ := hends.inserted h hjump hparse hbeside
    exact ⟨k' + 1, steps, by omega, by omega, .onward hnext hends'⟩
  · have hbeside : Beside position m m := by
      refine ⟨m.steps, ?_⟩
      rw [skip, if_pos (by omega)]
    obtain ⟨k', steps, hle, hle', hends'⟩ := hends.inserted h hjump hparse hbeside
    exact ⟨k', steps, hle, by omega, hends'⟩

/-! ## Whole runs -/

/-- **A remark changes nothing.**  Let a program run successfully, where missing lines are an error and
    there is no clock.  Put a line `n REM comment` anywhere into its source, of a number of at most 64
    bits that no line has, and allow for `2 * k + 1` steps, where the run took `k`.  Then the run
    succeeds with the same output, probabilities and circuit, in at least `k` and at most `2 * k + 1`
    steps. -/
theorem remark_changes_nothing {config : Config} (hstrict : config.missingTarget = .strict)
    (hclock : config.timeBudget = none) {engine : Option Engine} {source : String} {outcome : Outcome}
    (hrun : run config engine source = .ok outcome) {listing : Listing}
    (hparse : Listing.parse config.duplicates source = .ok listing) {n : Nat}
    (hword : n ≤ greatestWord) (hnew : ∀ line ∈ listing.lines, line.number ≠ n) {comment : String}
    (hcomment : '\n' ∉ comment.toList) (position : Nat) {budget : UInt64}
    (hbudget : 2 * outcome.steps + 1 ≤ budget.toNat) :
    ∃ steps, outcome.steps ≤ steps ∧ steps ≤ 2 * outcome.steps + 1 ∧
      run { config with maxSteps := budget } engine
          (Listing.insertLine position s!"{n} REM {comment}" source) =
        .ok { outcome with steps } := by
  obtain ⟨hcheck, hends⟩ := ends_of_run hclock hrun hparse
  obtain ⟨statement, text, hwritten, hremark⟩ := exists_written_remark hword comment
  have hparse' := Listing.parse_insertLine hparse (newline_not_mem_remark hcomment) hwritten hnew position
  have hsorted := Listing.sorted_of_parse hparse
  obtain ⟨place, hinserted⟩ := Listing.exists_inserted ⟨n, statement⟩ listing.lines.toList
  have hjump := Machine.relocates_inserted hinserted hsorted (hsorted.insert _) (by
    rintro index hnumbered
    obtain ⟨hsize, hnumber⟩ := Listing.numberedAt_iff.1 hnumbered
    exact hnew _ (Array.getElem_mem hsize) hnumber)
  rw [hstrict] at hends
  obtain ⟨k', steps, hle, hle', hends'⟩ := hends.inserted_first hinserted hjump hremark rfl
  have hsteps : steps = 0 + k' := hends'.steps_eq
  obtain rfl : steps = k' := by omega
  refine ⟨steps, hle, hle', ?_⟩
  have hpositive : budget ≠ 0 := by
    rintro rfl
    cases hbudget
  have hrun' := run_of_parse_ok (check_maxSteps hcheck hpositive) hclock hparse' engine
  rw [hrun']
  refine Ends.untimed_eq { config with maxSteps := budget } ?_ (by show steps ≤ budget.toNat; omega)
  rw [hstrict]
  exact hends'

/-- A remark in a loop, written at the end of the source, between the line that the loop jumps from and
    the one that it jumps to. -/
theorem remark_changes_nothing_in_loop :
    let source := "10 LET N = 0\n20 LET N = N + 1\n30 IF N < 3 THEN 20\n40 PRINT N"
    let config : Config := { missingTarget := .strict }
    run config none source = .ok ⟨#["3"], none, none, 8⟩ ∧
      ∃ steps, 8 ≤ steps ∧ steps ≤ 17 ∧
        run { config with maxSteps := 17 } none (Listing.insertLine 4 "25 REM once more" source) =
          .ok ⟨#["3"], none, none, steps⟩ := by
  intro source config
  have hrun : run config none source = .ok ⟨#["3"], none, none, 8⟩ := by decide +kernel
  have hparse : Listing.parse .keep source = .ok ⟨#[⟨10, "LET N = 0"⟩, ⟨20, "LET N = N + 1"⟩,
      ⟨30, "IF N < 3 THEN 20"⟩, ⟨40, "PRINT N"⟩]⟩ := by
    decide +kernel
  have hcomment : '\n' ∉ "once more".toList := by decide
  have hbudget : 2 * 8 + 1 ≤ (17 : UInt64).toNat := by decide
  have hchanged := remark_changes_nothing rfl rfl hrun hparse (n := 25) (by decide) (by decide)
    hcomment 4 hbudget
  exact ⟨hrun, hchanged⟩

end Run

end QubitBasic
