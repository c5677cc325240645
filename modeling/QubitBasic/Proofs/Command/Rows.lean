/-
  The command line shows each line of output in one row.

  The rows of a report are what its text is cut into at line feeds.  As text, a line of output is shown
  as it is, behind two spaces if the run succeeded; so it takes one row because it holds no line feed,
  which is the invariant of runs.  As JSON it is quoted, with its line feeds, if it had any, escaped,
  and takes one row because the items of an array stand in rows of their own.

  What `run` prints is the report of the run that it starts, so it is never empty; only where a file
  cannot be used, nothing is printed.
-/
import QubitBasic.Proofs.Command.Files
import QubitBasic.Proofs.Run.SingleLines

namespace QubitBasic

open Text

namespace Report

/-- The rows that a report prints; the last is what follows the last line feed. -/
def rows (report : Report) : List (List Char) := Text.lines report.stdout.toList

/-! ## Rows of text -/

/-- Each line gives the rows that it is cut into. -/
theorem lines_unlines (lines : List String) :
    Text.lines (unlines lines).toList = (lines.flatMap fun line => Text.lines line.toList) ++ [[]] := by
  induction lines with
  | nil => rfl
  | cons line lines ih =>
    have hcons : (unlines (line :: lines)).toList = line.toList ++ '\n' :: (unlines lines).toList := by
      simp [unlines]
    rw [hcons, Text.lines, pieces_append, List.flatMap_cons, List.append_assoc, ← ih]
    rfl

/-- Lines without line feeds are rows, whatever stands above and below. -/
theorem lines_unlines_append {entries : List String} (h : ∀ entry ∈ entries, SingleLine entry)
    (above below : List String) :
    Text.lines (unlines (above ++ entries ++ below)).toList =
      (above.flatMap fun line => Text.lines line.toList) ++ entries.map String.toList ++
        Text.lines (unlines below).toList := by
  have hentries : (entries.flatMap fun line => Text.lines line.toList) = entries.map String.toList := by
    rw [List.map_eq_flatMap]
    exact List.flatMap_congr fun entry hentry => pieces_of_not_mem (h entry hentry)
  rw [lines_unlines, lines_unlines, List.flatMap_append, List.flatMap_append, hentries,
    List.append_assoc]

end Report

namespace Run

/-- The result of a run with its output left out. -/
def silenced : Except Failure Outcome → Except Failure Outcome
  | .ok outcome => .ok { outcome with output := #[] }
  | .error failure => .error { failure with output := #[] }

/-- What stands before a line of output when the result is shown as text. -/
def indent : Except Failure Outcome → String
  | .ok _ => "  "
  | .error _ => ""

end Run

namespace Report

open Run (printed silenced indent)

/-- Around the lines of output an outcome is shown in the same way whatever they are. -/
theorem exists_outcomeLines (outcome : Run.Outcome) : ∃ quantum, ∀ output : Array String,
    outcomeLines { outcome with output } =
      "Output:" :: (output.toList.map fun entry => "  " ++ entry) ++ "" :: quantum :=
  -- What stands below the two lines of an empty output.
  ⟨(outcomeLines { outcome with output := #[] }).drop 2, fun _ => rfl⟩

/-- Every result at a path is shown under the same heading. -/
theorem exists_heading (path : String) : ∃ heading, heading ≠ [] ∧
    (∀ outcome, (ofResult path (.ok outcome)).stdout = unlines (heading ++ outcomeLines outcome)) ∧
    ∀ failure, (ofResult path (.error failure)).stdout =
      unlines (heading ++ failure.output.toList) := by
  refine ⟨?heading, ?nonempty, ?ok, ?error⟩
  case ok =>
    intro outcome
    simp only [ofResult]
    rfl
  case error =>
    intro failure
    simp only [ofResult]
  case nonempty => exact List.append_ne_nil_of_left_ne_nil (List.cons_ne_nil _ _) _

/-- The lines of output stand between other lines, which are the same without output. -/
theorem exists_stdout_ofResult (path : String) (result : Except Run.Failure Run.Outcome) :
    ∃ above below, (ofResult path result).stdout =
        unlines (above ++ ((printed result).map fun entry => indent result ++ entry) ++ below) ∧
      (ofResult path (silenced result)).stdout = unlines (above ++ below) := by
  obtain ⟨heading, -, hok, herror⟩ := exists_heading path
  cases result with
  | ok outcome =>
    obtain ⟨quantum, hlines⟩ := exists_outcomeLines outcome
    refine ⟨heading ++ ["Output:"], "" :: quantum, ?_, ?_⟩
    · rw [hok, show outcomeLines outcome = _ from hlines outcome.output]
      simp [printed, indent]
    · rw [silenced, hok, hlines #[]]
      simp
  | error failure =>
    refine ⟨heading, [], ?_, ?_⟩
    · rw [herror]
      simp [printed, indent]
    · rw [silenced, herror]

/-- As text each line of output takes one row, and there are no other rows than without output. -/
theorem exists_rows_ofResult (path : String) {result : Except Run.Failure Run.Outcome}
    (h : ∀ entry ∈ printed result, SingleLine entry) :
    ∃ above below, (ofResult path result).rows =
        above ++ ((printed result).map fun entry => (indent result ++ entry).toList) ++ below ∧
      (ofResult path (silenced result)).rows = above ++ below := by
  obtain ⟨above, below, hstdout, hsilenced⟩ := exists_stdout_ofResult path result
  have hindent : SingleLine (indent result) := by
    cases result with
    | ok outcome => exact (by decide : SingleLine "  ")
    | error failure => exact (by decide : SingleLine "")
  have hentries : ∀ entry ∈ (printed result).map fun entry => indent result ++ entry,
      SingleLine entry := by
    intro entry hentry
    obtain ⟨entry', hentry', rfl⟩ := List.mem_map.1 hentry
    exact hindent.append (h entry' hentry')
  refine ⟨above.flatMap fun line => Text.lines line.toList, Text.lines (unlines below).toList, ?_, ?_⟩
  · rw [rows, hstdout, lines_unlines_append hentries, List.map_map]
    rfl
  · rw [rows, hsilenced, lines_unlines, lines_unlines, List.flatMap_append, List.append_assoc]

end Report

/-! ## Rows of JSON -/

namespace Json

theorem newline_ne_digitChar {n : Nat} (h : n < 16) : '\n' ≠ Nat.digitChar n := by
  revert n
  decide

/-- Every control character is escaped, line feeds among them. -/
theorem newline_not_mem_escape (c : Char) : '\n' ∉ escape c := by
  unfold escape
  split_ifs with _ _ hnewline _ _ _ _ hcontrol <;> try decide
  · have hhigh := newline_ne_digitChar (n := c.toNat / 16) (by omega)
    have hlow := newline_ne_digitChar (n := c.toNat % 16) (by omega)
    simp [hhigh, hlow]
  · simpa using fun heq => hnewline heq.symm

theorem newline_not_mem_quote (s : String) : '\n' ∉ quote (some s) := by
  rw [quote]
  simp [newline_not_mem_escape]

/-- The style in which items and members stand in rows of their own. -/
def rowStyle : Style := ⟨fun level => '\n' :: List.replicate (2 * level) ' ', [':', ' ']⟩

theorem toList_pretty (json : Json) : json.pretty.toList = write rowStyle 0 json := by
  rw [pretty, String.toList_ofList]
  rfl

theorem writeMembers_append (style : Style) (level : Nat) (as bs : List (Option String × Json)) :
    writeMembers style level (as ++ bs) =
      writeMembers style level as ++ writeMembers style level bs := by
  induction as with
  | nil => rw [List.nil_append, writeMembers, List.nil_append]
  | cons a as ih =>
    rw [List.cons_append, writeMembers, writeMembers, ih]
    simp

/-- A member with another one behind it, as it stands in its object. -/
theorem exists_write_object (level : Nat) (before behind : List (Option String × Json))
    (name : Option String) (next : Option String × Json) : ∃ left right, ∀ value,
      write rowStyle level (.object (before ++ (name, value) :: next :: behind)) =
        left ++ '\n' :: (List.replicate (2 * (level + 1)) ' ' ++ quote name ++ [':', ' '] ++
          write rowStyle (level + 1) value ++ ',' :: '\n' :: right) := by
  obtain ⟨nextName, nextValue⟩ := next
  let right := List.replicate (2 * (level + 1)) ' ' ++ quote nextName ++ [':', ' '] ++
    write rowStyle (level + 1) nextValue ++ writeMembers rowStyle (level + 1) behind ++
    rowStyle.lineBreak level ++ ['\x7d']
  cases before with
  | nil =>
    refine ⟨['\x7b'], right, fun value => ?_⟩
    simp [right, write, writeMembers, rowStyle]
  | cons first before =>
    obtain ⟨firstName, firstValue⟩ := first
    refine ⟨'\x7b' :: rowStyle.lineBreak (level + 1) ++ quote firstName ++ rowStyle.colon ++
      write rowStyle (level + 1) firstValue ++ writeMembers rowStyle (level + 1) before ++ [','],
      right, fun value => ?_⟩
    simp [right, write, writeMembers, writeMembers_append, rowStyle]

end Json

namespace Report

open Json (quote write writeItems rowStyle)
open Run (printed)

/-- The rows of the items of an array of texts: all but the last end in a comma. -/
def itemRows : List String → List (List Char)
  | [] => []
  | [entry] => [List.replicate 4 ' ' ++ quote (some entry)]
  | entry :: next :: rest =>
    (List.replicate 4 ' ' ++ quote (some entry) ++ [',']) :: itemRows (next :: rest)

/-- The rows that show the output of a run as JSON. -/
def outputRows : List String → List (List Char)
  | [] => ["  \"output\": [],".toList]
  | entries => "  \"output\": [".toList :: itemRows entries ++ ["  ],".toList]

theorem length_itemRows (entries : List String) : (itemRows entries).length = entries.length := by
  fun_induction itemRows entries with
  | case1 => rfl
  | case2 entry => rfl
  | case3 entry next rest ih => rw [List.length_cons, ih, ← List.length_cons]

theorem newline_not_mem_item (entry : String) :
    '\n' ∉ List.replicate 4 ' ' ++ quote (some entry) := by
  rw [List.mem_append]
  rintro (hspace | hquote)
  · exact absurd (List.eq_of_mem_replicate hspace) (by decide)
  · exact Json.newline_not_mem_quote entry hquote

/-- The items of an array are cut apart at the ends of their rows. -/
theorem lines_items (entry : String) (entries : List String) (rest : List Char) :
    Text.lines (List.replicate 4 ' ' ++ quote (some entry) ++
        writeItems rowStyle 2 (entries.map .ofString) ++ '\n' :: rest) =
      itemRows (entry :: entries) ++ Text.lines rest := by
  induction entries generalizing entry with
  | nil =>
    rw [List.map_nil, writeItems, List.append_nil, itemRows]
    exact pieces_append_cons (newline_not_mem_item entry) rest
  | cons next entries ih =>
    have hcomma : '\n' ∉ List.replicate 4 ' ' ++ quote (some entry) ++ [','] := by
      rw [List.mem_append]
      exact fun h => h.elim (newline_not_mem_item entry) (by decide)
    -- The comma that is written with the next item ends the row of this one.
    have hitem : writeItems rowStyle 2 ((next :: entries).map .ofString) =
        ',' :: '\n' :: (List.replicate 4 ' ' ++ quote (some next) ++
          writeItems rowStyle 2 (entries.map .ofString)) := by
      simp [writeItems, Json.ofString, write, rowStyle]
    rw [itemRows, List.cons_append, ← ih, hitem]
    refine Eq.trans (congrArg Text.lines ?_) (pieces_append_cons hcomma _)
    simp

/-- The member that holds the output, with what follows its comma. -/
theorem lines_outputMember (entries : List String) (rest : List Char) :
    Text.lines (List.replicate 2 ' ' ++ quote (some "output") ++ [':', ' '] ++
        write rowStyle 1 (.array (entries.map .ofString)) ++ ',' :: '\n' :: rest) =
      outputRows entries ++ Text.lines rest := by
  have hname : List.replicate 2 ' ' ++ quote (some "output") ++ [':', ' '] =
      "  \"output\": ".toList := by decide
  rw [hname]
  cases entries with
  | nil =>
    have harray : write rowStyle 1 (.array ([].map .ofString)) = ['[', ']'] := by
      rw [List.map_nil, write]
    rw [harray, outputRows]
    refine Eq.trans (congrArg Text.lines ?_)
      (@pieces_append_cons '\n' "  \"output\": [],".toList (by decide) rest)
    simp
  | cons entry entries =>
    have harray : write rowStyle 1 (.array ((entry :: entries).map .ofString)) =
        '[' :: '\n' :: (List.replicate 4 ' ' ++ quote (some entry) ++
          writeItems rowStyle 2 (entries.map .ofString) ++ '\n' :: "  ]".toList) := by
      simp [write, Json.ofString, rowStyle]
    have hclosing : Text.lines ("  ],".toList ++ '\n' :: rest) = "  ],".toList :: Text.lines rest :=
      pieces_append_cons (by decide) rest
    have hitems := lines_items entry entries ("  ],".toList ++ '\n' :: rest)
    rw [hclosing] at hitems
    have hrows : outputRows (entry :: entries) ++ Text.lines rest =
        "  \"output\": [".toList ::
          (itemRows (entry :: entries) ++ "  ],".toList :: Text.lines rest) := by
      simp [outputRows]
    rw [hrows, ← hitems, harray]
    refine Eq.trans (congrArg Text.lines ?_)
      (@pieces_append_cons '\n' "  \"output\": [".toList (by decide) _)
    simp

/-- The output of a run is a member of its result as JSON with another member behind it. -/
theorem exists_resultJson (result : Except Run.Failure Run.Outcome) : ∃ before next behind,
    resultJson result = .object
      (before ++ (some "output", .array ((printed result).map .ofString)) :: next :: behind) := by
  cases result with
  | ok outcome =>
    let circuit := outcome.circuit.toList.map fun c => (some "circuitTrace", circuitJson c)
    let success := (some "success", Json.bool true)
    cases hstate : outcome.probabilities with
    | none =>
      refine ⟨circuit, success, [], ?_⟩
      simp [resultJson, Json.ofMembers, hstate, circuit, success, printed, outputJson,
        Function.comp_def]
    | some probabilities =>
      refine ⟨circuit, (some "quantumState", .array (probabilities.toList.map .real)), [success], ?_⟩
      simp [resultJson, Json.ofMembers, hstate, circuit, success, printed, outputJson,
        Function.comp_def]
  | error failure =>
    exact ⟨[(some "error", .ofString failure.error.message),
      (some "kind", .ofString failure.error.kind)], (some "success", .bool false), [], rfl⟩

/-- As JSON each line of output takes one row between those of the brackets. -/
theorem exists_rows_ofResultJson (result : Except Run.Failure Run.Outcome) :
    ∃ above below, (ofResultJson result).rows = above ++ outputRows (printed result) ++ below := by
  obtain ⟨before, next, behind, hjson⟩ := exists_resultJson result
  obtain ⟨left, right, hwrite⟩ := Json.exists_write_object 0 before behind (some "output") next
  refine ⟨Text.lines left, Text.lines right ++ [[]], ?_⟩
  have hstdout : (ofResultJson result).rows = Text.lines (resultJson result).pretty.toList ++ [[]] := by
    rw [rows, ofResultJson, lines_unlines, List.flatMap_singleton]
  rw [hstdout, Json.toList_pretty, hjson, hwrite, Text.lines, pieces_append]
  show Text.lines left ++ Text.lines _ ++ [[]] = _
  rw [lines_outputMember]
  simp

/-! ## Empty reports -/

theorem unlines_ne_empty {lines : List String} (h : lines ≠ []) : unlines lines ≠ "" := by
  obtain ⟨line, lines, rfl⟩ := List.exists_cons_of_ne_nil h
  simp [unlines]

theorem stdout_ofResult_ne_empty (path : String) (result : Except Run.Failure Run.Outcome) :
    (ofResult path result).stdout ≠ "" := by
  obtain ⟨heading, hheading, hok, herror⟩ := exists_heading path
  cases result with
  | ok outcome =>
    rw [hok]
    exact unlines_ne_empty (List.append_ne_nil_of_left_ne_nil hheading _)
  | error failure =>
    rw [herror]
    exact unlines_ne_empty (List.append_ne_nil_of_left_ne_nil hheading _)

theorem stdout_ofResultJson_ne_empty (result : Except Run.Failure Run.Outcome) :
    (ofResultJson result).stdout ≠ "" :=
  unlines_ne_empty (List.cons_ne_nil _ _)

end Report

/-! ## The command line -/

namespace Command

open Run (printed silenced indent)

/-- The report of a run is never empty, and no other report of `run` prints anything. -/
theorem stdout_runFile_eq_empty_iff {σ : Type} (host : Host (StateM σ)) (arguments : RunArguments)
    (s : σ) : ((runFile host arguments).run s).1.stdout = "" ↔
      ∃ message, Unusable host arguments s message := by
  constructor
  · intro hempty
    rcases unusable_or_starts host arguments s with hunusable | ⟨start, hstart⟩
    · exact hunusable
    · rw [hstart.runFile_eq] at hempty
      split at hempty
      · exact absurd hempty (Report.stdout_ofResultJson_ne_empty _)
      · exact absurd hempty (Report.stdout_ofResult_ne_empty _ _)
  · rintro ⟨message, hunusable⟩
    rw [hunusable.runFile_eq]
    rfl

/-- **Output is single lines.**
    (a) On every machine that a run reaches, and on every one that a statement leaves there, completed
    or failed, no line of output, no variable and no text in a variable holds a line feed, and the
    variables are identifiers.
    (b) So whatever the configuration, the engine and the clock, what a run has printed when it ends or
    fails are single lines.  Shown as text they take one row each, and there are no other rows than
    those of the same result without output; shown as JSON they take one row each between those of the
    brackets.
    (c) These are the rows of the command line.  With arguments that it understands, `run` loads a
    configuration, reads a program and reports the result of running it, as text or as JSON.  Only where
    a file cannot be used there is no such run; then there is a message in its place, and nothing is
    printed, which happens in no other case. -/
theorem output_entries_are_single_lines :
    (∀ (config : Config) (engine : Option Engine) (source : String) (listing : Listing),
      Listing.parse config.duplicates source = .ok listing →
      ∀ k m, Run.Reaches config.missingTarget listing { engine } k m →
      ∀ m', (m' = m ∨ ∃ line, listing.line? m.counter = some line ∧
          m' = finalState (Machine.step config.missingTarget listing line) m) →
        (∀ entry ∈ m'.output, SingleLine entry) ∧
        ∀ name value, (name, value) ∈ m'.vars.bindings →
          isIdentifier name.toList = true ∧ SingleLine name ∧
            ∀ text, value = .text text → SingleLine text) ∧
    (∀ (σ : Type) (elapsed : StateM σ Nat) (clock : σ) (config : Config) (engine : Option Engine)
        (source path : String),
      let result := ((runTimed elapsed config engine source).run clock).1
      (∀ entry ∈ printed result, SingleLine entry) ∧
      (∃ above below, (Report.ofResult path result).rows =
          above ++ ((printed result).map fun entry => (indent result ++ entry).toList) ++ below ∧
        (Report.ofResult path (silenced result)).rows = above ++ below) ∧
      (∃ above below, (Report.ofResultJson result).rows =
          above ++ Report.outputRows (printed result) ++ below) ∧
        (Report.itemRows (printed result)).length = (printed result).length) ∧
    (∀ (σ : Type) (host : Host (StateM σ)) (words : List String) (s : σ),
      let report := ((carryOut host (.run words)).run s).1
      (∀ error, RunArguments.parse words = .error error → report = .failure error.message) ∧
      ∀ arguments, RunArguments.parse words = .ok arguments →
        (∀ start, Starts host arguments s start →
          report = if arguments.json then .ofResultJson start.result
            else .ofResult arguments.path start.result) ∧
        (∀ message, Unusable host arguments s message → report = .failure message) ∧
        (report.stdout = "" ↔ ∃ message, Unusable host arguments s message) ∧
        ((∃ message, Unusable host arguments s message) ∨
          ∃ start, Starts host arguments s start)) := by
  refine ⟨?_, ?_, ?_⟩
  · intro config engine source listing hparse k m hreaches m' hm'
    have hlisting := Listing.singleLines_of_parse hparse
    have hm := hreaches.singleLines hlisting (Machine.singleLines_initial engine)
    have hsingle : m'.SingleLines := by
      rcases hm' with rfl | ⟨line, hline, rfl⟩
      · exact hm
      · exact hm.step config.missingTarget listing (hlisting _ _ hline)
    refine ⟨hsingle.output, fun name value hmem => ?_⟩
    obtain ⟨hname, hvalue⟩ := hsingle.vars name value hmem
    refine ⟨hname, newline_not_mem_of_isIdentifier hname, ?_⟩
    rintro text rfl
    exact hvalue
  · intro σ elapsed clock config engine source path result
    have hprinted := Run.singleLine_of_runTimed elapsed clock config engine source
    exact ⟨hprinted, Report.exists_rows_ofResult path hprinted, Report.exists_rows_ofResultJson result,
      Report.length_itemRows _⟩
  · intro σ host words s
    refine ⟨fun error herror => carryOut_run_of_error herror host s, fun arguments hparse => ?_⟩
    rw [carryOut_run_of_ok hparse]
    exact ⟨fun _ hstart => hstart.runFile_eq, fun _ hunusable => hunusable.runFile_eq,
      stdout_runFile_eq_empty_iff host arguments s, unusable_or_starts host arguments s⟩

/-- A text in quotes that is stored and printed later, a text that is no expression, and an unknown
    statement: the failure has two lines of output, and the command line shows them in two rows, or as
    JSON.  Nothing is printed where the program cannot be read. -/
theorem output_entries_are_single_lines_stored_text :
    let source := "10 LET A = \" x \"\n20 PRINT A; 1 / 4\n30 PRINT no such\n40 FROB"
    let elapsed : StateM Nat Nat := fun clock => (clock, clock + 1)
    let host : Host (StateM Nat) :=
      { fileText := fun _ => pure (.ok source)
        entropy := pure 7
        stopwatch := pure elapsed }
    let empty : Host (StateM Nat) := { host with fileText := fun _ => pure (.error "not found") }
    let output := #[" x 0.25", "no such"]
    let result : Except Run.Failure Run.Outcome := .error ⟨.statement (.unknown "FROB"), output⟩
    (∃ listing m, Listing.parse .keep source = .ok listing ∧
      Run.Reaches .fallThrough listing { engine := none } 1 m ∧
      ("A", Value.text " x ") ∈ m.vars.bindings ∧ isIdentifier "A".toList = true ∧
      SingleLine " x ") ∧
    (StateT.run (runTimed elapsed {} none source) 0).1 = result ∧
    (∃ above below, (Report.ofResult "p" result).rows =
      above ++ output.toList.map String.toList ++ below) ∧
    ((carryOut host (.run ["p"])).run 0).1 = Report.ofResult "p" result ∧
    ((carryOut host (.run ["p", "--json"])).run 0).1 = Report.ofResultJson result ∧
    ((carryOut empty (.run ["p"])).run 0).1 = Report.failure "Cannot read 'p': not found" ∧
    ((carryOut empty (.run ["p"])).run 0).1.stdout = "" := by
  intro source elapsed host empty output result
  obtain ⟨hmachines, hresults, hreports⟩ := output_entries_are_single_lines
  have hresult : (StateT.run (runTimed elapsed {} none source) 0).1 = result := by decide +kernel
  have htext : RunArguments.parse ["p"] = .ok ⟨"p", false, none, none⟩ := by decide
  have hjson : RunArguments.parse ["p", "--json"] = .ok ⟨"p", true, none, none⟩ := by decide
  let start : Start Nat := ⟨{}, source, 7, elapsed, 0⟩
  have hsame : start.result = result := by decide +kernel
  refine ⟨?_, hresult, ?_, ?_, ?_, ?_⟩
  · let listing : Listing := ⟨#[⟨10, "LET A = \" x \""⟩, ⟨20, "PRINT A; 1 / 4"⟩,
      ⟨30, "PRINT no such"⟩, ⟨40, "FROB"⟩]⟩
    have hparse : Listing.parse .keep source = .ok listing := by decide +kernel
    have hstatement : Statement.parse "LET A = \" x \"" = .ok (.simple (.assign "A" "\" x \"")) := by
      decide +kernel
    have hvalue : evaluate {} "\" x \"" = .text " x " := by decide +kernel
    let after : Machine :=
      { vars := Variables.bind {} "A" (evaluate {} "\" x \""), steps := 1, engine := none }
    let m : Machine := { after with counter := 1 }
    have hstep : Machine.step .fallThrough listing ⟨10, "LET A = \" x \""⟩ { engine := none } =
        .ok .next after := (Machine.step_of_parse_ok hstatement _).trans rfl
    have hreaches : Run.Reaches .fallThrough listing { engine := none } 1 m :=
      .onward ⟨_, .next, after, rfl, hstep, rfl⟩ .refl
    have hmem : ("A", Value.text " x ") ∈ m.vars.bindings := by
      rw [← hvalue]
      exact List.mem_cons_self
    obtain ⟨-, hvars⟩ := hmachines {} none source listing hparse 1 m hreaches m (.inl rfl)
    obtain ⟨hname, -, hsingle⟩ := hvars _ _ hmem
    exact ⟨listing, m, hparse, hreaches, hmem, hname, hsingle _ rfl⟩
  · obtain ⟨-, ⟨above, below, hrows, -⟩, -⟩ := hresults Nat elapsed 0 {} none source "p"
    rw [hresult] at hrows
    exact ⟨above, below, hrows⟩
  · obtain ⟨-, hreports⟩ := hreports Nat host ["p"] 0
    obtain ⟨hreport, -⟩ := hreports _ htext
    rw [hreport start (.intro (.standard rfl) rfl rfl rfl), hsame]
    rfl
  · obtain ⟨-, hreports⟩ := hreports Nat host ["p", "--json"] 0
    obtain ⟨hreport, -⟩ := hreports _ hjson
    rw [hreport start (.intro (.standard rfl) rfl rfl rfl), hsame]
    rfl
  · have hmissing : Unusable empty ⟨"p", false, none, none⟩ 0
        ("Cannot read '" ++ "p" ++ "': " ++ "not found") := .program (.standard rfl) rfl
    obtain ⟨-, hreports⟩ := hreports Nat empty ["p"] 0
    obtain ⟨-, hreport, hempty, -⟩ := hreports _ htext
    exact ⟨hreport _ hmissing, hempty.2 ⟨_, hmissing⟩⟩

end Command

end QubitBasic
