/-
  What a run stores and prints are single lines.

  A line feed could come into the output only through a text, and texts come from the source: they are
  cut out of a statement, kept in a variable, copied from there, and displayed.  The source is cut at
  its line feeds before anything else is done, so no statement holds one.  From there on the invariant
  (`Machine.SingleLines`) has to cover the variables together with the output, since a text may be
  stored long before it is printed.  It covers the names of the variables too: these are identifiers.
  Evaluation (`Variables.SingleLines.evaluate`) and hence every statement, completed or failed, keeps it
  (`Machine.SingleLines.step`).
-/
import QubitBasic.Proofs.Decimal.Written
import QubitBasic.Proofs.Machine.Calls
import QubitBasic.Proofs.Machine.Names
import QubitBasic.Proofs.Run.Failure
import QubitBasic.Proofs.Statement.Characters

namespace QubitBasic

open Text

/-! ## Texts without line feeds -/

/-- The text has no line feed in it. -/
def Text.SingleLine (s : String) : Prop := '\n' ∉ s.toList

namespace Text

instance (s : String) : Decidable (SingleLine s) := inferInstanceAs (Decidable ('\n' ∉ s.toList))

theorem singleLine_ofList {cs : List Char} : SingleLine (String.ofList cs) ↔ '\n' ∉ cs := by
  rw [SingleLine, String.toList_ofList]

theorem SingleLine.append {s t : String} (hs : SingleLine s) (ht : SingleLine t) :
    SingleLine (s ++ t) := by
  rw [SingleLine, String.toList_append, List.mem_append]
  exact fun h => h.elim hs ht

theorem singleLine_join {parts : List String} (h : ∀ part ∈ parts, SingleLine part) :
    SingleLine (String.join parts) := by
  rw [SingleLine, String.toList_join, List.mem_flatMap]
  rintro ⟨part, hpart, hmem⟩
  exact h part hpart hmem

theorem newline_not_mem_toDigits (n : Nat) : '\n' ∉ toDigits n := fun h =>
  absurd (isDigit_of_mem_toDigits h) (by decide)

theorem singleLine_natural (n : Nat) : SingleLine (toString n) := by
  rw [SingleLine, toList_toString]
  exact newline_not_mem_toDigits n

theorem singleLine_integer (n : Int) : SingleLine (toString n) := by
  cases n with
  | ofNat n => exact singleLine_natural n
  | negSucc n => exact SingleLine.append (s := "-") (by decide) (singleLine_natural (n + 1))

/-- An identifier is made of letters, digits and underscores. -/
theorem newline_not_mem_of_isIdentifier {cs : List Char} (h : isIdentifier cs = true) : '\n' ∉ cs := by
  cases cs with
  | nil => exact List.not_mem_nil
  | cons c cs =>
    obtain ⟨hstart, hrest⟩ := Bool.and_eq_true_iff.1 h
    intro hmem
    rcases List.mem_cons.1 hmem with rfl | hmem
    · exact absurd hstart (by decide)
    · exact absurd (List.all_eq_true.1 hrest _ hmem) (by decide)

end Text

/-! ## Values -/

/-- Written positionally, a number is digits and a point. -/
theorem Decimal.newline_not_mem_positional (d : Decimal) : '\n' ∉ d.positional false := by
  intro hmem
  exact absurd ((written_positional d).isBlank_of_mem hmem) (by decide)

/-- A value that is a text is a single line. -/
def Value.SingleLine : Value → Prop
  | .number _ => True
  | .text s => Text.SingleLine s

theorem Value.SingleLine.display {v : Value} (h : v.SingleLine) : Text.SingleLine v.display := by
  cases v with
  | text s => exact h
  | number x =>
    rw [Value.display]
    split
    · decide
    · split
      · split <;> decide
      · split
        · decide
        · have hplain := Decimal.newline_not_mem_positional
            (Decimal.shortest .upward (Binary64.magnitude x))
          rw [singleLine_ofList, Layout.finite]
          split
          · exact List.not_mem_cons_of_ne_of_not_mem (by decide) hplain
          · exact hplain

theorem subset_of_quoted? {cs inner : List Char} (h : quoted? cs = some inner) : inner ⊆ cs := by
  cases cs with
  | nil => cases h
  | cons c cs =>
    rw [quoted?] at h
    split at h
    · obtain rfl := Option.some.inj h
      exact List.subset_cons_of_subset c (List.dropLast_subset cs)
    · cases h

/-- Every variable is an identifier and holds a single line. -/
def Variables.SingleLines (vars : Variables) : Prop :=
  ∀ name value, (name, value) ∈ vars.bindings → isIdentifier name.toList = true ∧ value.SingleLine

namespace Variables.SingleLines

variable {vars : Variables}

theorem get? (h : vars.SingleLines) {name : String} {value : Value}
    (hget : vars.get? name = some value) : value.SingleLine := by
  obtain ⟨before, behind, hbindings, -⟩ := List.lookup_eq_some_iff.1 hget
  exact (h name value (by simp [hbindings])).2

theorem bind (h : vars.SingleLines) {name : String} {value : Value}
    (hname : isIdentifier name.toList = true) (hvalue : value.SingleLine) :
    (vars.bind name value).SingleLines := by
  intro other value' hmem
  rcases List.mem_cons.1 hmem with heq | hold
  · cases heq
    exact ⟨hname, hvalue⟩
  · exact h other value' (List.mem_filter.1 hold).1

/-- What a single line evaluates to is one. -/
theorem evaluate (h : vars.SingleLines) {source : String} (hsource : SingleLine source) :
    (evaluate vars source).SingleLine := by
  have htrim : '\n' ∉ trim source.toList := fun hmem => hsource (mem_of_mem_trim hmem)
  rw [QubitBasic.evaluate, evaluateTrimmed]
  split
  · rename_i inner hquoted
    exact singleLine_ofList.2 fun hmem => htrim (subset_of_quoted? hquoted hmem)
  · simp only
    split
    · rename_i value hget
      exact h.get? hget
    · split
      · trivial
      · split
        · trivial
        · exact singleLine_ofList.2 htrim

end Variables.SingleLines

/-! ## Machines -/

/-- The action that a line carries out belongs to the statement that it is decoded as. -/
theorem Line.exists_parse_of_action? {vars : Variables} {line : Line} {action : Action}
    (h : line.action? vars = some action) :
    ∃ statement, Statement.parse line.statement = .ok statement ∧
      action.texts ⊆ statement.texts ∧ action.binds ⊆ statement.binds := by
  rw [Line.action?] at h
  split at h
  · cases h
  · rename_i statement hparse
    refine ⟨statement, hparse, ?_⟩
    cases statement with
    | simple action' =>
      obtain rfl := Option.some.inj h
      exact ⟨List.Subset.refl _, List.Subset.refl _⟩
    | conditional condition action' =>
      obtain ⟨-, rfl⟩ : Condition.holds vars condition = true ∧ action' = action := by
        simpa [Statement.action?] using h
      exact ⟨List.subset_cons_self _ _, List.Subset.refl _⟩

/-- The line that is printed for a call is made of words and numbers. -/
theorem Engine.Call.singleLine_announce (c : Engine.Call) (answer : Option Bool) :
    SingleLine (c.announce answer) := by
  cases c with
  | prepare n =>
    have hcount : SingleLine ("Initialized " ++ toString n) :=
      SingleLine.append (by decide) (singleLine_integer n)
    exact hcount.append (by decide)
  | hadamard q =>
    exact SingleLine.append (s := "Applied Hadamard to qubit ") (by decide) (singleLine_integer q)
  | flip q =>
    exact SingleLine.append (s := "Applied X gate to qubit ") (by decide) (singleLine_integer q)
  | controlledNot c t =>
    have hcontrol : SingleLine ("Applied CNOT: control=" ++ toString c) :=
      SingleLine.append (by decide) (singleLine_integer c)
    exact (hcontrol.append (by decide)).append (singleLine_integer t)
  | measure q =>
    have hqubit : SingleLine ("Measured qubit " ++ toString q) :=
      SingleLine.append (by decide) (singleLine_integer q)
    exact (hqubit.append (by decide)).append (singleLine_natural _)

namespace Machine

/-- Every line of output is a single line, and so is all that the variables hold. -/
structure SingleLines (m : Machine) : Prop where
  output : ∀ entry ∈ m.output, SingleLine entry
  vars : m.vars.SingleLines

variable {m : Machine}

theorem singleLines_initial (engine : Option Engine) : SingleLines { engine } :=
  ⟨fun _ hmem => absurd hmem (Array.not_mem_empty _), fun _ _ hmem => absurd hmem List.not_mem_nil⟩

theorem SingleLines.push (h : m.SingleLines) {entry : String} (hentry : SingleLine entry) :
    ∀ entry' ∈ m.output.push entry, SingleLine entry' := by
  intro entry' hmem
  rcases Array.mem_push.1 hmem with hold | rfl
  · exact h.output entry' hold
  · exact hentry

/-- **One statement** keeps to single lines, whether it completes or fails. -/
theorem SingleLines.step (h : m.SingleLines) (policy : TargetPolicy) (listing : Listing) {line : Line}
    (hline : SingleLine line.statement) : (finalState (step policy listing line) m).SingleLines := by
  cases hstep : Machine.step policy listing line m with
  | error error m' =>
    rw [finalState_of_error hstep, Run.eq_of_step_error hstep]
    exact ⟨h.output, h.vars⟩
  | ok flow after =>
    rw [finalState_of_ok hstep]
    rcases step_ok_cases hstep with ⟨-, rfl⟩ | ⟨c, e, answer, e', -, -, -, -, rfl⟩
    · rw [stepped]
      cases haction : line.action? m.vars with
      | none => exact ⟨h.output, h.vars⟩
      | some action =>
        obtain ⟨statement, hparse, htexts, hbinds⟩ := Line.exists_parse_of_action? haction
        -- What is evaluated are operands of the statement, hence cut out of its line.
        have hvalue : ∀ text ∈ action.texts, (evaluate m.vars text).SingleLine := by
          intro text htext
          refine h.vars.evaluate fun hmem => hline ?_
          exact Statement.subset_of_parse hparse (htexts htext) hmem
        cases action with
        | print items =>
          refine ⟨h.push (singleLine_join ?_), h.vars⟩
          intro part hpart
          obtain ⟨item, hitem, rfl⟩ := List.mem_map.1 hpart
          exact (hvalue item hitem).display
        | assign name expr =>
          have hname : isIdentifier name.toList = true :=
            Statement.isIdentifier_of_mem_binds hparse (hbinds (List.mem_singleton_self name))
          exact ⟨h.output, h.vars.bind hname (hvalue expr (by simp [Action.texts]))⟩
        | _ => exact ⟨h.output, h.vars⟩
    · refine ⟨h.push (c.singleLine_announce answer), ?_⟩
      cases answer with
      | none => exact h.vars
      | some bit => exact h.vars.bind (by decide) trivial

end Machine

/-! ## Runs -/

/-- Every statement of the listing is a single line. -/
def Listing.SingleLines (listing : Listing) : Prop :=
  ∀ index line, listing.line? index = some line → SingleLine line.statement

theorem Listing.singleLines_of_parse {duplicates : DuplicatePolicy} {source : String}
    {listing : Listing} (h : parse duplicates source = .ok listing) : listing.SingleLines :=
  fun _ _ hline => newline_not_mem_statement h hline

namespace Run

variable {policy : TargetPolicy} {listing : Listing} (hlisting : listing.SingleLines)

include hlisting

theorem Continues.singleLines {m m' : Machine} (h : Continues policy listing m m')
    (hm : m.SingleLines) : m'.SingleLines := by
  obtain ⟨line, flow, after, hline, hstep, hfollow⟩ := h
  have hafter := hm.step policy listing (hlisting _ _ hline)
  rw [finalState_of_ok hstep] at hafter
  obtain ⟨index, rfl⟩ := Machine.exists_counter_of_follow? hfollow
  exact ⟨hafter.output, hafter.vars⟩

theorem Reaches.singleLines {m m' : Machine} {k : Nat} (h : Reaches policy listing m k m')
    (hm : m.SingleLines) : m'.SingleLines := by
  induction h with
  | refl => exact hm
  | onward hnext _ ih => exact ih (hnext.singleLines hlisting hm)

/-- However a run ends, by itself or by a limit, its output is that of a machine. -/
theorem singleLine_of_timed {σ : Type} (expired : StateM σ Bool) (config : Config) {fuel : Nat}
    {m : Machine} {clock : σ} (hm : m.SingleLines) :
    ∀ entry ∈ printed (timed expired config listing fuel m clock), SingleLine entry := by
  have houtput : ∀ {m : Machine}, m.SingleLines → ∀ entry ∈ m.output.toList, SingleLine entry :=
    fun hm entry hentry => hm.output entry (Array.mem_toList_iff.1 hentry)
  induction fuel using Nat.strongRecOn generalizing m clock with
  | ind fuel ih =>
    rcases timed_cases expired config listing fuel m clock with ⟨-, hend⟩ |
      ⟨line, hline, ⟨-, hlimit⟩ | ⟨fuel', rfl, ⟨-, hlimit⟩ | ⟨-, hnext⟩⟩⟩
    · rw [hend]
      exact houtput hm
    · rw [hlimit]
      exact houtput hm
    · rw [hlimit]
      exact houtput hm
    · have hstep := hm.step config.missingTarget listing (hlisting _ _ hline)
      rcases hnext with ⟨error, m', herror, hfails⟩ | ⟨flow, after, hok, -, hends⟩ |
        ⟨next, hcontinues, hgoes⟩
      · rw [finalState_of_error herror] at hstep
        rw [hfails]
        exact houtput hstep
      · rw [finalState_of_ok hok] at hstep
        rw [hends]
        exact houtput hstep
      · rw [hgoes]
        exact ih fuel' (Nat.lt_succ_self _) (hcontinues.singleLines hlisting hm)

omit hlisting in
/-- What a run prints, whatever its configuration, engine and clock, are single lines. -/
theorem singleLine_of_runTimed {σ : Type} (elapsed : StateM σ Nat) (clock : σ) (config : Config)
    (engine : Option Engine) (source : String) :
    ∀ entry ∈ printed ((runTimed elapsed config engine source).run clock).1, SingleLine entry := by
  rw [runTimed]
  split
  · exact fun entry hentry => absurd hentry List.not_mem_nil
  · split
    · exact fun entry hentry => absurd hentry List.not_mem_nil
    · rename_i listing hparse
      exact singleLine_of_timed (Listing.singleLines_of_parse hparse) (expired elapsed config) config
        (Machine.singleLines_initial engine)

end Run

end QubitBasic
