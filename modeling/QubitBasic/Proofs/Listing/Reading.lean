/-
  How a source is read.

  A line is written as a numeral, blanks and a statement (`Line.Written`).  Reading a line gives just
  what is written: a text without blanks at its ends is read as a line exactly if it is written as that
  line (`Line.parse?_of_written`, `Line.written_of_parse?`).  A source is read line by line, so it is
  refused for its first line that is not written as one, and otherwise gives its lines in the order they
  stand in (`readLines_append`, `readLines_of_written`).

  From there on only the order of the listing matters, and a stable sort leaves nothing open: it depends
  on the lines of each number and on nothing else in the source.  So does every run.
-/
import Mathlib.Data.List.Forall2
import Mathlib.Data.List.Nodup
import Mathlib.Order.Bounds.Basic
import QubitBasic.Proofs.Listing.Order
import QubitBasic.Proofs.Text.Lines
import QubitBasic.Run

namespace QubitBasic

open Text

/-! ## One line -/

theorem Text.wordOfNumeral?_eq_some_iff {cs : List Char} {n : Nat} :
    wordOfNumeral? cs = some n ↔
      cs ≠ [] ∧ (∀ c ∈ cs, c.isDigit = true) ∧ ofDigits cs ≤ greatestWord ∧ ofDigits cs = n := by
  rw [wordOfNumeral?, Option.ite_none_right_eq_some]
  simp [isNumeral, and_assoc]

namespace Line

/-- The text is digits, blanks and a statement, and the line has the number that the digits denote,
    which has at most 64 bits, and the statement. -/
inductive Written : List Char → Line → Prop
  | intro {digits blanks statement : List Char} :
      digits ≠ [] → (∀ c ∈ digits, c.isDigit = true) → ofDigits digits ≤ greatestWord →
      blanks ≠ [] → Blanks blanks → statement ≠ [] → Trimmed statement →
      Written (digits ++ blanks ++ statement) ⟨ofDigits digits, String.ofList statement⟩

theorem parse?_of_written {text : List Char} {line : Line} (h : Written text line) :
    parse? text = some line := by
  obtain @⟨digits, blanks, statement, hne, hdigits, hword, hblanks, hgap, hstatement, htrimmed⟩ := h
  obtain ⟨blank, gap, rfl⟩ := List.exists_cons_of_ne_nil hblanks
  have hcut : cut? isBlank (digits ++ blank :: gap ++ statement) =
      some (digits, gap ++ statement) := by
    refine cut?_eq_some_iff.2 ⟨fun c hc => isBlank_of_isDigit (hdigits c hc), blank, ?_, by simp⟩
    exact hgap blank List.mem_cons_self
  have htrim : trim (gap ++ statement) = statement := by
    have := trim_append (fun c hc => hgap c (List.mem_cons_of_mem blank hc)) blanks_nil htrimmed
    rwa [List.append_nil] at this
  have hnumeral : wordOfNumeral? digits = some (ofDigits digits) :=
    wordOfNumeral?_eq_some_iff.2 ⟨hne, hdigits, hword, rfl⟩
  rw [parse?, hcut]
  simp [htrim, hstatement, hnumeral]

/-- Nothing but a statement follows the blanks behind the digits. -/
theorem written_of_parse? {text : List Char} {line : Line} (htrimmed : Trimmed text)
    (h : parse? text = some line) : Written text line := by
  rw [parse?] at h
  split at h
  case h_1 => cases h
  case h_2 digits rest hcut =>
    obtain ⟨-, blank, hblank, rfl⟩ := cut?_eq_some_iff.1 hcut
    obtain ⟨gap, after, hgap, hafter, hstatement, hrest⟩ := exists_trim rest
    simp only at h
    split at h
    case isTrue _ => cases h
    case isFalse hne =>
      have hne : trim rest ≠ [] := by simpa using hne
      obtain ⟨number, hnumber, rfl⟩ := Option.map_eq_some_iff.1 h
      obtain ⟨hdigits, hall, hword, rfl⟩ := wordOfNumeral?_eq_some_iff.1 hnumber
      have htext : digits ++ blank :: rest = digits ++ (blank :: gap) ++ trim rest ++ after := by
        conv => lhs; rw [hrest]
        simp
      obtain rfl : after = [] := (htext ▸ htrimmed).eq_nil_of_blanks hafter
      have hblanks : Blanks (blank :: gap) := by
        intro c hc
        rcases List.mem_cons.1 hc with rfl | hc
        · exact hblank
        · exact hgap c hc
      rw [htext, List.append_nil]
      exact .intro hdigits hall hword (List.cons_ne_nil _ _) hblanks hne hstatement

end Line

/-! ## All lines -/

namespace Listing

theorem trimmed_of_mem_rawLines {source text : List Char} (h : text ∈ rawLines source) :
    Trimmed text := by
  obtain ⟨line, -, rfl⟩ := List.mem_map.1 (List.mem_filter.1 h).1
  exact trimmed_trim line

theorem readLines_of_written {texts : List (List Char)} {lines : List Line}
    (h : List.Forall₂ Line.Written texts lines) : readLines texts = .ok lines := by
  induction h with
  | nil => rfl
  | cons hline _ ih =>
    rw [readLines, Line.parse?_of_written hline, ih]
    rfl

theorem written_of_readLines {texts : List (List Char)} {lines : List Line}
    (htrimmed : ∀ text ∈ texts, Trimmed text) (h : readLines texts = .ok lines) :
    List.Forall₂ Line.Written texts lines := by
  induction texts generalizing lines with
  | nil =>
    cases h
    exact .nil
  | cons text texts ih =>
    rw [readLines] at h
    split at h
    case h_1 => cases h
    case h_2 line hline =>
      cases hrest : readLines texts with
      | error error =>
        rw [hrest] at h
        cases h
      | ok rest =>
        rw [hrest] at h
        cases h
        refine .cons (Line.written_of_parse? (htrimmed text List.mem_cons_self) hline) ?_
        exact ih (fun text hmem => htrimmed text (List.mem_cons_of_mem _ hmem)) hrest

/-- The first text that is no line is the one reported. -/
theorem readLines_append {good rest : List (List Char)} {text : List Char}
    (hgood : ∀ text ∈ good, ∃ line, Line.Written text line) (htext : Line.parse? text = none) :
    readLines (good ++ text :: rest) = .error (.invalidLine (String.ofList text)) := by
  induction good with
  | nil => rw [List.nil_append, readLines, htext]
  | cons first good ih =>
    obtain ⟨line, hline⟩ := hgood first List.mem_cons_self
    rw [List.cons_append, readLines, Line.parse?_of_written hline,
      ih fun text htext => hgood text (List.mem_cons_of_mem first htext)]
    rfl

/-- Each line of the source that is not blank is written as a line, and these are they in order. -/
def Lists (source : String) (lines : List Line) : Prop :=
  List.Forall₂ Line.Written (rawLines source.toList) lines

/-- What is written is what is read. -/
theorem lists_iff {source : String} {lines : List Line} :
    Lists source lines ↔ readLines (rawLines source.toList) = .ok lines := by
  refine ⟨readLines_of_written, fun h => ?_⟩
  exact written_of_readLines (fun _ => trimmed_of_mem_rawLines) h

section

variable {source : String} {lines : List Line}

theorem parse_keep_of_lists (h : Lists source lines) :
    parse .keep source = .ok ⟨(sort lines).toArray⟩ := by
  rw [parse, readLines_of_written h]
  rfl

/-- Where numbers may not be shared, the least one that is decides. -/
theorem parse_reject_of_lists (h : Lists source lines) :
    ((lines.map Line.number).Nodup → parse .reject source = .ok ⟨(sort lines).toArray⟩) ∧
    (¬ (lines.map Line.number).Nodup →
      ∃ number, IsLeast {n | Repeated lines n} number ∧
        parse .reject source = .error (.duplicate number)) := by
  have hspec := duplicate?_spec (sorted_sort lines)
  rw [repeated_of_perm (stableSort_sort lines).perm] at hspec
  have hnodup : (lines.map Line.number).Nodup ↔ ∀ number, ¬ Repeated lines number := by
    rw [List.nodup_iff_count_le_one]
    exact forall_congr' fun number => Nat.not_lt.symm
  rw [hnodup, parse, readLines_of_written h]
  cases hduplicate : duplicate? (sort lines) with
  | none =>
    rw [hduplicate] at hspec
    exact ⟨fun _ => by simp [hduplicate], fun hrepeated => absurd hspec hrepeated⟩
  | some number =>
    rw [hduplicate] at hspec
    exact ⟨fun hnone => absurd hspec.1 (hnone number), fun _ => ⟨number, hspec, by simp [hduplicate]⟩⟩

/-- Only the lines of each number matter. -/
theorem parse_eq_of_lists {source' : String} {lines' : List Line} (h : Lists source lines)
    (h' : Lists source' lines') (hsame : ∀ number, numbered number lines = numbered number lines')
    (duplicates : DuplicatePolicy) : parse duplicates source = parse duplicates source' := by
  have hsort : sort lines = sort lines' :=
    (stableSort_sort lines).eq (stableSort_sort lines') hsame
  rw [parse, parse, readLines_of_written h, readLines_of_written h']
  simp only [hsort]

end

/-- Lines of one number with the same statements are the same lines. -/
theorem numbered_eq_of_statements {number : Nat} {lines lines' : List Line}
    (h : (numbered number lines).map Line.statement = (numbered number lines').map Line.statement) :
    numbered number lines = numbered number lines' := by
  have hrebuild : ∀ lines : List Line, numbered number lines =
      ((numbered number lines).map Line.statement).map fun statement => ⟨number, statement⟩ := by
    intro lines
    rw [List.map_map]
    refine (List.map_id _).symm.trans (List.map_congr_left fun line hline => ?_)
    obtain rfl : line.number = number := by simpa [numbered] using (List.mem_filter.1 hline).2
    rfl
  rw [hrebuild lines, h, ← hrebuild lines']

/-- **How a source is read.**  Take the lines of a source that are not blank, without blanks at their
    ends.
    (a) If one of them is not written as digits, blanks and a statement, with a number of at most 64
    bits, the first such line is reported, whatever is done with duplicates.
    (b) Otherwise the listing holds these lines in the order of their numbers, and those of equal number
    in the order they were written in.  Where duplicates are refused the listing is the same if all
    numbers are distinct; if not, the least number that occurs twice is reported.
    (c) So two such sources that have the same statements in the same order for each number are read as
    the same and run as the same, on any clock. -/
theorem parse_written (source : String) :
    (∀ duplicates good text rest, rawLines source.toList = good ++ text :: rest →
      (∀ text ∈ good, ∃ line, Line.Written text line) → (¬ ∃ line, Line.Written text line) →
      parse duplicates source = .error (.invalidLine (String.ofList text))) ∧
    (∀ lines, Lists source lines →
      ∃ ordered, StableSort lines ordered ∧ parse .keep source = .ok ⟨ordered.toArray⟩ ∧
        ((lines.map Line.number).Nodup → parse .reject source = .ok ⟨ordered.toArray⟩) ∧
        (¬ (lines.map Line.number).Nodup →
          ∃ number, IsLeast {n | Repeated lines n} number ∧
            parse .reject source = .error (.duplicate number))) ∧
    (∀ source' lines lines', Lists source lines → Lists source' lines' →
      (∀ number, (numbered number lines).map Line.statement =
        (numbered number lines').map Line.statement) →
      (∀ duplicates, parse duplicates source = parse duplicates source') ∧
      ∀ (μ : Type → Type) [Monad μ] (elapsed : μ Nat) config engine,
        runTimed elapsed config engine source = runTimed elapsed config engine source') := by
  refine ⟨?_, ?_, ?_⟩
  · intro duplicates good text rest hsource hgood htext
    have hmem : text ∈ rawLines source.toList := by simp [hsource]
    have htrimmed : Trimmed text := trimmed_of_mem_rawLines hmem
    have hparse : Line.parse? text = none := by
      rw [Option.eq_none_iff_forall_ne_some]
      exact fun line hline => htext ⟨line, Line.written_of_parse? htrimmed hline⟩
    rw [parse, hsource, readLines_append hgood hparse]
  · intro lines hlists
    obtain ⟨hdistinct, hrepeated⟩ := parse_reject_of_lists hlists
    exact ⟨sort lines, stableSort_sort lines, parse_keep_of_lists hlists, hdistinct, hrepeated⟩
  · intro source' lines lines' hlists hlists' hsame
    have hparse := parse_eq_of_lists hlists hlists' fun number => numbered_eq_of_statements (hsame number)
    refine ⟨hparse, fun μ _ elapsed config engine => ?_⟩
    rw [runTimed, runTimed, hparse config.duplicates]

/-- Lines in another order, among blank ones and with other blanks, are read as the same; of the two
    numbers that occur twice the second one written is reported; and a line without a number is found
    before one with too great a number. -/
theorem parse_written_shuffled :
    let source := "30 PRINT 3\n\n 20 PRINT 1\r\n10\tEND\n20  PRINT 2\n30 END"
    let source' := "10 END\n20 PRINT 1\n20 PRINT 2\n30 PRINT 3\n30 END"
    (∀ duplicates, parse duplicates source = parse duplicates source') ∧
      run {} none source = run {} none source' ∧
      parse .reject source = .error (.duplicate 20) ∧
      parse .keep "10 END\nPRINT 1\n18446744073709551616 END" = .error (.invalidLine "PRINT 1") := by
  intro source source'
  have hlists : Lists source [⟨30, "PRINT 3"⟩, ⟨20, "PRINT 1"⟩, ⟨10, "END"⟩, ⟨20, "PRINT 2"⟩,
      ⟨30, "END"⟩] := lists_iff.2 (by decide +kernel)
  have hlists' : Lists source' [⟨10, "END"⟩, ⟨20, "PRINT 1"⟩, ⟨20, "PRINT 2"⟩, ⟨30, "PRINT 3"⟩,
      ⟨30, "END"⟩] := lists_iff.2 (by decide +kernel)
  obtain ⟨-, hlisting, hshuffled⟩ := parse_written source
  obtain ⟨hparse, hrun⟩ := hshuffled source' _ _ hlists hlists' fun number => by
    simp only [numbered, List.filter_cons, List.filter_nil]
    grind
  obtain ⟨-, -, -, -, hreject⟩ := hlisting _ hlists
  obtain ⟨number, hleast, hnumber⟩ := hreject (by decide)
  obtain rfl : number = 20 := by
    refine hleast.unique ⟨by decide, fun other hrepeated => ?_⟩
    obtain ⟨line, hline, rfl⟩ := Repeated.exists_mem hrepeated
    by_contra hlt
    obtain rfl : line = ⟨10, "END"⟩ := by
      simp at hline
      grind
    exact absurd hrepeated (by decide)
  refine ⟨hparse, congrArg Id.run (hrun Id (pure 0) {} none), hnumber, ?_⟩
  obtain ⟨hinvalid, -⟩ := parse_written "10 END\nPRINT 1\n18446744073709551616 END"
  refine hinvalid .keep ["10 END".toList] "PRINT 1".toList ["18446744073709551616 END".toList]
    (by decide +kernel) ?_ ?_
  · intro text htext
    obtain rfl := List.mem_singleton.1 htext
    have hmem : "10 END".toList ∈ rawLines "10 END".toList := by decide +kernel
    exact ⟨⟨10, "END"⟩, Line.written_of_parse? (trimmed_of_mem_rawLines hmem) (by decide +kernel)⟩
  · rintro ⟨line, hline⟩
    have hnone : Line.parse? "PRINT 1".toList = none := by decide +kernel
    rw [Line.parse?_of_written hline] at hnone
    cases hnone

end Listing

end QubitBasic
