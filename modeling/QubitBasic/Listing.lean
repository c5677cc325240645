/-
  Listings: the numbered lines of a program.

  Each line of the source that is not blank is a number and, after a blank, a statement.  A listing
  holds the lines in the order of their numbers; lines of equal number keep the order they were
  written in, unless duplicates are refused.  A line is found by its number by halving (`index?`),
  the first of several if there are several.
-/
import QubitBasic.Text.Blank
import QubitBasic.Text.Digits
import QubitBasic.Text.Split

namespace QubitBasic

open Text

/-- A numbered line. -/
structure Line where
  number : Nat
  /-- The statement, not decoded, without blanks at its ends. -/
  statement : String
  deriving DecidableEq, Repr

/-- What becomes of lines that share a number. -/
inductive DuplicatePolicy where
  /-- All are kept, in the order they were written in. -/
  | keep
  /-- They are an error. -/
  | reject
  deriving DecidableEq, Repr

/-- The lines of a program in the order of their numbers. -/
structure Listing where
  lines : Array Line
  deriving DecidableEq, Repr

namespace Line

/-- The line that a text without blanks at its ends is: digits, a blank and a statement. -/
def parse? (text : List Char) : Option Line :=
  match cut? isBlank text with
  | none => none
  | some (numeral, rest) =>
    let statement := trim rest
    if statement.isEmpty then none
    else (wordOfNumeral? numeral).map fun number => ⟨number, String.ofList statement⟩

end Line

namespace Listing

/-- Why a source is no listing. -/
inductive Error where
  | invalidLine (line : String)
  | duplicate (number : Nat)
  deriving DecidableEq, Repr

/-- The wording of an `Error`. -/
def Error.message : Error → String
  | .invalidLine line => s!"invalid line format: '{line}'"
  | .duplicate number => s!"duplicate line number {number}"

/-- The lines of a source that are not blank, without blanks at their ends. -/
def rawLines (source : List Char) : List (List Char) :=
  ((Text.lines source).map trim).filter (!·.isEmpty)

/-- The numbered lines of a source in the order they were written in, or its first line that is
    none. -/
def readLines : List (List Char) → Except Error (List Line)
  | [] => .ok []
  | raw :: raws =>
    match Line.parse? raw with
    | none => .error (.invalidLine (String.ofList raw))
    | some line => (readLines raws).map (line :: ·)

/-- Puts a line before the first one whose number is no smaller. -/
def insert (line : Line) : List Line → List Line
  | [] => [line]
  | other :: rest =>
    if line.number ≤ other.number then line :: other :: rest else other :: insert line rest

/-- The lines in the order of their numbers; equal numbers stay in the order they stand in. -/
def sort (lines : List Line) : List Line := lines.foldr insert []

/-- The first number that two neighbouring lines share. -/
def duplicate? : List Line → Option Nat
  | a :: b :: rest => if a.number = b.number then some a.number else duplicate? (b :: rest)
  | _ => none

/-- The listing that a source is. -/
def parse (duplicates : DuplicatePolicy) (source : String) : Except Error Listing :=
  match readLines (rawLines source.toList) with
  | .error e => .error e
  | .ok lines =>
    let sorted := sort lines
    match if duplicates = .reject then duplicate? sorted else none with
    | some number => .error (.duplicate number)
    | none => .ok ⟨sorted.toArray⟩

/-! ## Finding a line -/

/-- The number of lines. -/
def size (listing : Listing) : Nat := listing.lines.size

/-- The line at `index`. -/
def line? (listing : Listing) (index : Nat) : Option Line := listing.lines[index]?

/-- The first index from `low` up to `high` whose line is numbered `number` or more, where all lines
    before `low` have smaller numbers and none from `high` on has. -/
def search (lines : Array Line) (number low high : Nat) (bound : high ≤ lines.size) : Nat :=
  if h : low < high then
    let middle := (low + high) / 2
    have : middle < lines.size := by omega
    if lines[middle].number < number then search lines number (middle + 1) high bound
    else search lines number low middle (by omega)
  else low
termination_by high - low
decreasing_by
  · omega
  · omega

/-- The index of the first line numbered `number`. -/
def index? (listing : Listing) (number : Nat) : Option Nat :=
  let index := search listing.lines number 0 listing.lines.size (Nat.le_refl _)
  match listing.lines[index]? with
  | some line => if line.number = number then some index else none
  | none => none

end Listing

end QubitBasic
