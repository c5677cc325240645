/-
  Decoding statements.

  The first word of a statement is its keyword, in upper or lower case; what follows the blank
  behind it are the operands.  Each keyword cuts its operands in its own way: `PRINT` at semicolons
  outside double quotes, `LET` at the first equals sign, `CNOT` at the first comma, `IF` at the first
  word `THEN` outside double quotes.  Errors quote the statement they were found in, without the
  blanks around it; of two nested statements the inner one is reported first.
-/
import QubitBasic.Statement.Basic
import QubitBasic.Text.Split

namespace QubitBasic

open Text

namespace Statement

/-! ## Words -/

/-- A word with its letters of ASCII in upper case. -/
def upper (word : List Char) : String := String.ofList (word.map Char.toUpper)

/-- The first word of a text without blanks at its ends, and the text behind it. -/
def firstWord (cs : List Char) : List Char × List Char :=
  match cut? isBlank cs with
  | none => (cs, [])
  | some (word, rest) => (word, trim rest)

/-- What follows the word `THEN` at the start of a text, if that is a word of its own. -/
def afterThen? : List Char → Option (List Char)
  | t :: h :: e :: n :: rest =>
    if upper [t, h, e, n] == "THEN" && rest.head?.all isDelimiter then some rest else none
  | _ => none

/-- The text before and after the first word `THEN` outside double quotes.  `boundary` tells whether
    a word may start here, `quoted` whether quoted text is open. -/
def splitThen? : (boundary quoted : Bool) → List Char → Option (List Char × List Char)
  | _, _, [] => none
  | boundary, quoted, c :: cs =>
    match if boundary && !quoted then afterThen? (c :: cs) else none with
    | some rest => some ([], rest)
    | none =>
      (splitThen? (isDelimiter c) (if c = '"' then !quoted else quoted) cs).map fun (left, right) =>
        (c :: left, right)

theorem length_afterThen?_lt {cs rest : List Char} (h : afterThen? cs = some rest) :
    rest.length < cs.length := by
  unfold afterThen? at h
  split at h
  · split at h
    · obtain rfl : _ = rest := by simpa using h
      simp only [List.length_cons]
      omega
    · simp at h
  · simp at h

theorem length_splitThen?_lt {boundary quoted : Bool} {cs left right : List Char}
    (h : splitThen? boundary quoted cs = some (left, right)) : right.length < cs.length := by
  induction cs generalizing boundary quoted left with
  | nil => simp [splitThen?] at h
  | cons c cs ih =>
    rw [splitThen?] at h
    split at h
    · rename_i rest hrest
      obtain ⟨rfl, rfl⟩ : [] = left ∧ rest = right := by simpa using h
      split at hrest
      · exact length_afterThen?_lt hrest
      · simp at hrest
    · obtain ⟨⟨left', right'⟩, hsplit, heq⟩ := Option.map_eq_some_iff.1 h
      obtain ⟨rfl, rfl⟩ : c :: left' = left ∧ right' = right := by simpa using heq
      exact Nat.lt_succ_of_lt (ih hsplit)

theorem length_firstWord_le (cs : List Char) : (firstWord cs).2.length ≤ cs.length := by
  unfold firstWord
  split
  · simp
  · rename_i word rest h
    obtain ⟨c, -, rfl⟩ := cut?_eq_some h
    have := length_trim_le rest
    simp only [List.length_append, List.length_cons]
    omega

/-! ## Actions -/

/-- An operand, which must not be empty. -/
def operand (text operand : List Char) : Except Error String :=
  if operand.isEmpty then .error (.malformed (String.ofList text) .missingOperand)
  else .ok (String.ofList operand)

/-- The items of a `PRINT` statement; empty ones do not count. -/
def printItems (operands : List Char) : List String :=
  (((piecesOutsideQuotes ';' false operands).map trim).filter (!·.isEmpty)).map String.ofList

/-- The name and the expression of a `LET` statement. -/
def assignment (text operands : List Char) : Except Error Action :=
  match cut? (· == '=') operands with
  | none => .error (.malformed (String.ofList text) .assignmentForm)
  | some (left, right) =>
    let name := trim left
    let expr := trim right
    if !isIdentifier name then
      .error (.malformed (String.ofList text) (.badName (String.ofList name)))
    else if expr.isEmpty then .error (.malformed (String.ofList text) .missingExpression)
    else .ok (.assign (String.ofList name) (String.ofList expr))

/-- The two qubits of a `CNOT` statement. -/
def controlledNot (text operands : List Char) : Except Error Action :=
  match cut? (· == ',') operands with
  | none => .error (.malformed (String.ofList text) .controlledNotForm)
  | some (left, right) => do
    let control ← operand text (trim left)
    let target ← operand text (trim right)
    return .controlledNot control target

/-- The action with the given keyword and operands in the statement `text`. -/
def parseAction (keyword : Keyword) (text operands : List Char) : Except Error Action :=
  match keyword with
  | .print => .ok (.print (printItems operands))
  | .assign => assignment text operands
  | .prepare => (operand text operands).map .prepare
  | .hadamard => (operand text operands).map .hadamard
  | .flip => (operand text operands).map .flip
  | .controlledNot => controlledNot text operands
  | .measure => (operand text operands).map .measure
  | .goto => (operand text operands).map .goto
  | .stop =>
    if operands.isEmpty then .ok .stop
    else .error (.malformed (String.ofList text) .stopOperands)
  | .remark => .ok (.remark (String.ofList operands))

/-! ## Statements -/

/-- The statement that a text is.  After `THEN`, digits alone stand for a `GOTO`. -/
def parseChars (cs : List Char) : Except Error Statement :=
  let text := trim cs
  let word := upper (firstWord text).1
  let operands := (firstWord text).2
  if word = "IF" then
    match h : splitThen? true false operands with
    | none => .error (.missingThen (String.ofList text))
    | some (condition, rest) =>
      let body := trim rest
      if body.isEmpty then .error (.malformed (String.ofList text) .nothingAfterThen)
      else if body.all Char.isDigit then
        .ok (.conditional (String.ofList (trim condition)) (.goto (String.ofList body)))
      else
        have : body.length < cs.length :=
          Nat.lt_of_le_of_lt (length_trim_le rest) <|
            Nat.lt_of_lt_of_le (length_splitThen?_lt h) <|
              Nat.le_trans (length_firstWord_le text) (length_trim_le cs)
        match parseChars body with
        | .error e => .error e
        | .ok (.conditional _ _) => .error (.malformed (String.ofList text) .nestedIf)
        | .ok (.simple action) => .ok (.conditional (String.ofList (trim condition)) action)
  else
    match Keyword.all.find? (·.spelling == word) with
    | none => .error (.unknown (String.ofList text))
    | some keyword => (parseAction keyword text operands).map .simple
termination_by cs.length
decreasing_by exact this

/-- The statement that a text is. -/
def parse (text : String) : Except Error Statement := parseChars text.toList

end Statement

end QubitBasic
