/-
  JSON values and their text.

  Numbers are of two kinds, as they are written: a natural is written with digits only, every other
  number is a double.  The name of a member and a text may be `none`: the grammar allows a string whose
  escapes leave one half of a surrogate pair alone, and no text can hold that.

  A value is written in one of two styles: `compact` without any blanks, `pretty` with one item or
  member to a line, indented by two spaces to a level.
-/
import QubitBasic.Decimal.Layout

namespace QubitBasic

open Text

/-- A JSON value; members stand in the order they are written in. -/
inductive Json where
  | null
  | bool (b : Bool)
  | natural (n : Nat)
  | real (x : Float)
  | text (s : Option String)
  | array (items : List Json)
  | object (members : List (Option String × Json))

namespace Json

/-- A string of ordinary text. -/
def ofString (s : String) : Json := .text (some s)

/-- An object whose members have the given names. -/
def ofMembers (members : List (String × Json)) : Json :=
  .object (members.map fun (name, value) => (some name, value))

/-! ## Texts and numbers -/

/-- The escape of a character inside a string. -/
def escape (c : Char) : List Char :=
  if c = '"' then ['\\', '"']
  else if c = '\\' then ['\\', '\\']
  else if c = '\n' then ['\\', 'n']
  else if c = '\r' then ['\\', 'r']
  else if c = '\t' then ['\\', 't']
  else if c.toNat = 0x08 then ['\\', 'b']
  else if c.toNat = 0x0C then ['\\', 'f']
  else if c.toNat < 0x20 then
    ['\\', 'u', '0', '0', Nat.digitChar (c.toNat / 16), Nat.digitChar (c.toNat % 16)]
  else [c]

/-- A string in double quotes. -/
def quote (s : Option String) : List Char :=
  match s with
  | some s => '"' :: (s.toList.flatMap escape ++ ['"'])
  | none => ['"', '\\', 'u', 'd', '8', '0', '0', '"']

/-- Doubles are written positionally from `1e-5` up to `1e16`, always with a fraction. -/
def layout : Layout := ⟨some (-5, 15), true, .even⟩

/-- A double; what is no finite number is null. -/
def number (x : Float) : List Char :=
  if x.isFinite then layout.finite x else "null".toList

/-! ## Values -/

/-- How the parts of a value are set apart. -/
structure Style where
  /-- What stands before an item or closing bracket at a level. -/
  lineBreak : Nat → List Char
  /-- What stands between a name and its value. -/
  colon : List Char

mutual

/-- The text of a value at a level. -/
def write (style : Style) (level : Nat) : Json → List Char
  | .null => "null".toList
  | .bool b => (if b then "true" else "false").toList
  | .natural n => toDigits n
  | .real x => number x
  | .text s => quote s
  | .array [] => ['[', ']']
  | .array (item :: items) =>
    '[' :: style.lineBreak (level + 1) ++ write style (level + 1) item ++
      writeItems style (level + 1) items ++ style.lineBreak level ++ [']']
  | .object [] => ['\x7b', '\x7d']
  | .object ((name, value) :: members) =>
    '\x7b' :: style.lineBreak (level + 1) ++ quote name ++ style.colon ++
      write style (level + 1) value ++ writeMembers style (level + 1) members ++
      style.lineBreak level ++ ['\x7d']

/-- The text of items that follow another one. -/
def writeItems (style : Style) (level : Nat) : List Json → List Char
  | [] => []
  | item :: items =>
    ',' :: style.lineBreak level ++ write style level item ++ writeItems style level items

/-- The text of members that follow another one. -/
def writeMembers (style : Style) (level : Nat) : List (Option String × Json) → List Char
  | [] => []
  | (name, value) :: members =>
    ',' :: style.lineBreak level ++ quote name ++ style.colon ++ write style level value ++
      writeMembers style level members

end

/-- A value without any blanks. -/
def compact (json : Json) : String := String.ofList (write ⟨fun _ => [], [':']⟩ 0 json)

/-- A value with one item or member to a line. -/
def pretty (json : Json) : String :=
  String.ofList (write ⟨fun level => '\n' :: List.replicate (2 * level) ' ', [':', ' ']⟩ 0 json)

end Json

end QubitBasic
