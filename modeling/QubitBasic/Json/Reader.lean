/-
  Reading JSON values.

  A value is read token by token.  What has been read of the arrays and objects still open is a stack
  of frames, and the state says what the next token has to be: a value, a name, a colon, a comma or a
  closing bracket, or the end.
-/
import QubitBasic.Json.Token

namespace QubitBasic.Json

/-- An array or object that waits for a value; what it already holds is listed from its end. -/
inductive Frame where
  | array (items : List Json)
  | object (members : List (Option String × Json)) (name : Option String)

/-- What is expected next. -/
inductive State where
  /-- A value. -/
  | value (outer : List Frame)
  /-- The first item of an array, or its end. -/
  | firstItem (outer : List Frame)
  /-- The first name of an object, or its end. -/
  | firstName (outer : List Frame)
  /-- A further name of an object. -/
  | nextName (members : List (Option String × Json)) (outer : List Frame)
  /-- The colon after a name. -/
  | colon (members : List (Option String × Json)) (name : Option String) (outer : List Frame)
  /-- A comma, or the end of an array. -/
  | nextItem (items : List Json) (outer : List Frame)
  /-- A comma, or the end of an object. -/
  | nextMember (members : List (Option String × Json)) (outer : List Frame)
  /-- Nothing more. -/
  | done (json : Json)

namespace State

/-- The value `json` is complete. -/
def complete (json : Json) : List Frame → State
  | [] => .done json
  | .array items :: outer => .nextItem (json :: items) outer
  | .object members name :: outer => .nextMember ((name, json) :: members) outer

/-- A token where a value is expected. -/
def onValue (outer : List Frame) : Token → Option State
  | .openArray => some (.firstItem outer)
  | .openObject => some (.firstName outer)
  | .text s => some (complete (.text s) outer)
  | .scalar json => some (complete json outer)
  | _ => none

/-- One token further; `none` if the token cannot stand here. -/
def step? (state : State) (token : Token) : Option State :=
  match state, token with
  | .value outer, token => onValue outer token
  | .firstItem outer, .closeArray => some (complete (.array []) outer)
  | .firstItem outer, token => onValue (.array [] :: outer) token
  | .firstName outer, .closeObject => some (complete (.object []) outer)
  | .firstName outer, .text name => some (.colon [] name outer)
  | .nextName members outer, .text name => some (.colon members name outer)
  | .colon members name outer, .colon => some (.value (.object members name :: outer))
  | .nextItem items outer, .comma => some (.value (.array items :: outer))
  | .nextItem items outer, .closeArray => some (complete (.array items.reverse) outer)
  | .nextMember members outer, .comma => some (.nextName members outer)
  | .nextMember members outer, .closeObject => some (complete (.object members.reverse) outer)
  | _, _ => none

end State

/-- The value that a list of tokens is. -/
def ofTokens? (tokens : List Token) : Option Json :=
  match tokens.foldlM State.step? (.value []) with
  | some (.done json) => some json
  | _ => none

/-- The value that a text is. -/
def parse? (text : String) : Option Json := (Token.scan? text.toList).bind ofTokens?

end QubitBasic.Json
