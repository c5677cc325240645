/-
  Configurations as JSON.

  A configuration is written as an object with all fields.  It is read from an object that names
  the fields it changes, in any order; other names are ignored, whatever their values, and a field
  may be named only once.  An array is read as the fields in order, those at its end left out or
  not.  A policy is a string, or an object with that string as its one name and null as its value.
-/
import QubitBasic.Config.Basic
import QubitBasic.Json.Reader

namespace QubitBasic

/-- The name of a policy for missing targets. -/
def TargetPolicy.name : TargetPolicy → String
  | .fallThrough => "fall_through"
  | .strict => "strict"

/-- The name of a policy for duplicate lines. -/
def DuplicatePolicy.name : DuplicatePolicy → String
  | .keep => "keep"
  | .reject => "reject"

namespace Config

open Text

/-- The fields of a configuration. -/
inductive Field where
  | maxSteps
  | timeBudget
  | maxQubits
  | missingTarget
  | duplicates
  | seed
  | quantum
  deriving DecidableEq, Repr

namespace Field

/-- The name of a field in JSON. -/
def name : Field → String
  | .maxSteps => "max_steps"
  | .timeBudget => "time_budget_ms"
  | .maxQubits => "max_qubits"
  | .missingTarget => "goto_policy"
  | .duplicates => "duplicate_lines"
  | .seed => "seed"
  | .quantum => "quantum"

/-- The position of a field in an array. -/
def position : Field → Nat
  | .maxSteps => 0
  | .timeBudget => 1
  | .maxQubits => 2
  | .missingTarget => 3
  | .duplicates => 4
  | .seed => 5
  | .quantum => 6

/-- The number of fields. -/
def count : Nat := 7

end Field

/-! ## Writing -/

/-- A number of 64 bits. -/
def wordJson (n : UInt64) : Json := .natural n.toNat

/-- A number of 64 bits, or null. -/
def optionalJson (n : Option UInt64) : Json := n.elim .null wordJson

/-- The JSON value of one field. -/
def fieldJson (config : Config) : Field → Json
  | .maxSteps => wordJson config.maxSteps
  | .timeBudget => optionalJson config.timeBudget
  | .maxQubits => wordJson config.maxQubits
  | .missingTarget => .ofString config.missingTarget.name
  | .duplicates => .ofString config.duplicates.name
  | .seed => optionalJson config.seed
  | .quantum => .bool config.quantum

/-- All fields in the order of their positions. -/
def Field.all : List Field :=
  [.maxSteps, .timeBudget, .maxQubits, .missingTarget, .duplicates, .seed, .quantum]

/-- A configuration as an object with all fields. -/
def toJson (config : Config) : Json :=
  .ofMembers (Field.all.map fun field => (field.name, fieldJson config field))

/-! ## Reading -/

/-- The number of 64 bits that a value is. -/
def word? : Json → Option UInt64
  | .natural n => if n ≤ greatestWord then some (UInt64.ofNat n) else none
  | _ => none

/-- The number of 64 bits that a value is, or the absence of one. -/
def optionalWord? : Json → Option (Option UInt64)
  | .null => some none
  | json => (word? json).map some

/-- The truth value that a value is. -/
def bool? : Json → Option Bool
  | .bool b => some b
  | _ => none

/-- The one of `policies` that a value names. -/
def policy? {α : Type} (nameOf : α → String) (policies : List α) : Json → Option α
  | .text (some name) => policies.find? (nameOf · == name)
  | .object [(some name, .null)] => policies.find? (nameOf · == name)
  | _ => none

/-- The policy for missing targets that a value names. -/
def targetPolicy? : Json → Option TargetPolicy := policy? TargetPolicy.name [.fallThrough, .strict]

/-- The policy for duplicate lines that a value names. -/
def duplicatePolicy? : Json → Option DuplicatePolicy := policy? DuplicatePolicy.name [.keep, .reject]

/-- The configuration whose fields are given by `get`: absent ones have their defaults, and `none`
    stands for a field that is given more than once. -/
def ofFields? (get : Field → Option (Option Json)) : Option Config := do
  let read {α : Type} (field : Field) (default : α) (convert : Json → Option α) : Option α := do
    match ← get field with
    | none => return default
    | some json => convert json
  let standard : Config := {}
  return {
    maxSteps := ← read .maxSteps standard.maxSteps word?
    timeBudget := ← read .timeBudget standard.timeBudget optionalWord?
    maxQubits := ← read .maxQubits standard.maxQubits word?
    missingTarget := ← read .missingTarget standard.missingTarget targetPolicy?
    duplicates := ← read .duplicates standard.duplicates duplicatePolicy?
    seed := ← read .seed standard.seed optionalWord?
    quantum := ← read .quantum standard.quantum bool? }

/-- The member of an object that gives a field. -/
def member? (members : List (Option String × Json)) (field : Field) : Option (Option Json) :=
  match members.filter fun member => member.1 == some field.name with
  | [] => some none
  | [(_, json)] => some (some json)
  | _ => none

/-- The configuration that a value is. -/
def ofJson? : Json → Option Config
  | .object members =>
    if members.all (·.1.isSome) then ofFields? (member? members) else none
  | .array items =>
    if items.length ≤ Field.count then ofFields? fun field => some items[field.position]? else none
  | _ => none

/-- The configuration that a text is, if it can be used. -/
def parse (text : String) : Except Error Config :=
  match (Json.parse? text).bind ofJson? with
  | none => .error .unreadable
  | some config => (config.check).map fun _ => config

end Config

end QubitBasic
