/-
  The arguments of the command line.

  The first argument names the command.  The arguments of `run` are read from the left: an option
  takes what follows it as its value, whatever that looks like, a repeated option counts where it
  stands last, and one argument that is no option names the program.  The leftmost fault is reported;
  that no program is named is one only at the end.
-/
import QubitBasic.Text.Digits

namespace QubitBasic

open Text

/-- What `run` is asked to do. -/
structure RunArguments where
  path : String
  /-- The result is printed as JSON. -/
  json : Bool
  seed : Option UInt64
  /-- The file that the configuration is read from. -/
  config : Option String
  deriving DecidableEq, Repr

namespace RunArguments

/-- What is wrong with the arguments of `run`. -/
inductive Error where
  | seedMissing
  | badSeed (value : String) (error : NumeralError)
  | configMissing
  | unknownOption (option : String)
  | unexpected (argument : String)
  | noPath
  deriving DecidableEq, Repr

/-- The wording of an `Error`. -/
def Error.message : Error → String
  | .seedMissing => "--seed needs a value"
  | .badSeed value error => s!"bad --seed '{value}': {error.message}"
  | .configMissing => "--config needs a path"
  | .unknownOption option => s!"unknown option '{option}'"
  | .unexpected argument => s!"unexpected argument '{argument}'"
  | .noPath => "Usage: qbasic run <file.bas> [--json] [--seed N] [--config FILE]"

/-- The arguments read so far. -/
structure Pending where
  path : Option String := none
  json : Bool := false
  seed : Option UInt64 := none
  config : Option String := none
  deriving DecidableEq, Repr

/-- An argument that starts with two dashes. -/
def isOption (argument : String) : Bool := ['-', '-'].isPrefixOf argument.toList

/-- Reads the remaining arguments after those in `pending`. -/
def read (pending : Pending) : List String → Except Error RunArguments
  | [] =>
    match pending.path with
    | none => .error .noPath
    | some path => .ok ⟨path, pending.json, pending.seed, pending.config⟩
  | argument :: rest =>
    if argument = "--json" then read { pending with json := true } rest
    else if argument = "--seed" then
      match rest with
      | [] => .error .seedMissing
      | value :: rest =>
        match word value.toList with
        | .error error => .error (.badSeed value error)
        | .ok n => read { pending with seed := some (UInt64.ofNat n) } rest
    else if argument = "--config" then
      match rest with
      | [] => .error .configMissing
      | path :: rest => read { pending with config := some path } rest
    else if isOption argument then .error (.unknownOption argument)
    else match pending.path with
      | none => read { pending with path := some argument } rest
      | some _ => .error (.unexpected argument)

/-- The arguments of `run`. -/
def parse (arguments : List String) : Except Error RunArguments := read {} arguments

end RunArguments

/-- What the command line is asked to do. -/
inductive Command where
  | demo
  | help
  | run (arguments : List String)
  | unknown (name : String)
  deriving DecidableEq, Repr

/-- The command that a list of arguments asks for; without any it is `demo`. -/
def Command.parse : List String → Command
  | [] => .demo
  | name :: rest =>
    if name = "demo" then .demo
    else if name = "run" then .run rest
    else if name = "help" ∨ name = "--help" then .help
    else .unknown name

end QubitBasic
