/-
  The command line program.
-/
import QubitBasic.Command.Session

namespace QubitBasic

/-- The wording of a failure to read a file. -/
def readFailure : IO.Error → String
  | .noFileOrDirectory _ code details => s!"{details} (os error {code})"
  | .permissionDenied _ code details => s!"{details} (os error {code})"
  | .inappropriateType _ code details => s!"{details} (os error {code})"
  | error => toString error

/-- Files of the file system, seeds from the system's entropy, and the system's clock. -/
def systemHost : Host IO where
  fileText path := do
    match ← (IO.FS.readFile path).toBaseIO with
    | .ok text => return .ok text
    | .error error => return .error (readFailure error)
  entropy := do
    let bytes ← IO.getRandomBytes 8
    return bytes.foldl (fun n byte => n * 256 + byte.toUInt64) 0
  stopwatch := do
    let start ← IO.monoNanosNow
    return do return (← IO.monoNanosNow) - start

/-- Carries out the command that the arguments ask for; the result is the exit code. -/
def program (arguments : List String) : IO UInt32 := do
  let report ← (Command.parse arguments).carryOut systemHost
  IO.print report.stdout
  IO.eprint report.stderr
  return UInt32.ofNat report.exit

end QubitBasic

def main (arguments : List String) : IO UInt32 := QubitBasic.program arguments
