import ElispLift.CommandLine

/-!
# The program

Reads the file that the command line names and prints what comes of it.
-/

namespace ElispLift

open CommandLine

/-- The number of a system error, which comes with either sign. -/
def errorNumber (code : UInt32) : UInt32 := min code (0 - code)

def readFailure : IO.Error → ReadFailure
  | .permissionDenied _ _ _ => .permissionDenied
  | .inappropriateType _ code _ =>
    if errorNumber code = 20 then .notDirectory else .isDirectory
  | .invalidArgument _ _ _ => .nameTooLong
  | .userError _ => .notText
  | _ => .noSuchFile

def readListing (path : String) : IO (Except ReadFailure String) := do
  try
    return .ok (← IO.FS.readFile path)
  catch e =>
    return .error (readFailure e)

def outcome (args : List String) : IO Outcome := do
  match Command.ofArguments? args with
  | none => return rejected
  | some .version => return ⟨0, versionText, []⟩
  | some (.decompileFile path options) =>
    return decompileListing path options (← readListing path)

end ElispLift

def main (args : List String) : IO UInt32 := do
  let result ← ElispLift.outcome args
  IO.print result.stdout
  for line in result.stderr do
    IO.eprintln line
  return result.code.toUInt32
