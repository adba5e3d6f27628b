import HandleLint.Command.Run

/-!
# The command line

Reads the files that the arguments name, and prints what the command comes to.
-/

namespace HandleLint.Command

/-- The number of a fault, which some calls report with its sign turned around. -/
def faultNumber (code : UInt32) : Nat :=
  if code < 0x80000000 then code.toNat else (0 - code).toNat

/-- The fault that the system reports. -/
def readErrorOf : IO.Error → ReadError
  | .noFileOrDirectory .. => .noSuchFile
  | .inappropriateType _ code _ | .permissionDenied _ code _ | .invalidArgument _ code _
  | .otherError code _ => .ofNumber (faultNumber code)
  | _ => .other 5

def readFile (path : String) : IO (Except ReadError String) := do
  try
    return textOfBytes (← IO.FS.readBinFile path)
  catch e =>
    return .error (readErrorOf e)

def colorChoice : IO ColorChoice := do
  return { refused := (← IO.getEnv "NO_COLOR").isSome
           forced := (← IO.getEnv "FORCE_COLOR").isSome
           terminal := ← (← IO.getStdout).isTty }

def printPiece (piece : Printed) : IO Unit := do
  match piece.channel with
  | .out => IO.print piece.text
  | .err => IO.eprint piece.text

end HandleLint.Command

open HandleLint.Command in
def main (args : List String) : IO UInt32 := do
  let paths := ((Invocation.parse? args).map Invocation.paths).getD []
  let files ← paths.mapM fun path => return (path, ← readFile path)
  let exit := run (← colorChoice).shown
    (fun path => (files.lookup path).getD (.error .noSuchFile)) (fun _ => .increasing) args
  exit.printed.forM printPiece
  return UInt32.ofNat exit.code
