import LusoPascal.Command

/-!
# The command line

The outer layer: read the arguments and the file, print the answer, exit with its code.
-/

namespace LusoPascal

/-- The reason for which the system refuses to read a file. -/
def ReadError.ofIO : IO.Error → ReadError
  | .noFileOrDirectory .. => .missing
  | .inappropriateType .. => .isDirectory
  | .permissionDenied _ code _ => .system "Permission denied" code.toNat
  | error => .system (toString error) 0

/-- The contents of a file. -/
def readContents (path : String) : IO (Except ReadError ByteArray) := do
  try
    return .ok (← IO.FS.readBinFile path)
  catch error =>
    return .error (.ofIO error)

/-- Check the file that the arguments name. -/
def runCommand (args : List String) : IO UInt32 := do
  match Command.Options.ofArgs? .plain none args with
  | none =>
    IO.eprintln "usage: lusopascal [--trace] [--strict] [--dump-ast] [-v]... FILE"
    return 2
  | some (options, path) =>
    let answer := Command.run options (← readContents path)
    IO.print answer.stdout
    IO.eprint answer.stderr
    return answer.code.toUInt32

end LusoPascal

def main (args : List String) : IO UInt32 := LusoPascal.runCommand args
