import LusoPascal.Compilation.Report
import LusoPascal.Tree.Dump

/-!
# The command

The command checks one file. What it prints and how it exits depend on its options and on the
contents of the file alone.

* `Options`, `Options.ofArgs?`: what is asked for, and how it is asked on the command line;
* `Answer`: the two outputs and the exit code;
* **`run`**: the answer to given contents.
-/

namespace LusoPascal

namespace Command

/-- What is asked of the command. -/
structure Options where
  /-- Print every token that the parser consumes. -/
  trace : Bool
  /-- Check the arguments of calls. -/
  strict : Bool
  /-- Print the tree of an accepted program. -/
  dump : Bool
  /-- How much of the log is printed: nothing, then one more level for each step. -/
  verbosity : Nat
deriving DecidableEq

namespace Options

/-- Nothing but a verdict is asked for. -/
def plain : Options := ⟨false, false, false, 0⟩

/-- The number of times that a short flag asks for more of the log. -/
def verbosityOf? (flag : String) : Option Nat :=
  match flag.toList with
  | '-' :: letters =>
    if letters ≠ [] ∧ letters.all (· == 'v') then some letters.length else none
  | _ => none

/-- Read options and the name of one file from the arguments of the command. -/
def ofArgs? (options : Options) (file : Option String) : List String → Option (Options × String)
  | [] => file.map fun path => (options, path)
  | "--trace" :: rest => ofArgs? { options with trace := true } file rest
  | "--strict" :: rest => ofArgs? { options with strict := true } file rest
  | "--dump-ast" :: rest => ofArgs? { options with dump := true } file rest
  | "--verbose" :: rest => ofArgs? { options with verbosity := options.verbosity + 1 } file rest
  | argument :: rest =>
    match verbosityOf? argument, file with
    | some more, _ => ofArgs? { options with verbosity := options.verbosity + more } file rest
    | none, none =>
      if argument.startsWith "-" then none else ofArgs? options (some argument) rest
    | none, some _ => none

end Options

/-- What the command prints, and how it exits. -/
structure Answer where
  stdout : String
  stderr : String
  code : Nat
deriving DecidableEq

/-- Lines, each with its line feed. -/
def unlines (lines : List String) : String :=
  String.join (lines.map fun line => line ++ "\n")

/-- The answer to a text. -/
def answer (options : Options) (source : String) : Answer :=
  let report := Report.ofSource options.strict source
  let traced := if options.trace then report.consumed.map toString else []
  let logged := fun log => (LogRecord.visible options.verbosity log).map toString
  match report.outcome with
  | .ok program =>
    let dumped := if options.dump then [program.dump] else []
    { stdout := unlines (traced ++ dumped ++ [s!"Programa \"{program.name}\" aceito."])
      stderr := unlines (logged report.log)
      code := 0 }
  | .error failure =>
    let log := report.log ++ [.failed failure.phase]
    { stdout := unlines traced
      stderr := unlines (logged log ++ [failure.diagnostic source])
      code := 1 }

/-- The answer to the contents of a file. A file that gives no text is reported at once. -/
def run (options : Options) (contents : Except ReadError ByteArray) : Answer :=
  match decodeFile contents with
  | .ok source => answer options source
  | .error error =>
    { stdout := "", stderr := unlines [(Failure.input error).diagnostic ""], code := 1 }

end Command

end LusoPascal
