import LusoPascal.Analysis.Program
import LusoPascal.Compilation.Log
import LusoPascal.Grammar.Program

/-!
# Reports

Compiling a program means to read it, parse it and analyse it, and it ends with the first error.
A report tells how that went.

* `Report`: the outcome, the tokens that the parser consumed, and the log;
* `Report.ofParsed`: the end of a report, from a parsed program on;
* **`Report.ofSource`**, **`Report.ofFile`**: the report on a text, and on the contents of a file.
-/

namespace LusoPascal

/-- The text of a file. -/
def decodeFile (contents : Except ReadError ByteArray) : Except ReadError String := do
  match String.fromUTF8? (← contents) with
  | some source => return source
  | none => throw .notUtf8

/-- The outcome of a compilation, the tokens that the parser consumed, and the log. -/
structure Report where
  outcome : Except Failure Program
  consumed : List Located
  log : List LogRecord

namespace Report

/-- The report on a program once it is parsed. -/
def ofParsed (strict : Bool) (program : Program) (consumed : List Located) : Report :=
  let (result, analysis) := program.analyze strict .initial
  let parsing := .parsing :: consumed.map .consumed
  let analysing := .analysing program.name :: analysis.events.toList.map .step
  { outcome := (result.mapError .semantic).map fun _ => program
    consumed
    log := parsing ++ analysing }

/-- The report on a text. -/
def ofSource (strict : Bool) (source : String) : Report :=
  match Reader.ofSource source with
  | .error error => ⟨.error (.lexical error), [], [.parsing]⟩
  | .ok reader =>
    let (parsed, behind) := reader.parse
    let consumed := behind.consumed.toList
    match parsed with
    | .error error => ⟨.error error.toFailure, consumed, .parsing :: consumed.map .consumed⟩
    | .ok program => ofParsed strict program consumed

/-- The report on a file, given its contents. -/
def ofFile (strict : Bool) (path : String) (contents : Except ReadError ByteArray) : Report :=
  match decodeFile contents with
  | .error error => ⟨.error (.input error), [], [.reading path]⟩
  | .ok source =>
    let report := ofSource strict source
    { report with log := .reading path :: report.log }

end Report

end LusoPascal
