import LusoPascal.Analysis.Error
import LusoPascal.Grammar.Error
import LusoPascal.Text.Line

/-!
# Failures

A compilation fails in the first phase that finds an error.

* `ReadError`: why a file gives no text;
* `Failure`, `Phase`: an error of one phase, and the phases;
* `Failure.message`, `Failure.line?`: the wording with its phase, and the line;
* `Failure.diagnostic`: the diagnostic for the terminal, with the line of the text at fault.
-/

namespace LusoPascal

/-- Why a file gives no text. -/
inductive ReadError where
  /-- The system refuses to read it. -/
  | system (description : String) (code : Nat)
  /-- Its bytes are not UTF-8. -/
  | notUtf8
deriving DecidableEq

namespace ReadError

/-- No file has the given name. -/
def missing : ReadError := system "No such file or directory" 2

/-- The name is that of a directory. -/
def isDirectory : ReadError := system "Is a directory" 21

/-- The wording of a read error. -/
def message : ReadError → String
  | system description code => s!"{description} (os error {code})"
  | notUtf8 => "stream did not contain valid UTF-8"

end ReadError

/-- The phases of a compilation. -/
inductive Phase where
  | input | lexical | syntactic | semantic
deriving DecidableEq

instance : ToString Phase where
  toString
    | .input => "E/S"
    | .lexical => "léxico"
    | .syntactic => "sintático"
    | .semantic => "semântico"

/-- An error of one phase of a compilation. -/
inductive Failure where
  | input (error : ReadError)
  | lexical (error : LexicalError)
  | syntactic (error : SyntaxError)
  | semantic (error : SemanticError)
deriving DecidableEq

/-- The phase at fault when a text is no program. -/
def ParseError.toFailure : ParseError → Failure
  | .lexical error => .lexical error
  | .syntactic error => .syntactic error

namespace Failure

/-- The phase that found the error. -/
def phase : Failure → Phase
  | input _ => .input
  | lexical _ => .lexical
  | syntactic _ => .syntactic
  | semantic _ => .semantic

/-- The line that an error points at; a file that gives no text has none. -/
def line? : Failure → Option Nat
  | input _ => none
  | lexical error => some error.line
  | syntactic error => some error.line
  | semantic error => some error.line

/-- The wording of an error, with the phase in front. -/
def message : Failure → String
  | input error => s!"I/O Error: {error.message}"
  | lexical error => s!"[Analisador Léxico] {error.message}"
  | syntactic error => s!"[Analisador Sintático] {error.message}"
  | semantic error => s!"[Analisador Semântico] {error.message}"

/-- The diagnostic of a failure: its line and wording, then that line of a text. -/
def diagnostic (failure : Failure) (source : String) : String :=
  match failure.line? with
  | none => s!"erro: {failure.message}"
  | some line =>
    let quoted := String.ofList (excerpt line source.toList)
    s!"erro:{line}: {failure.message}\n  {line} | {quoted}"

end Failure

end LusoPascal
