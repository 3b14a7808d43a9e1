import LusoPascal.Analysis.Basic
import LusoPascal.Tree.Basic

/-!
# Analysis of programs

A program is visited in source order. Each declared name must be new in its scope and each type
a known one; each reference must be declared, by then, in a scope around it. A procedure is known
before its own parameters and block, and its parameters share the scope of its block. Operators
and operands are not checked against each other. A strict analysis also checks every call against
the parameters of the procedure called.

* `typeNamed`, `declare`: the rules for declared names;
* `reference`, `matchArguments`, `call`: the rules for references and calls;
* `expression`, `statement`, `declaration`, `block`: the visit;
* **`Program.analyze`**: the analysis of a program after any earlier ones.
-/

namespace LusoPascal

namespace Analyzer

/-- The type that a word stands for. -/
def typeNamed (type : TypeName) (line : Nat) : Analyzer BaseType := do
  match ← lookup? type.name with
  | some (.type builtin) => return builtin
  | _ => fail (.unknownType type.name) line

/-- Declare a variable or a parameter. -/
def declare (entry : TypedIdentifier) : Analyzer TypedName := do
  let ident := entry.ident
  let type ← typeNamed entry.type ident.line
  if ← isTaken ident.name then fail (.redeclaredVariable ident.name) ident.line
  define (.var ⟨ident.name, type⟩)
  return ⟨ident.name, type⟩

/-- Declare the parameters of a procedure in order. -/
def declareAll : List TypedIdentifier → Analyzer (List TypedName)
  | [] => return []
  | entry :: rest => return (← declare entry) :: (← declareAll rest)

/-- A reference to a name. -/
def reference (ident : Identifier) : Analyzer Unit := do
  match ← resolve? ident.name with
  | some (_, scope) => record ident.name ident.line scope
  | none => fail (.unknownVariable ident.name) ident.line

/-- Each argument must be a variable of the type of its parameter. -/
def matchArguments (call : Call) : List String → List TypedName → Analyzer Unit
  | argument :: arguments, param :: params => do
    match ← lookup? argument with
    | some (.var entry) =>
      if entry.type ≠ param.type then
        fail (.argumentType call.name argument param.type entry.type) call.line
      matchArguments call arguments params
    | some _ => fail (.argumentNotVariable call.name argument) call.line
    | none => fail (.unknownVariable argument) call.line
  | _, _ => return ()

/-- The arguments of a call must match the parameters in number and types. -/
def matchSignature (call : Call) (params : List TypedName) : Analyzer Unit := do
  if call.args.length ≠ params.length then
    fail (.argumentCount call.name params.length call.args.length) call.line
  matchArguments call call.args params

/-- A call. Unless the analysis is strict, any declared name may be called. -/
def call (strict : Bool) (call : Call) : Analyzer Unit := do
  match ← resolve? call.name with
  | none => fail (.unknownProcedure call.name) call.line
  | some (symbol, scope) =>
    if strict then
      match symbol with
      | .procedure _ params =>
        record call.name call.line scope
        matchSignature call params
      | _ => fail (.notProcedure call.name) call.line
    else record call.name call.line scope

/-- The references in an expression, from left to right. -/
def expression : Expression → Analyzer Unit
  | .binary left _ right => do
    expression left
    expression right
  | .unary _ operand => expression operand
  | .number _ => return ()
  | .boolean _ => return ()
  | .var ident => reference ident

/-! ## Commands -/

section Statement

variable (strict : Bool)

mutual

/-- The references in a command. -/
def statement : Statement → Analyzer Unit
  | .compound children => statements children
  | .assign target _ value => do
    reference target
    expression value
  | .ifThen condition thenBranch => do
    expression condition
    statement thenBranch
  | .ifThenElse condition thenBranch elseBranch => do
    expression condition
    statement thenBranch
    statement elseBranch
  | .loop condition body => do
    expression condition
    statement body
  | .call procedureCall => call strict procedureCall
  | .empty => return ()

/-- The references in commands, one after the other. -/
def statements : List Statement → Analyzer Unit
  | [] => return ()
  | first :: rest => do
    statement first
    statements rest

end

end Statement

/-! ## Declarations -/

section Declaration

variable (strict : Bool)

mutual

/-- A declaration. -/
def declaration : Declaration → Analyzer Unit
  | .var entry => discard (declare entry)
  | .procedure heading inner body => do
    if ← isTaken heading.name then fail (.redeclaredProcedure heading.name) heading.line
    define (.procedure heading.name [])
    enter heading.name
    let params ← declareAll heading.params
    setEnclosingParams heading.name params
    declarations inner
    statements strict body
    leave

/-- Declarations, one after the other. -/
def declarations : List Declaration → Analyzer Unit
  | [] => return ()
  | first :: rest => do
    declaration first
    declarations rest

end

/-- Declarations, then commands. -/
def block (block : Block) : Analyzer Unit := do
  declarations strict block.declarations
  statements strict block.body

/-- A program in a scope of its own, whatever was analysed before. -/
def program (program : Program) : Analyzer Unit := do
  restart
  enter "global"
  block strict program.block
  leave

end Declaration

end Analyzer

/-- Analyse a program after an earlier analysis. -/
def Program.analyze (strict : Bool) (program : Program) (earlier : Analysis) :
    Except SemanticError Unit × Analysis :=
  match Analyzer.program strict program earlier with
  | .ok () analysis => (.ok (), analysis)
  | .error error analysis => (.error error, analysis)

end LusoPascal
