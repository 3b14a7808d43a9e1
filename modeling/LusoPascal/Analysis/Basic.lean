import LusoPascal.Analysis.Error
import LusoPascal.Scope.Table

/-!
# The state of an analysis

An analysis keeps the open scopes and three records in order: the scopes opened, the references
resolved, and the steps taken on the scopes. When it fails, the records stop at the failure and
the open scopes stay open.

* `OpenedScope`, `Resolution`, `Event`: the entries of the records;
* `Analysis`, `Analyzer`: the state, and a step on it that may fail;
* `enter`, `leave`, `define`, `resolve?`: the steps that the rules are made of;
* `leave_apply`, `define_apply`: the state behind a step that cannot fail.
-/

namespace LusoPascal

/-- A scope that was opened, and the one around it. -/
structure OpenedScope where
  name : String
  level : Nat
  enclosing : Option String
deriving DecidableEq

/-- A reference, and the scope that says what it means. -/
structure Resolution where
  name : String
  line : Nat
  scope : String
  level : Nat
deriving DecidableEq

/-- A step on the open scopes. -/
inductive Event where
  | entering (scope : String) (level : Nat)
  | defining (symbol : Symbol) (scope : String)
  | leaving (scope : String) (level size : Nat)
deriving DecidableEq

instance : ToString Event where
  toString
    | .entering scope level => s!"entrando no escopo {scope} (nível {level})"
    | .defining symbol scope => s!"definindo {symbol} no escopo {scope}"
    | .leaving scope level size => s!"saindo do escopo {scope} (nível {level}, {size} símbolos)"

/-- The open scopes and the records of an analysis. -/
structure Analysis where
  table : SymbolTable
  scopes : Array OpenedScope
  resolutions : Array Resolution
  events : Array Event
deriving DecidableEq

/-- Nothing analysed yet. -/
def Analysis.initial : Analysis := ⟨.empty, #[], #[], #[]⟩

/-- A step of an analysis, which may find an error. -/
abbrev Analyzer := EStateM SemanticError Analysis

namespace Analyzer

/-- Stop at a broken rule. -/
def fail {α : Type} (violation : Violation) (line : Nat) : Analyzer α :=
  throw ⟨violation, line⟩

/-- Forget all that was analysed before. -/
def restart : Analyzer Unit := set Analysis.initial

/-- Open a scope and record it. -/
def enter (name : String) : Analyzer Unit :=
  modify fun analysis =>
    let scope := analysis.table.newScope name
    { analysis with
      table := analysis.table.push name
      scopes := analysis.scopes.push
        ⟨name, scope.level, analysis.table.current?.map Scope.name⟩
      events := analysis.events.push (.entering name scope.level) }

/-- Close the current scope. -/
def leave : Analyzer Unit :=
  modify fun analysis =>
    match analysis.table.pop? with
    | none => analysis
    | some (scope, table) =>
      { analysis with
        table
        events := analysis.events.push (.leaving scope.name scope.level scope.size) }

/-- File a symbol in the current scope. -/
def define (symbol : Symbol) : Analyzer Unit :=
  modify fun analysis =>
    match analysis.table.define? symbol with
    | none => analysis
    | some table =>
      let scope := (analysis.table.current?.map Scope.name).getD ""
      { analysis with table, events := analysis.events.push (.defining symbol scope) }

/-- Complete the parameters of a procedure that the scope around the current one files. -/
def setEnclosingParams (name : String) (params : List TypedName) : Analyzer Unit :=
  modify fun analysis =>
    { analysis with table := analysis.table.setEnclosingParams name params }

/-- What a name stands for. -/
def lookup? (name : String) : Analyzer (Option Symbol) :=
  return (← get).table.lookup? name

/-- What a name stands for, and where. -/
def resolve? (name : String) : Analyzer (Option (Symbol × Scope)) :=
  return (← get).table.resolve? name

/-- Whether the current scope files a name. -/
def isTaken (name : String) : Analyzer Bool :=
  return ((← get).table.lookupHere? name).isSome

/-- Record where a reference was resolved. -/
def record (name : String) (line : Nat) (scope : Scope) : Analyzer Unit :=
  modify fun analysis =>
    { analysis with
      resolutions := analysis.resolutions.push ⟨name, line, scope.name, scope.level⟩ }

theorem leave_apply (analysis : Analysis) :
    leave analysis = .ok () (match analysis.table.pop? with
      | none => analysis
      | some (scope, table) =>
        { analysis with
          table
          events := analysis.events.push (.leaving scope.name scope.level scope.size) }) := rfl

theorem define_apply (symbol : Symbol) (analysis : Analysis) :
    define symbol analysis = .ok () (match analysis.table.define? symbol with
      | none => analysis
      | some table =>
        let scope := (analysis.table.current?.map Scope.name).getD ""
        { analysis with table, events := analysis.events.push (.defining symbol scope) }) := rfl

end Analyzer

end LusoPascal
