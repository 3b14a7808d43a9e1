import LusoPascal.Scope.Basic

/-!
# Nested scopes

The open scopes form a stack. A name means what the innermost scope that files it says.

* `SymbolTable`: the open scopes, innermost first;
* `current?`, `enclosing?`, `depth`: the innermost scope, the one around it, how many are open;
* `push`, `pop?`: open a scope inside the current one, and close the current one;
* `define?`, `setEnclosingParams`: the updates of the two innermost scopes;
* `resolve?`, `lookup?`, `lookupHere?`: what a name stands for, and where it was found.
-/

namespace LusoPascal

/-- The open scopes, innermost first. -/
structure SymbolTable where
  scopes : List Scope
deriving DecidableEq

namespace SymbolTable

/-- No scope is open. -/
def empty : SymbolTable := ⟨[]⟩

/-- How many scopes are open. -/
def depth (table : SymbolTable) : Nat := table.scopes.length

/-- The innermost scope. -/
def current? (table : SymbolTable) : Option Scope := table.scopes[0]?

/-- The scope around the innermost one. -/
def enclosing? (table : SymbolTable) : Option Scope := table.scopes[1]?

/-- The scope that opening one under a name would open. -/
def newScope (table : SymbolTable) (name : String) : Scope :=
  match table.current? with
  | none => .outermost name
  | some scope => scope.inside name

/-- Open a scope. -/
def push (table : SymbolTable) (name : String) : SymbolTable :=
  ⟨table.newScope name :: table.scopes⟩

/-- Close the innermost scope; nothing if no scope is open. -/
def pop? (table : SymbolTable) : Option (Scope × SymbolTable) :=
  match table.scopes with
  | [] => none
  | scope :: outer => some (scope, ⟨outer⟩)

/-- File a symbol in the innermost scope; nothing if no scope is open. -/
def define? (table : SymbolTable) (symbol : Symbol) : Option SymbolTable :=
  match table.scopes with
  | [] => none
  | scope :: outer => some ⟨scope.define symbol :: outer⟩

/-- Replace the parameters of a procedure filed in the scope around the innermost one. -/
def setEnclosingParams (table : SymbolTable) (name : String) (params : List TypedName) :
    SymbolTable :=
  match table.scopes with
  | scope :: enclosing :: outer => ⟨scope :: enclosing.setParams name params :: outer⟩
  | _ => table

/-- What a name stands for, and the innermost scope that files it. -/
def resolve? (table : SymbolTable) (name : String) : Option (Symbol × Scope) :=
  table.scopes.findSome? fun scope => (scope.get? name).map fun symbol => (symbol, scope)

/-- What a name stands for. -/
def lookup? (table : SymbolTable) (name : String) : Option Symbol :=
  (table.resolve? name).map Prod.fst

/-- What a name stands for in the innermost scope alone. -/
def lookupHere? (table : SymbolTable) (name : String) : Option Symbol :=
  table.current?.bind fun scope => scope.get? name

theorem depth_of_define? {table next : SymbolTable} {symbol : Symbol}
    (h : table.define? symbol = some next) : next.depth = table.depth := by
  obtain ⟨_ | ⟨scope, outer⟩⟩ := table
  · cases h
  · obtain rfl := Option.some.inj h
    rfl

@[simp] theorem depth_setEnclosingParams (table : SymbolTable) (name : String)
    (params : List TypedName) : (table.setEnclosingParams name params).depth = table.depth := by
  obtain ⟨_ | ⟨scope, _ | ⟨enclosing, outer⟩⟩⟩ := table <;> rfl

/-- A name filed in the innermost scope hides every other meaning. -/
theorem resolve?_cons (scope : Scope) (outer : List Scope) (name : String) :
    (SymbolTable.mk (scope :: outer)).resolve? name =
      ((scope.get? name).map fun symbol => (symbol, scope)).or
        ((SymbolTable.mk outer).resolve? name) := by
  simp only [resolve?, List.findSome?_cons]
  cases scope.get? name <;> rfl

theorem lookup?_cons (scope : Scope) (outer : List Scope) (name : String) :
    (mk (scope :: outer)).lookup? name = (scope.get? name).or ((mk outer).lookup? name) := by
  rw [lookup?, resolve?_cons, lookup?]
  cases scope.get? name <;> rfl

end SymbolTable

end LusoPascal
