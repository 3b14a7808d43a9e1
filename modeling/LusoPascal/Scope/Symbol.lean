import LusoPascal.Token.Kind

/-!
# Symbols

What a name can stand for.

* `BaseType`: the two types, with the word that names them and the name they print as;
* `TypedName`: a name with its type, which describes a variable, a parameter or a constant;
* `Symbol`, `Symbol.name`: the meanings of a name, and the name itself.
-/

namespace LusoPascal

/-- The types of the language. -/
inductive BaseType where
  | inteiro | logico
deriving DecidableEq

namespace BaseType

/-- Both types. -/
def all : List BaseType := [inteiro, logico]

/-- The word that names a type in a program. -/
def word : BaseType → String
  | inteiro => "inteiro"
  | logico => "logico"

instance : ToString BaseType where
  toString
    | inteiro => "INTEIRO"
    | logico => "LÓGICO"

/-- The type that a category of tokens names. -/
def ofKind? : TokenKind → Option BaseType
  | .inteiro => some inteiro
  | .logico => some logico
  | _ => none

/-- The type that a word names. -/
def ofWord? (word : String) : Option BaseType :=
  all.find? fun type => type.word == word

end BaseType

/-- A name and its type. -/
structure TypedName where
  name : String
  type : BaseType
deriving DecidableEq

/-- What a name stands for. No program declares a constant yet. -/
inductive Symbol where
  | var (entry : TypedName)
  | procedure (name : String) (params : List TypedName)
  | constant (entry : TypedName)
  | type (type : BaseType)
deriving DecidableEq

namespace Symbol

/-- The name that a symbol is filed under. -/
def name : Symbol → String
  | var entry => entry.name
  | procedure name _ => name
  | constant entry => entry.name
  | type t => t.word

instance : ToString Symbol where
  toString
    | var entry => s!"VariableSymbol({entry.name}, {entry.type})"
    | procedure name params =>
      let names := ", ".intercalate (params.map TypedName.name)
      s!"ProcedureSymbol({name}, [{names}])"
    | constant entry => s!"ConstantSymbol({entry.name}, {entry.type})"
    | type t => s!"TypeSymbol({t})"

/-- The symbol with another parameter list, if it is a procedure; any other symbol is kept. -/
def withParams (params : List TypedName) : Symbol → Symbol
  | procedure name _ => procedure name params
  | symbol => symbol

@[simp] theorem name_withParams (params : List TypedName) (symbol : Symbol) :
    (symbol.withParams params).name = symbol.name := by
  cases symbol <;> rfl

end Symbol

end LusoPascal
