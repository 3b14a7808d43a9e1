import LusoPascal.Scope.Symbol
import LusoPascal.Token.Basic

/-!
# Syntax trees

A program is a block: declarations in source order, then a body. A declaration of several
variables becomes one node per name. A conditional with and one without alternative are two
shapes of statement.

* `Identifier`, `TypeName`: an identifier at its place, and a word in place of a type;
* `Expression`, `Statement`: values and commands;
* `Declaration`, `Block`, `Program`.
-/

namespace LusoPascal

/-- An identifier where it occurs: its name, the token that was read, and the line. -/
structure Identifier where
  name : String
  token : Token
  line : Nat
deriving DecidableEq

/-- The token in place of a type. -/
structure TypeName where
  token : Token
deriving DecidableEq

namespace TypeName

/-- The word that a type is looked up by. -/
def name (type : TypeName) : String := type.token.text

/-- The type that the category of the token names. -/
def builtin? (type : TypeName) : Option BaseType := BaseType.ofKind? type.token.kind

end TypeName

/-- Expressions; an operator is kept as the token that was read. -/
inductive Expression where
  | binary (left : Expression) (op : Token) (right : Expression)
  | unary (op : Token) (operand : Expression)
  | number (value : Int)
  | boolean (value : Bool)
  | var (ident : Identifier)
deriving DecidableEq

/-- A call of a procedure; the arguments are names. -/
structure Call where
  name : String
  args : List String
  line : Nat
deriving DecidableEq

/-- Commands. -/
inductive Statement where
  | compound (children : List Statement)
  | assign (target : Identifier) (op : Token) (value : Expression)
  | ifThen (condition : Expression) (thenBranch : Statement)
  | ifThenElse (condition : Expression) (thenBranch elseBranch : Statement)
  | loop (condition : Expression) (body : Statement)
  | call (call : Call)
  | empty

/-- A name with the word for its type: a declared variable or a parameter. -/
structure TypedIdentifier where
  ident : Identifier
  type : TypeName
deriving DecidableEq

/-- The head of a procedure, with the line of the word that begins it. -/
structure Heading where
  name : String
  params : List TypedIdentifier
  line : Nat
deriving DecidableEq

/-- Declarations; that of a procedure holds the declarations and the body of its block. -/
inductive Declaration where
  | var (entry : TypedIdentifier)
  | procedure (heading : Heading) (declarations : List Declaration) (body : List Statement)

/-- Declarations and the commands that follow them. -/
structure Block where
  declarations : List Declaration
  body : List Statement

/-- A named block. -/
structure Program where
  name : String
  block : Block

end LusoPascal
