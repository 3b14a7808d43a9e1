import LusoPascal.Token.Basic

/-!
# Syntax errors

A program is rejected at the first token that its grammar does not allow, or at a fault of the
text met while tokens are fetched.

* `Defect`, `SyntaxError`: what the grammar wanted, and the token found instead;
* `ParseError`: a syntax error or a lexical one, with its wording and line.
-/

namespace LusoPascal

/-- What the grammar wanted. -/
inductive Defect where
  /-- A token of one kind. -/
  | expected (kind : TokenKind)
  /-- The name of a type. -/
  | expectedType
  /-- No identifier right behind a list of commands. -/
  | strayIdentifier
deriving DecidableEq

/-- What the grammar wanted, and the token found instead. -/
structure SyntaxError where
  defect : Defect
  found : Located
deriving DecidableEq

namespace SyntaxError

/-- The line of the token found. -/
def line (error : SyntaxError) : Nat := error.found.line

/-- The wording of a syntax error. -/
def message (error : SyntaxError) : String :=
  let found := s!"{error.found.token} na linha {error.line}"
  match error.defect with
  | .expected kind => s!"Era esperado um token do tipo \"{kind}\" mas o encontrado foi {found}"
  | .expectedType => s!"Era esperado um tipo (inteiro ou logico) mas o encontrado foi {found}"
  | .strayIdentifier => s!"Identificador inesperado na produção \"Lista de comandos\": {found}"

end SyntaxError

/-- Why a text is no program. -/
inductive ParseError where
  | lexical (error : LexicalError)
  | syntactic (error : SyntaxError)
deriving DecidableEq

namespace ParseError

/-- The line that an error points at. -/
def line : ParseError → Nat
  | lexical error => error.line
  | syntactic error => error.line

/-- The wording of an error. -/
def message : ParseError → String
  | lexical error => error.message
  | syntactic error => error.message

end ParseError

end LusoPascal
