import LusoPascal.Token.Kind

/-!
# Tokens

A token is a category together with what was read: a value for a literal, the spelling for
everything else, nothing for the end of the text.

* `Lexeme`, `Token`, `Located`: the value, the token, and the token with the line it starts on;
* `Token.text`: the spelling, empty for a literal;
* `Fault`, `LexicalError`: what can be wrong in a text, and where.
-/

namespace LusoPascal

/-- What a token carries. -/
inductive Lexeme where
  | integer (value : Int)
  | boolean (value : Bool)
  | text (spelling : String)
  | none
deriving DecidableEq

/-- The word for a truth value. -/
def booleanWord (value : Bool) : String :=
  if value then "verdadeiro" else "falso"

instance : ToString Lexeme where
  toString
    | .integer value => toString value
    | .boolean value => booleanWord value
    | .text spelling => spelling
    | .none => "null"

/-- A category and what was read for it. -/
structure Token where
  kind : TokenKind
  lexeme : Lexeme
deriving DecidableEq

namespace Token

/-- The token at the end of a text. -/
def endOfInput : Token := ⟨.endOfInput, .none⟩

/-- The spelling of an identifier, reserved word or operator; a literal has none. -/
def text (token : Token) : String :=
  match token.lexeme with
  | .text spelling => spelling
  | _ => ""

instance : ToString Token where
  toString token := s!"Token<{token.kind}, {token.lexeme}>"

end Token

/-- A token and the line it starts on. -/
structure Located where
  token : Token
  line : Nat
deriving DecidableEq

instance : ToString Located where
  toString located := s!"Linha {located.line} - {located.token}"

/-- What can be wrong at a place of a text. -/
inductive Fault where
  /-- A character that begins no token. -/
  | strayCharacter (character : Char)
  /-- A digit run with a full stop right behind it. -/
  | pointAfterNumber (digits : String)
  /-- A digit run whose value is too large. -/
  | numberTooLarge (digits : String)
deriving DecidableEq

/-- A fault and the line of the offending text. -/
structure LexicalError where
  fault : Fault
  line : Nat
deriving DecidableEq

/-- The wording of a lexical error. -/
def LexicalError.message (error : LexicalError) : String :=
  match error.fault with
  | .strayCharacter character =>
    s!"Caractere inesperado: \"{character}\" na linha {error.line}"
  | .pointAfterNumber digits =>
    s!"Caractere inesperado: \".\" após o número {digits} na linha {error.line}"
  | .numberTooLarge digits =>
    s!"Literal inteiro fora do intervalo: {digits} na linha {error.line}"

end LusoPascal
