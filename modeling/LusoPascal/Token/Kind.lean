/-!
# Kinds of tokens

The lexical categories of the language. Reserved words keep their own spelling; the words `leia`
and `escreva` are ordinary identifiers.

* `TokenKind`: the categories, with `endOfInput` for the end of the text;
* `TokenKind.name`, `TokenKind.ofName?`: the name that diagnostics use, and its inverse;
* `reservedWords`: the eighteen reserved spellings;
* `TokenKind.isRelational`, `TokenKind.isType`, and the operator classes of the grammar.
-/

namespace LusoPascal

/-- The lexical categories. -/
inductive TokenKind where
  | program | var | div | inteiro | logico | e | ou | nao
  | se | entao | senao | enquanto | faca | inicio | fim | procedimento
  | booleanLiteral | identifier | integerLiteral
  | assign | lessEqual | greaterEqual | notEqual | equal | less | greater
  | colon | comma | semicolon | dot | plus | minus | times | slash | leftParen | rightParen
  | endOfInput
deriving DecidableEq

namespace TokenKind

/-- All categories. -/
def all : List TokenKind :=
  [program, var, div, inteiro, logico, e, ou, nao, se, entao, senao, enquanto, faca, inicio, fim,
    procedimento, booleanLiteral, identifier, integerLiteral, assign, lessEqual, greaterEqual,
    notEqual, equal, less, greater, colon, comma, semicolon, dot, plus, minus, times, slash,
    leftParen, rightParen, endOfInput]

/-- The name of a category in diagnostics. -/
def name : TokenKind → String
  | program => "PROGRAM"
  | var => "VAR"
  | div => "DIVISAO_INTEIRA"
  | inteiro => "INTEIRO"
  | logico => "LÓGICO"
  | e => "E"
  | ou => "OU"
  | nao => "NÃO"
  | se => "SE"
  | entao => "ENTÃO"
  | senao => "SENÃO"
  | enquanto => "ENQUANTO"
  | faca => "FAÇA"
  | inicio => "INICIO"
  | fim => "FIM"
  | procedimento => "PROCEDIMENTO"
  | booleanLiteral => "LÓGICO_LITERAL"
  | identifier => "IDENTIFICADOR"
  | integerLiteral => "INTEIRO_LITERAL"
  | assign => "ATRIBUIÇÃO"
  | lessEqual => "MENOR_OU_IGUAL"
  | greaterEqual => "MAIOR_OU_IGUAL"
  | notEqual => "DIFERENTE"
  | equal => "IGUAL"
  | less => "MENOR"
  | greater => "MAIOR"
  | colon => "DOIS_PONTOS"
  | comma => "VIRGULA"
  | semicolon => "PONTO_E_VIRGULA"
  | dot => "PONTO"
  | plus => "MAIS"
  | minus => "MENOS"
  | times => "MULTIPLICAÇÃO"
  | slash => "BARRA"
  | leftParen => "ABRIR_PARENTESIS"
  | rightParen => "FECHAR_PARENTESIS"
  | endOfInput => "EOF"

instance : ToString TokenKind := ⟨name⟩

/-- The category with a given name. -/
def ofName? (text : String) : Option TokenKind :=
  all.find? fun kind => kind.name == text

/-- The relational operators `=`, `<>`, `>`, `>=`, `<` and `<=`. -/
def isRelational : TokenKind → Bool
  | equal | notEqual | greater | greaterEqual | less | lessEqual => true
  | _ => false

/-- The signs that may stand before the first term of a simple expression. -/
def isSign : TokenKind → Bool
  | plus | minus => true
  | _ => false

/-- The operators between the terms of a simple expression. -/
def isAdditive : TokenKind → Bool
  | plus | minus | ou => true
  | _ => false

/-- The operators between the factors of a term. -/
def isMultiplicative : TokenKind → Bool
  | times | div | e => true
  | _ => false

/-- The two words that name a type. -/
def isType : TokenKind → Bool
  | inteiro | logico => true
  | _ => false

/-- The words that begin a declaration of variables. -/
def beginsVariables : TokenKind → Bool
  | var | inteiro | logico => true
  | _ => false

end TokenKind

/-- The reserved words; `verdadeiro` and `falso` share one category. -/
def reservedWords : List (String × TokenKind) :=
  [("program", .program), ("var", .var), ("div", .div), ("inteiro", .inteiro),
    ("logico", .logico), ("e", .e), ("ou", .ou), ("nao", .nao), ("se", .se), ("entao", .entao),
    ("senao", .senao), ("enquanto", .enquanto), ("faca", .faca), ("inicio", .inicio),
    ("fim", .fim), ("procedimento", .procedimento), ("verdadeiro", .booleanLiteral),
    ("falso", .booleanLiteral)]

end LusoPascal
