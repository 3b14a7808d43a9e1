import LusoPascal.Tree.Basic
import LusoPascal.Tree.Outline

/-!
# Dump of a program

The tree of an accepted program as an outline, every node under the name of its shape.

* `TokenKind.label`: the name of a category in a dump;
* `outline` of each sort of node, down from **`Program.outline`**;
* **`Program.dump`**: the text.
-/

namespace LusoPascal

/-- The name of a category in a dump. -/
def TokenKind.label : TokenKind → String
  | program => "Program"
  | var => "Var"
  | div => "IntegerDiv"
  | inteiro => "IntegerType"
  | logico => "Boolean"
  | e => "And"
  | ou => "Or"
  | nao => "Not"
  | se => "If"
  | entao => "Then"
  | senao => "Else"
  | enquanto => "While"
  | faca => "Do"
  | inicio => "Begin"
  | fim => "End"
  | procedimento => "Procedure"
  | booleanLiteral => "BooleanLiteral"
  | identifier => "Identifier"
  | integerLiteral => "IntegerLiteral"
  | assign => "Assign"
  | lessEqual => "Lte"
  | greaterEqual => "Gte"
  | notEqual => "Diff"
  | equal => "Eq"
  | less => "Lt"
  | greater => "Gt"
  | colon => "Colon"
  | comma => "Comma"
  | semicolon => "Semicolon"
  | dot => "Dot"
  | plus => "Plus"
  | minus => "Minus"
  | times => "Asterisk"
  | slash => "Slash"
  | leftParen => "LeftParenthesis"
  | rightParen => "RightParenthesis"
  | endOfInput => "Eof"

/-- The outline of a number. -/
def Outline.number (value : Int) : Outline := .line (toString value)

/-- The outline of a truth value. -/
def Outline.truth (value : Bool) : Outline := .line (if value then "true" else "false")

/-- The outline of what a token carries. -/
def Lexeme.outline : Lexeme → Outline
  | integer value => .tuple "Integer" (.number value)
  | boolean value => .tuple "Boolean" (.truth value)
  | text spelling => .tuple "Text" (.quoted spelling)
  | none => .line "None"

/-- The outline of a token. -/
def Token.outline (token : Token) : Outline :=
  .record "Token" [("kind", .line token.kind.label), ("lexeme", token.lexeme.outline)]

/-- The outline of an identifier. -/
def Identifier.outline (ident : Identifier) : Outline :=
  .record "Variable"
    [("name", .quoted ident.name), ("token", ident.token.outline), ("line", .number ident.line)]

/-- The outline of a name with its type, under the name of its role. -/
def TypedIdentifier.outline (role : String) (entry : TypedIdentifier) : Outline :=
  .record role
    [("variable", entry.ident.outline),
      ("ty", .record "TypeNode" [("token", entry.type.token.outline)])]

/-- The outline of an expression. -/
def Expression.outline : Expression → Outline
  | binary left op right =>
    .record "BinaryOperator"
      [("left", left.outline), ("op", op.outline), ("right", right.outline)]
  | unary op operand =>
    .record "UnaryOperator" [("op", op.outline), ("operand", operand.outline)]
  | number value => .tuple "Number" (.number value)
  | boolean value => .tuple "Boolean" (.truth value)
  | var ident => .tuple "Variable" ident.outline

/-- The outline of a call. -/
def Call.outline (call : Call) : Outline :=
  .record "ProcedureCall"
    [("name", .quoted call.name), ("args", .list (call.args.map .quoted)),
      ("line", .number call.line)]

/-- The outline of a list of commands, given those of its members. -/
def Outline.compound (children : List Outline) : Outline :=
  .record "Compound" [("children", .list children)]

/-- The outline of a conditional, given those of its parts. -/
def Outline.conditional (condition thenBranch elseBranch : Outline) : Outline :=
  .tuple "If" <| .record "IfNode"
    [("condition", condition), ("then_branch", thenBranch), ("else_branch", elseBranch)]

mutual

/-- The outline of a command. -/
def Statement.outline : Statement → Outline
  | .compound children => .tuple "Compound" (.compound (Statement.outlines children))
  | .assign target op value =>
    .tuple "Assign" <| .record "Assign"
      [("target", target.outline), ("op", op.outline), ("value", value.outline)]
  | .ifThen condition thenBranch =>
    .conditional condition.outline thenBranch.outline (.line "None")
  | .ifThenElse condition thenBranch elseBranch =>
    .conditional condition.outline thenBranch.outline (.tuple "Some" elseBranch.outline)
  | .loop condition body =>
    .tuple "While" <| .record "WhileNode"
      [("condition", condition.outline), ("body", body.outline)]
  | .call procedureCall => .tuple "ProcedureCall" procedureCall.outline
  | .empty => .line "NoOperation"

/-- The outlines of commands. -/
def Statement.outlines : List Statement → List Outline
  | [] => []
  | first :: rest => first.outline :: Statement.outlines rest

end

/-- The outline of a block, given those of its declarations. -/
def Outline.block (declarations : List Outline) (body : List Statement) : Outline :=
  .record "Block"
    [("declarations", .list declarations), ("compound", .compound (Statement.outlines body))]

mutual

/-- The outline of a declaration. -/
def Declaration.outline : Declaration → Outline
  | .var entry => .tuple "Var" (entry.outline "VarDecl")
  | .procedure heading declarations body =>
    .tuple "Procedure" <| .record "ProcedureDecl"
      [("name", .quoted heading.name),
        ("params", .list (heading.params.map (TypedIdentifier.outline "Param"))),
        ("block", .block (Declaration.outlines declarations) body),
        ("line", .number heading.line)]

/-- The outlines of declarations. -/
def Declaration.outlines : List Declaration → List Outline
  | [] => []
  | first :: rest => first.outline :: Declaration.outlines rest

end

namespace Program

/-- The outline of a program. -/
def outline (program : Program) : Outline :=
  let block := program.block
  .record "Program"
    [("name", .quoted program.name),
      ("block", .block (Declaration.outlines block.declarations) block.body)]

/-- The dump of a program. -/
def dump (program : Program) : String := program.outline.render

end Program

end LusoPascal
