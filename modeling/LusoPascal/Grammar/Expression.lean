import LusoPascal.Grammar.Reader
import LusoPascal.Tree.Basic

/-!
# Expressions

Relations hold simple expressions, which hold terms, which hold factors. Operators of one level
nest to the left, a relation joins two simple expressions only, and a leading sign applies to the
first term alone. Only a factor nests: its budget pays for the depth.

* `identifier`: an identifier with its place;
* `term`, `simpleExpression`, `relation`: the three levels over a given factor;
* **`factor`**, **`expression`**: the rules themselves.
-/

namespace LusoPascal

namespace Production

/-- An identifier with its place. -/
def identifier : Production Identifier := do
  let line ← line
  let token ← expect .identifier
  return ⟨token.text, token, line⟩

/-- Factors joined by `*`, `div` and `e`. -/
def term (factor : Production Expression) (budget : Nat) : Production Expression := do
  let first ← factor
  chain TokenKind.isMultiplicative .binary factor budget first

/-- A signed or unsigned term, then terms joined by `+`, `-` and `ou`. -/
def simpleExpression (factor : Production Expression) (budget : Nat) : Production Expression := do
  let first ←
    if (← ahead).kind.isSign then
      let sign ← take
      pure (.unary sign (← term factor budget))
    else term factor budget
  chain TokenKind.isAdditive .binary (term factor budget) budget first

/-- A simple expression, or two that a relational operator compares. -/
def relation (factor : Production Expression) (budget : Nat) : Production Expression := do
  let left ← simpleExpression factor budget
  if (← ahead).kind.isRelational then
    let op ← take
    return .binary left op (← simpleExpression factor budget)
  else return left

/-- A number, an expression in parentheses, a negated factor or an identifier. -/
def factor : Nat → Production Expression
  | 0 => spent
  | budget + 1 => do
    let token ← ahead
    match token.lexeme, token.kind with
    | .integer value, _ =>
      discard (expect .integerLiteral)
      return .number value
    | _, .leftParen =>
      discard take
      let inner ← relation (factor budget) budget
      discard (expect .rightParen)
      return inner
    | _, .nao =>
      let op ← take
      return .unary op (← factor budget)
    | _, _ => return .var (← identifier)

/-- An expression. -/
def expression (budget : Nat) : Production Expression :=
  relation (factor budget) budget

end Production

end LusoPascal
