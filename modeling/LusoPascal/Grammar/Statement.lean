import LusoPascal.Grammar.Expression

/-!
# Commands

A command that begins with no word of its own is empty. An alternative belongs to the nearest
conditional that can take it. Only a command nests: its budget pays for the depth.

* `assignment`, `call`: the commands that begin with an identifier;
* `compound`, `conditional`, `loop`: the commands that hold commands;
* **`statement`**: the rule itself.
-/

namespace LusoPascal

namespace Production

/-- The value of an assignment: a truth value by itself, or an expression. -/
def assignedValue (budget : Nat) : Production Expression := do
  if ← isAhead .booleanLiteral then
    let literal ← take
    return .boolean (literal.lexeme == .boolean true)
  else expression budget

/-- A target, the assignment sign and a value. -/
def assignment (budget : Nat) : Production Statement := do
  let target ← identifier
  let op ← expect .assign
  return .assign target op (← assignedValue budget)

/-- The names between the parentheses of a call, of which there may be none. -/
def arguments (budget : Nat) : Production (List String) := do
  discard (expect .leftParen)
  let names ←
    if ← isAhead .identifier then separated .comma (Token.text <$> expect .identifier) budget
    else pure []
  discard (expect .rightParen)
  return names

/-- The name of a procedure, with or without parentheses. -/
def call (budget : Nat) : Production Call := do
  let line ← line
  let name := (← expect .identifier).text
  let args ← if ← isAhead .leftParen then arguments budget else pure []
  return ⟨name, args, line⟩

/-- Commands between `inicio` and `fim`, with semicolons between them. -/
def compound (statement : Production Statement) (budget : Nat) :
    Production (List Statement) := do
  discard (expect .inicio)
  let children ← separated .semicolon statement budget
  if ← isAhead .identifier then reject .strayIdentifier
  discard (expect .fim)
  return children

/-- A condition, a command, and perhaps another one for when the condition fails. -/
def conditional (statement : Production Statement) (budget : Nat) : Production Statement := do
  discard (expect .se)
  let condition ← expression budget
  discard (expect .entao)
  let thenBranch ← statement
  if ← isAhead .senao then
    discard take
    return .ifThenElse condition thenBranch (← statement)
  else return .ifThen condition thenBranch

/-- A condition and the command to repeat. -/
def loop (statement : Production Statement) (budget : Nat) : Production Statement := do
  discard (expect .enquanto)
  let condition ← expression budget
  discard (expect .faca)
  return .loop condition (← statement)

/-- A command. -/
def statement : Nat → Production Statement
  | 0 => spent
  | budget + 1 => do
    match (← ahead).kind with
    | .inicio => return .compound (← compound (statement budget) budget)
    | .identifier =>
      if ← assignAhead then assignment budget
      else return .call (← call budget)
    | .se => conditional (statement budget) budget
    | .enquanto => loop (statement budget) budget
    | _ => return .empty

end Production

end LusoPascal
