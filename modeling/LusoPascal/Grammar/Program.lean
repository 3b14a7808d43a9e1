import LusoPascal.Grammar.Statement

/-!
# Declarations, blocks and programs

A block declares variables, then procedures, then holds commands. Only a block nests: its budget
pays for the depth. A program ends with a full stop, and what follows is not read, except that
the token behind the full stop is fetched.

* `variableGroup`, `parameterGroup`: names that share a type;
* `procedure`, `declarations`, **`block`**, **`program`**: the rules themselves;
* `Reader.parse`: read one program, on a budget that never runs out;
* **`Program.ofSource`**: the program that a text holds.
-/

namespace LusoPascal

namespace Production

/-- The name of a type. -/
def typeName : Production TypeName := do
  if (← ahead).kind.isType then return ⟨← take⟩ else reject .expectedType

/-- A declared name. A value may be assigned to it; it is read and dropped. -/
def declarator (budget : Nat) : Production Identifier := do
  let ident ← identifier
  if ← isAhead .assign then
    discard take
    discard (expression budget)
  return ident

/-- A type and the variables that have it, up to the semicolon; `var` may stand in front. -/
def variableGroup (budget : Nat) : Production (List Declaration) := do
  if ← isAhead .var then discard take
  let type ← typeName
  let idents ← separated .comma (declarator budget) budget
  discard (expect .semicolon)
  return idents.map fun ident => .var ⟨ident, type⟩

/-- Parameters and the type that they have; `var` may stand in front. -/
def parameterGroup (budget : Nat) : Production (List TypedIdentifier) := do
  if ← isAhead .var then discard take
  let idents ← separated .comma identifier budget
  discard (expect .colon)
  let type ← typeName
  return idents.map fun ident => ⟨ident, type⟩

/-- The groups of parameters between parentheses. -/
def parameters (budget : Nat) : Production (List TypedIdentifier) := do
  discard (expect .leftParen)
  let groups ← separated .semicolon (parameterGroup budget) budget
  discard (expect .rightParen)
  return groups.flatten

/-- A heading and a block, each closed by a semicolon. -/
def procedure (block : Production Block) (budget : Nat) : Production Declaration := do
  let line ← line
  discard (expect .procedimento)
  let name := (← expect .identifier).text
  let params ← if ← isAhead .leftParen then parameters budget else pure []
  discard (expect .semicolon)
  let body ← block
  discard (expect .semicolon)
  return .procedure ⟨name, params, line⟩ body.declarations body.body

/-- Groups of variables, then procedures. -/
def declarations (block : Production Block) (budget : Nat) : Production (List Declaration) := do
  let groups ← whileAhead TokenKind.beginsVariables (variableGroup budget) budget
  let procedures ← whileAhead (· == .procedimento) (procedure block budget) budget
  return groups.flatten ++ procedures

/-- Declarations and the commands that follow them. -/
def block : Nat → Production Block
  | 0 => spent
  | budget + 1 => do
    let declarations ← declarations (block budget) budget
    let body ← compound (statement budget) budget
    return ⟨declarations, body⟩

/-- A named block, closed by a full stop. -/
def program (budget : Nat) : Production Program := do
  discard (expect .program)
  let name := (← identifier).name
  discard (expect .semicolon)
  let block ← block budget
  discard (expect .dot)
  return ⟨name, block⟩

end Production

namespace Reader

/-- A budget for everything that the reader can still deliver. Each level of nesting and each
round of a repetition takes a token, and each token but the one ahead takes a character. -/
def budget (reader : Reader) : Nat := reader.cursor.rest.length + 3

/-- Read one program from where the reader stands. A spent budget is answered as a rejection of
the token ahead, which never happens with this budget. -/
def parse (reader : Reader) : Except ParseError Program × Reader :=
  match Production.program reader.budget reader with
  | .ok program reader => (.ok program, reader)
  | .error (.rejected error) reader => (.error error, reader)
  | .error .spent reader => (.error (.syntactic ⟨.expected .program, reader.ahead⟩), reader)

end Reader

/-- The program that a text holds, or why it holds none. -/
def Program.ofSource (source : String) : Except ParseError Program :=
  match Reader.ofSource source with
  | .ok reader => reader.parse.1
  | .error error => .error (.lexical error)

end LusoPascal
