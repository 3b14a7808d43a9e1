import LusoPascal.Grammar.Error
import LusoPascal.Token.Cursor

/-!
# Reading tokens one ahead

A reader holds one token that it has fetched and not yet consumed. Consuming it records it and
fetches the next; if that meets a fault, the consumed token stays in place, and the cursor, which
has come to its end, delivers the end of the text from then on.

* `Reader`, `Reader.ofSource`: the token ahead, the cursor, and the tokens consumed so far;
* `Production`: a rule of the grammar, run on a reader;
* `take`, `expect`: consume the token ahead, whatever it is or if it is of one kind;
* **`take_apply`**, **`expect_apply`**: what consuming does to a reader;
* `separated`, `whileAhead`, `chain`: the repetitions that the grammar uses, on a budget.
-/

namespace LusoPascal

/-- One token fetched ahead, the cursor behind it, and the tokens consumed in order. -/
structure Reader where
  ahead : Located
  cursor : Cursor
  consumed : Array Located

/-- A reader that has fetched its first token from a cursor. -/
def Reader.ofCursor (cursor : Cursor) : Except LexicalError Reader :=
  match cursor.next with
  | (.ok ahead, behind) => .ok ⟨ahead, behind, #[]⟩
  | (.error error, _) => .error error

/-- A reader at the start of a text. -/
def Reader.ofSource (source : String) : Except LexicalError Reader :=
  Reader.ofCursor (Cursor.ofSource source)

/-- Why a production stops: the text is rejected, or the budget is spent. -/
inductive Halt where
  | rejected (error : ParseError)
  | spent
deriving DecidableEq

/-- A rule of the grammar. What it consumed stays consumed when it stops. -/
abbrev Production := EStateM Halt Reader

namespace Production

/-- The budget is spent. -/
def spent {α : Type} : Production α := throw .spent

/-- Reject the text at the token ahead. -/
def reject {α : Type} (defect : Defect) : Production α := do
  throw (.rejected (.syntactic ⟨defect, (← get).ahead⟩))

/-- The token ahead. -/
def ahead : Production Token := return (← get).ahead.token

/-- The line of the token ahead. -/
def line : Production Nat := return (← get).ahead.line

/-- Whether the token ahead is of one kind. -/
def isAhead (kind : TokenKind) : Production Bool := return (← ahead).kind == kind

/-- Whether the second character behind the token ahead is a colon or an equals sign. Behind an
identifier this tells an assignment from a call, provided that exactly one blank or none stands
before `:=`. -/
def assignAhead : Production Bool := do
  let next := (← get).cursor.peek?
  return next == some ':' || next == some '='

/-- Consume the token ahead. -/
def take : Production Token := do
  let reader ← get
  let (fetched, cursor) := reader.cursor.next
  let consumed := reader.consumed.push reader.ahead
  match fetched with
  | .ok next =>
    set { ahead := next, cursor, consumed : Reader }
    return reader.ahead.token
  | .error error =>
    set { reader with cursor, consumed }
    throw (.rejected (.lexical error))

/-- Consume the token ahead if it is of one kind, and reject the text otherwise. -/
def expect (kind : TokenKind) : Production Token := do
  if ← isAhead kind then take else reject (.expected kind)

/-! ## What the steps do to a reader -/

section Apply

variable {α β : Type}

theorem bind_apply (first : Production α) (next : α → Production β) (reader : Reader) :
    (first >>= next) reader =
      match first reader with
      | .ok a behind => next a behind
      | .error halt behind => .error halt behind := by
  change EStateM.bind first next reader = _
  unfold EStateM.bind
  cases first reader <;> rfl

theorem reject_apply (defect : Defect) (reader : Reader) :
    (reject defect : Production α) reader =
      .error (.rejected (.syntactic ⟨defect, reader.ahead⟩)) reader := rfl

theorem ahead_apply (reader : Reader) : ahead reader = .ok reader.ahead.token reader := rfl

theorem isAhead_apply (kind : TokenKind) (reader : Reader) :
    isAhead kind reader = .ok (reader.ahead.token.kind == kind) reader := rfl

/-- The token consumed is recorded even if the next one cannot be fetched, and then it also stays
in place. -/
theorem take_apply (reader : Reader) :
    take reader =
      match reader.cursor.next with
      | (.ok next, cursor) =>
        .ok reader.ahead.token ⟨next, cursor, reader.consumed.push reader.ahead⟩
      | (.error error, cursor) =>
        .error (.rejected (.lexical error))
          ⟨reader.ahead, cursor, reader.consumed.push reader.ahead⟩ := by
  have hget : (get : Production Reader) reader = .ok reader reader := rfl
  unfold take
  rcases h : reader.cursor.next with ⟨_ | _, cursor⟩ <;>
    simp only [bind_apply, hget, h] <;> rfl

theorem expect_apply (kind : TokenKind) (reader : Reader) :
    expect kind reader =
      if reader.ahead.token.kind = kind then take reader
      else .error (.rejected (.syntactic ⟨.expected kind, reader.ahead⟩)) reader := by
  by_cases h : reader.ahead.token.kind = kind
  · simp [expect, bind_apply, isAhead_apply, h]
  · simp [expect, bind_apply, isAhead_apply, reject_apply, h]

end Apply

/-! ## Repetitions -/

section Repetition

variable {α : Type}

/-- One item or more, with a token of one kind between each two. -/
def separated (separator : TokenKind) (item : Production α) : Nat → Production (List α)
  | 0 => spent
  | budget + 1 => do
    let first ← item
    if ← isAhead separator then
      discard take
      return first :: (← separated separator item budget)
    else return [first]

/-- Items for as long as the kind of the token ahead can begin one. -/
def whileAhead (begins : TokenKind → Bool) (item : Production α) : Nat → Production (List α)
  | 0 => spent
  | budget + 1 => do
    if begins (← ahead).kind then
      let first ← item
      return first :: (← whileAhead begins item budget)
    else return []

/-- Operands behind a first one, each with an operator before it, combined from the left. -/
def chain (isOperator : TokenKind → Bool) (combine : α → Token → α → α) (operand : Production α) :
    Nat → α → Production α
  | 0, _ => spent
  | budget + 1, left => do
    if isOperator (← ahead).kind then
      let operator ← take
      let right ← operand
      chain isOperator combine operand budget (combine left operator right)
    else return left

end Repetition

end Production

end LusoPascal
