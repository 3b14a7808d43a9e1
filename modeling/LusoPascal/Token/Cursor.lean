import LusoPascal.Token.Scan
import LusoPascal.Token.Trivia

/-!
# A cursor on a text

A cursor delivers the tokens of a text one at a time and counts lines on the way. Past the last
token, and past the first fault, it delivers the end of the text for ever.

* `Cursor`, `Cursor.ofSource`: the text not yet read, the line, and whether reading is over;
* `Cursor.next`: the next token with its line, or the fault, and the cursor behind it;
* `Cursor.peek?`: the second character not yet read;
* `Cursor.delivered`, `tokenize`: all tokens up to the end of the text or to the first fault;
* **`Cursor.length_rest_next_lt`**: every token takes characters from the text.
-/

namespace LusoPascal

/-- The text not yet read, the line of the last token, and whether reading is over. -/
structure Cursor where
  rest : List Char
  line : Nat
  finished : Bool

namespace Cursor

/-- The cursor before the first character of a text. -/
def ofSource (source : String) : Cursor := ⟨source.toList, 1, false⟩

/-- The second character not yet read. -/
def peek? (cursor : Cursor) : Option Char := cursor.rest[1]?

/-- Drop the trivia before the next token and read the token. Its line counts the line feeds of
the trivia, since no token holds one. -/
def next (cursor : Cursor) : Except LexicalError Located × Cursor :=
  if cursor.finished then (.ok ⟨.endOfInput, cursor.line⟩, cursor)
  else
    let split := splitTrivia .between cursor.rest
    let line := cursor.line + split.1.count '\n'
    match scan? split.2 with
    | none => (.ok ⟨.endOfInput, line⟩, ⟨[], line, true⟩)
    | some reading =>
      match reading.outcome with
      | .ok token => (.ok ⟨token, line⟩, ⟨reading.rest, line, false⟩)
      | .error fault => (.error ⟨fault, line⟩, ⟨reading.rest, line, true⟩)

@[simp] theorem next_of_finished {cursor : Cursor} (h : cursor.finished = true) :
    cursor.next = (.ok ⟨.endOfInput, cursor.line⟩, cursor) := by
  simp [next, h]

/-- Every token but the end of the text takes characters from the text. -/
theorem length_rest_next_lt {cursor : Cursor} {located : Located}
    (h : cursor.next.1 = .ok located) (hend : located.token.kind ≠ .endOfInput) :
    cursor.next.2.rest.length < cursor.rest.length := by
  unfold next at h ⊢
  split at h
  · simp only [Except.ok.injEq] at h
    exact absurd (h ▸ rfl) hend
  · next hfin =>
    simp only [hfin, Bool.false_eq_true, if_false]
    have hle := length_splitTrivia_le .between cursor.rest
    dsimp only at h ⊢
    split at h
    · simp only [Except.ok.injEq] at h
      exact absurd (h ▸ rfl) hend
    · next reading hscan =>
      have hlt := Reading.length_rest_lt hscan
      split at h
      · exact Nat.lt_of_lt_of_le hlt hle
      · simp at h

/-- The tokens that a cursor delivers up to the end of the text or to the first fault, and that
fault. -/
def delivered (cursor : Cursor) : List Located × Option LexicalError :=
  match h : cursor.next with
  | (.error error, _) => ([], some error)
  | (.ok located, behind) =>
    if hend : located.token.kind = .endOfInput then ([], none)
    else
      have : behind.rest.length < cursor.rest.length := by
        have hnext : cursor.next.1 = .ok located := by rw [h]
        simpa [h] using length_rest_next_lt hnext hend
      let later := behind.delivered
      (located :: later.1, later.2)
termination_by cursor.rest.length

theorem delivered_eq (cursor : Cursor) :
    cursor.delivered =
      match cursor.next with
      | (.error error, _) => ([], some error)
      | (.ok located, behind) =>
        if located.token.kind = .endOfInput then ([], none)
        else (located :: behind.delivered.1, behind.delivered.2) := by
  rw [delivered]
  split <;> rename_i h <;> simp [h]

end Cursor

/-- The tokens of a text with their lines, or its first fault. -/
def tokenize (source : String) : Except LexicalError (List Located) :=
  match (Cursor.ofSource source).delivered with
  | (tokens, none) => .ok tokens
  | (_, some error) => .error error

end LusoPascal
