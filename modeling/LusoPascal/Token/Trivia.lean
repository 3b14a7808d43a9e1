import LusoPascal.Text.Blank

/-!
# Trivia between tokens

Blanks, byte order marks and comments separate tokens and are dropped. A comment runs from `//`
to the end of its line, or from an opening to the next closing brace; one that is never closed
runs to the end of the text.

* `TriviaMode`, `TriviaMode.after?`: where a reader of trivia stands, and how a character moves it;
* `splitTrivia`: the trivia at the start of a text, and what follows;
* **`splitTrivia_append`**: nothing is lost.
-/

namespace LusoPascal

/-- Blanks and the byte order mark separate tokens. -/
def isSpace (c : Char) : Bool := isBlank c || c == '\ufeff'

/-- Where a reader of trivia stands: between comments or inside one of the two sorts. -/
inductive TriviaMode where
  | between | lineComment | braceComment
deriving DecidableEq

/-- How a character, seen before the one that may follow it, moves a reader of trivia; nothing if
a token begins there. -/
def TriviaMode.after? : TriviaMode → Char → Option Char → Option TriviaMode
  | between, c, next =>
    if isSpace c then some between
    else if c = '\x7b' then some braceComment
    else if c = '/' ∧ next = some '/' then some lineComment
    else none
  | lineComment, c, _ => some (if c = '\n' then between else lineComment)
  | braceComment, c, _ => some (if c = '\x7d' then between else braceComment)

/-- The trivia at the start of a text, and what follows it. -/
def splitTrivia (mode : TriviaMode) : List Char → List Char × List Char
  | [] => ([], [])
  | c :: text =>
    match mode.after? c text.head? with
    | none => ([], c :: text)
    | some mode' =>
      let split := splitTrivia mode' text
      (c :: split.1, split.2)

/-- Splitting a text loses nothing. -/
theorem splitTrivia_append (mode : TriviaMode) (text : List Char) :
    (splitTrivia mode text).1 ++ (splitTrivia mode text).2 = text := by
  induction text generalizing mode with
  | nil => rfl
  | cons c text ih =>
    rw [splitTrivia]
    split
    · rfl
    · next mode' _ => simp [ih mode']

theorem length_splitTrivia_le (mode : TriviaMode) (text : List Char) :
    (splitTrivia mode text).2.length ≤ text.length := by
  have h := congrArg List.length (splitTrivia_append mode text)
  simp only [List.length_append] at h
  omega

end LusoPascal
