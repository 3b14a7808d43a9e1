import LusoPascal.Text.Blank

/-!
# Lines of a text

A text is cut at every line feed, so a text with `k` line feeds has `k + 1` lines, the last of
which may be empty.

* `lines`: the pieces;
* `lineAt`: a line by its number, counted from one;
* `excerpt`: the line as a diagnostic quotes it, without trailing blanks.
-/

namespace LusoPascal

/-- The pieces of a text between its line feeds. -/
def lines : List Char → List (List Char)
  | [] => [[]]
  | c :: text =>
    if c = '\n' then [] :: lines text
    else
      match lines text with
      | [] => [[c]]
      | line :: rest => (c :: line) :: rest

theorem lines_ne_nil (text : List Char) : lines text ≠ [] := by
  cases text with
  | nil => simp [lines]
  | cons c text =>
    rw [lines]
    split
    · simp
    · split <;> simp

/-- The line with number `n`, counted from one; number zero also names the first line, and a
number past the last line names no text. -/
def lineAt (n : Nat) (text : List Char) : List Char :=
  (lines text)[n - 1]?.getD []

/-- The line with number `n` without its trailing blanks. -/
def excerpt (n : Nat) (text : List Char) : List Char :=
  trimEnd (lineAt n text)

end LusoPascal
