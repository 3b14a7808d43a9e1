/-!
# Outlines

An outline is a nested text with one item per line. Items stand four columns further in than what
holds them, and each item ends with a comma.

* `Outline`: a line, or items between an opening and a closing line;
* `Outline.record`, `Outline.tuple`, `Outline.list`: the shapes of group in use;
* **`Outline.render`**: the text.
-/

namespace LusoPascal

/-- A line, or items between an opening and a closing line. -/
inductive Outline where
  | line (text : String)
  | group (opening : String) (items : List Outline) (closing : String)

namespace Outline

/-- An outline with a label before its first line. -/
def labelled (label : String) : Outline → Outline
  | line text => line s!"{label}: {text}"
  | group opening items closing => group s!"{label}: {opening}" items closing

/-- Named fields between braces. -/
def record (name : String) (fields : List (String × Outline)) : Outline :=
  group s!"{name} \x7b" (fields.map fun field => labelled field.1 field.2) "\x7d"

/-- One item between parentheses. -/
def tuple (name : String) (item : Outline) : Outline :=
  group s!"{name}(" [item] ")"

/-- Items between brackets; an empty list stands on one line. -/
def list : List Outline → Outline
  | [] => line "[]"
  | items => group "[" items "]"

/-- A text between quotation marks; it holds no character that needs an escape. -/
def quoted (text : String) : Outline := line s!"\"{text}\""

/-- The blanks before a line at a depth. -/
def margin (depth : Nat) : String := "".pushn ' ' (4 * depth)

mutual

/-- The lines of an outline at a depth, with a text behind the last one. -/
def linesAt (depth : Nat) (behind : String) : Outline → List String
  | line text => [margin depth ++ text ++ behind]
  | group opening items closing =>
    (margin depth ++ opening) ::
      (itemLinesAt (depth + 1) items ++ [margin depth ++ closing ++ behind])

/-- The lines of the items of a group. -/
def itemLinesAt (depth : Nat) : List Outline → List String
  | [] => []
  | item :: rest => linesAt depth "," item ++ itemLinesAt depth rest

end

/-- The text of an outline. -/
def render (outline : Outline) : String :=
  "\n".intercalate (linesAt 0 "" outline)

end Outline

end LusoPascal
