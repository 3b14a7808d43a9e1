/-!
# Blank characters

White space in the sense of the Unicode property `White_Space`, as a table of code points.

* `blankRanges`, `isBlank`: the table and the test;
* `trimEnd`: a text without its trailing blanks.
-/

namespace LusoPascal

/-- The code points with the property `White_Space`, as inclusive ranges in increasing order. -/
def blankRanges : List (Nat × Nat) :=
  [(0x09, 0x0D), (0x20, 0x20), (0x85, 0x85), (0xA0, 0xA0), (0x1680, 0x1680), (0x2000, 0x200A),
    (0x2028, 0x2029), (0x202F, 0x202F), (0x205F, 0x205F), (0x3000, 0x3000)]

/-- Whether a character has the property `White_Space`. -/
def isBlank (c : Char) : Bool :=
  blankRanges.any fun range => range.1 ≤ c.toNat && c.toNat ≤ range.2

/-- A text without the blanks at its end. -/
def trimEnd (text : List Char) : List Char :=
  (text.reverse.dropWhile isBlank).reverse

theorem isBlank_newline : isBlank '\n' = true := by decide

end LusoPascal
