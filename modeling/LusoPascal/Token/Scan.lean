import LusoPascal.Token.Basic

/-!
# The token at the head of a text

A text that begins with no trivia begins with its longest word, digit run or operator, or with a
character that belongs to no token.

* `wordToken`: a reserved word or an identifier;
* `numberToken`: an integer literal, at most `maxInteger` and not followed by a full stop;
* `operator?`: the longest operator at the head;
* `Reading`, `scan?`: what stands at the head, the text it covers, and what follows;
* **`Reading.text_append_rest`**, **`Reading.length_rest_lt`**: a reading splits the text and takes
  at least one character of it.
-/

namespace LusoPascal

/-- The token of a run of letters and digits that begins with a letter. -/
def wordToken (run : List Char) : Token :=
  let word := String.ofList run
  match reservedWords.lookup word with
  | some .booleanLiteral => ⟨.booleanLiteral, .boolean (word == booleanWord true)⟩
  | some kind => ⟨kind, .text word⟩
  | none => ⟨.identifier, .text word⟩

/-- The largest integer literal, `2 ^ 63 - 1`. -/
def maxInteger : Nat := 9223372036854775807

/-- The value of a run of decimal digits. -/
def decimalValue (digits : List Char) : Nat :=
  digits.foldl (fun value digit => 10 * value + (digit.toNat - '0'.toNat)) 0

/-- The token of a digit run, judged with the text behind it. There are no fractions, so a full
stop right behind the digits is a fault, and it counts before the size of the number. -/
def numberToken (digits rest : List Char) : Except Fault Token :=
  if rest.head? = some '.' then .error (.pointAfterNumber (String.ofList digits))
  else if decimalValue digits ≤ maxInteger then
    .ok ⟨.integerLiteral, .integer (decimalValue digits)⟩
  else .error (.numberTooLarge (String.ofList digits))

/-- The longest operator at the head of a text, and its length. -/
def operator? : List Char → Option (TokenKind × Nat)
  | ':' :: '=' :: _ => some (.assign, 2)
  | '<' :: '=' :: _ => some (.lessEqual, 2)
  | '>' :: '=' :: _ => some (.greaterEqual, 2)
  | '<' :: '>' :: _ => some (.notEqual, 2)
  | '=' :: _ => some (.equal, 1)
  | '<' :: _ => some (.less, 1)
  | '>' :: _ => some (.greater, 1)
  | ':' :: _ => some (.colon, 1)
  | ',' :: _ => some (.comma, 1)
  | ';' :: _ => some (.semicolon, 1)
  | '.' :: _ => some (.dot, 1)
  | '+' :: _ => some (.plus, 1)
  | '-' :: _ => some (.minus, 1)
  | '*' :: _ => some (.times, 1)
  | '/' :: _ => some (.slash, 1)
  | '(' :: _ => some (.leftParen, 1)
  | ')' :: _ => some (.rightParen, 1)
  | _ => none

/-- What stands at the head of a text, the characters it covers, and what follows them. -/
structure Reading where
  outcome : Except Fault Token
  text : List Char
  rest : List Char

/-- The reading of a text that begins with no trivia; nothing at the end of the text. -/
def scan? : List Char → Option Reading
  | [] => none
  | c :: text =>
    if c.isAlpha then
      let word := c :: text.takeWhile Char.isAlphanum
      some ⟨.ok (wordToken word), word, text.dropWhile Char.isAlphanum⟩
    else if c.isDigit then
      let digits := c :: text.takeWhile Char.isDigit
      let rest := text.dropWhile Char.isDigit
      some ⟨numberToken digits rest, digits, rest⟩
    else
      match operator? (c :: text) with
      | some (kind, size) =>
        let spelling := (c :: text).take size
        some ⟨.ok ⟨kind, .text (String.ofList spelling)⟩, spelling, (c :: text).drop size⟩
      | none => some ⟨.error (.strayCharacter c), [c], text⟩

theorem scan?_eq_none_iff {text : List Char} : scan? text = none ↔ text = [] := by
  cases text with
  | nil => simp [scan?]
  | cons c text =>
    simp only [scan?, reduceCtorEq, iff_false]
    split
    · simp
    · split
      · simp
      · split <;> simp

theorem size_pos_of_operator? {text : List Char} {kind : TokenKind} {size : Nat}
    (h : operator? text = some (kind, size)) : 0 < size := by
  unfold operator? at h
  split at h <;> simp at h <;> omega

namespace Reading

variable {text : List Char} {reading : Reading}

/-- A reading covers the head of the text and leaves the rest. -/
theorem text_append_rest (h : scan? text = some reading) :
    reading.text ++ reading.rest = text := by
  cases text with
  | nil => simp [scan?] at h
  | cons c text =>
    simp only [scan?] at h
    split at h
    · obtain rfl := Option.some.inj h
      simp
    · split at h
      · obtain rfl := Option.some.inj h
        simp
      · split at h <;> obtain rfl := Option.some.inj h
        · simp
        · rfl

theorem text_ne_nil (h : scan? text = some reading) : reading.text ≠ [] := by
  cases text with
  | nil => simp [scan?] at h
  | cons c text =>
    simp only [scan?] at h
    split at h
    · obtain rfl := Option.some.inj h
      simp
    · split at h
      · obtain rfl := Option.some.inj h
        simp
      · split at h
        · next hop =>
          obtain rfl := Option.some.inj h
          have := size_pos_of_operator? hop
          simp
          omega
        · obtain rfl := Option.some.inj h
          simp

theorem length_rest_lt (h : scan? text = some reading) :
    reading.rest.length < text.length := by
  have happ := congrArg List.length (text_append_rest h)
  have hpos := List.length_pos_iff.mpr (text_ne_nil h)
  simp only [List.length_append] at happ
  omega

end Reading

end LusoPascal
