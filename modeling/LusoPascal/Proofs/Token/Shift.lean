import LusoPascal.Token.Cursor

/-!
# A text further down

Where a text stands does not change its tokens, only their lines. And what stands behind trivia can
be read as a text of its own.

* `Located.later`, `LexicalError.later`, `Cursor.later`: the same some lines further down;
* **`Cursor.next_later`**, **`Cursor.delivered_later`**: what is delivered there;
* **`Cursor.next_eq_body`**: trivia are skipped in front of a token, and count for its line alone.
-/

namespace LusoPascal

section Later

variable (lines : Nat)

def Located.later (located : Located) : Located := ⟨located.token, located.line + lines⟩

def LexicalError.later (error : LexicalError) : LexicalError := ⟨error.fault, error.line + lines⟩

/-- A cursor some lines further down. -/
def Cursor.later (cursor : Cursor) : Cursor := ⟨cursor.rest, cursor.line + lines, cursor.finished⟩

end Later

/-! ## Trivia -/

theorem splitTrivia_between_snd (mode : TriviaMode) (text : List Char) :
    splitTrivia .between (splitTrivia mode text).2 = ([], (splitTrivia mode text).2) := by
  induction text generalizing mode with
  | nil => rfl
  | cons c text ih =>
    rw [splitTrivia]
    split
    · next hstop =>
      -- only between comments does a character begin a token
      cases mode with
      | between => rw [splitTrivia, hstop]
      | lineComment | braceComment => cases hstop
    · next mode' _ => exact ih mode'

namespace Cursor

variable {cursor : Cursor} {trivia body : List Char}

/-- **The next token is that of the text behind the trivia.** -/
theorem next_eq_body (hfinished : cursor.finished = false)
    (hsplit : splitTrivia .between cursor.rest = (trivia, body)) :
    cursor.next = (Cursor.mk body (cursor.line + trivia.count '\n') false).next := by
  have hbody := splitTrivia_between_snd .between cursor.rest
  rw [hsplit] at hbody
  rw [next, next, hfinished, if_neg Bool.false_ne_true, if_neg Bool.false_ne_true, hsplit, hbody]
  rfl

/-! ## Further down -/

/-- **The next token further down.** -/
theorem next_later (lines : Nat) (cursor : Cursor) :
    (cursor.later lines).next =
      ((cursor.next.1.mapError (LexicalError.later lines)).map (Located.later lines),
        cursor.next.2.later lines) := by
  obtain ⟨text, line, finished⟩ := cursor
  cases finished with
  | true => rfl
  | false =>
    rw [later, next, next, if_neg Bool.false_ne_true, if_neg Bool.false_ne_true]
    dsimp only
    rw [Nat.add_right_comm]
    cases scan? (splitTrivia .between text).2 with
    | none => rfl
    | some reading =>
      obtain ⟨outcome, chars, rest⟩ := reading
      cases outcome <;> rfl

/-- **All tokens further down**, and the fault that ends them. -/
theorem delivered_later (lines : Nat) (cursor : Cursor) :
    (cursor.later lines).delivered =
      (cursor.delivered.1.map (Located.later lines),
        cursor.delivered.2.map (LexicalError.later lines)) := by
  induction h : cursor.rest.length using Nat.strongRecOn generalizing cursor with
  | _ n ih =>
    rw [delivered_eq, delivered_eq cursor, next_later]
    rcases hnext : cursor.next with ⟨error | located, behind⟩
    · rfl
    · change (if located.token.kind = .endOfInput then ([], none)
        else (located.later lines :: (behind.later lines).delivered.1,
          (behind.later lines).delivered.2)) = _
      by_cases hend : located.token.kind = .endOfInput
      · simp [hend]
      · have hlt := length_rest_next_lt (congrArg Prod.fst hnext) hend
        rw [hnext] at hlt
        simp [hend, ih _ (h ▸ hlt) behind rfl]

end Cursor

end LusoPascal
