import LusoPascal.Proofs.Token.Segmentation
import LusoPascal.Proofs.Token.Shift

/-!
# A text with more behind it

More text changes no token that has a character behind it: one character is all that a slice depends
on. A full stop does not even depend on that.

* `Pattern.Stands.append`: a slice stands where it stood;
* **`Cursor.next_extend`**: a token is delivered as before;
* `Delivery.extend`: the delivery of the same token from the longer text;
* **`Delivery.Span.extend`**: deliveries one after the other, with a character behind each of them.
-/

namespace LusoPascal

/-! ## Slices -/

section Slices

variable {pattern : Pattern} {slice rest text trivia body : List Char} {token : Token}

theorem head?_append_of_ne_nil (h : text ≠ []) (more : List Char) :
    (text ++ more).head? = text.head? := by
  rw [List.head?_append, Option.or_of_isSome (by rwa [List.isSome_head?])]

theorem ne_dot_of_reserved : ∀ entry ∈ reservedWords, entry.2 ≠ .dot := by
  decide

theorem eq_dot_of_operator : ∀ entry ∈ operatorSpellings, entry.2 = .dot → entry.1 = "." := by
  decide

theorem Pattern.Stands.eq_dot (h : pattern.Stands slice rest)
    (htoken : pattern.outcome slice rest = .ok (some token)) (hdot : token.kind = .dot) :
    pattern = .operator "." .dot := by
  have hmatch := h.isMatch
  cases pattern with
  | blanks | lineComment | braceComment => cases htoken
  | word spelling kind =>
    obtain rfl := Option.some.inj (Except.ok.inj htoken)
    have hkind : kind = .dot := by split at hdot <;> exact hdot
    exact absurd hkind (ne_dot_of_reserved _ hmatch.1)
  | identifier =>
    obtain rfl := Option.some.inj (Except.ok.inj htoken)
    cases hdot
  | digits =>
    obtain rfl := Option.some.inj (of_outcome_digits htoken)
    cases hdot
  | operator spelling kind =>
    obtain rfl := Option.some.inj (Except.ok.inj htoken)
    rw [show kind = .dot from hdot, show spelling = "." from eq_dot_of_operator _ hmatch.1 hdot]

/-- One character is all that a slice depends on, if there is one. -/
theorem Pattern.Stands.of_head? {more : List Char} (h : pattern.Stands slice rest)
    (hrest : rest ≠ []) (hhead : more.head? = rest.head?) :
    pattern.Stands slice more ∧ pattern.outcome slice more = pattern.outcome slice rest := by
  cases pattern with
  | blanks | lineComment | word | identifier | operator =>
    exact ⟨⟨h.1, by rw [hhead]; exact h.2⟩, rfl⟩
  | digits => exact ⟨⟨h.1, by rw [hhead]; exact h.2⟩, by rw [outcome, outcome, hhead]⟩
  | braceComment =>
    obtain ⟨body, hbody, ⟨-, hnil⟩ | hslice⟩ := h
    · exact absurd hnil hrest
    · exact ⟨⟨body, hbody, .inr hslice⟩, rfl⟩

/-- **A slice stands where it stood** if a character is behind it, or if it is a full stop. -/
theorem Pattern.Stands.append (h : pattern.Stands slice rest)
    (htoken : pattern.outcome slice rest = .ok (some token))
    (hrest : rest ≠ [] ∨ token.kind = .dot) (more : List Char) :
    pattern.Stands slice (rest ++ more) ∧
      pattern.outcome slice (rest ++ more) = .ok (some token) := by
  rcases hrest with hrest | hdot
  · obtain ⟨hstands, houtcome⟩ := h.of_head? hrest (head?_append_of_ne_nil hrest more)
    exact ⟨hstands, houtcome.trans htoken⟩
  · obtain rfl := h.eq_dot htoken hdot
    exact ⟨⟨h.1, fun c _ => List.not_mem_nil⟩, htoken⟩

/-- Trivia end where they ended if what follows them begins no trivia. -/
theorem splitTrivia_extend {mode : TriviaMode} {more : List Char}
    (hsplit : splitTrivia mode text = (trivia, body)) (hbody : body ≠ [])
    (hbegins : splitTrivia .between (body ++ more) = ([], body ++ more)) :
    splitTrivia mode (text ++ more) = (trivia, body ++ more) := by
  induction text generalizing mode trivia with
  | nil =>
    obtain ⟨-, rfl⟩ := Prod.mk.inj hsplit
    exact absurd rfl hbody
  | cons c text ih =>
    rw [splitTrivia] at hsplit
    split at hsplit
    · next hstop =>
      obtain ⟨rfl, rfl⟩ := Prod.mk.inj hsplit
      -- only between comments does a character begin a token
      cases mode with
      | between => exact hbegins
      | lineComment | braceComment => cases hstop
    · next mode' hmode =>
      obtain ⟨rfl, hrest⟩ := Prod.mk.inj hsplit
      have htext : text ≠ [] := by
        rintro rfl
        exact hbody hrest.symm
      rw [List.cons_append, splitTrivia, head?_append_of_ne_nil htext, hmode]
      dsimp only
      rw [ih (Prod.ext rfl hrest)]

theorem after?_eq_none {c : Char}
    (hbegins : splitTrivia .between (c :: text) = ([], c :: text)) :
    TriviaMode.between.after? c text.head? = none := by
  rw [splitTrivia] at hbegins
  split at hbegins
  · assumption
  · cases hbegins

/-- **What is scanned stays the same.** -/
theorem scan?_extend (hbegins : splitTrivia .between text = ([], text))
    (hscan : scan? text = some ⟨.ok token, slice, rest⟩)
    (hrest : rest ≠ [] ∨ token.kind = .dot) (more : List Char) :
    splitTrivia .between (text ++ more) = ([], text ++ more) ∧
      scan? (text ++ more) = some ⟨.ok token, slice, rest ++ more⟩ := by
  cases text with
  | nil => cases hscan
  | cons c text =>
    rcases exists_outcome (after?_eq_none hbegins) hscan with ⟨pattern, h, htoken⟩ | ⟨herror, -⟩
    · obtain ⟨h', htoken'⟩ := h.append htoken hrest more
      have htext : slice ++ rest = c :: text := Reading.text_append_rest hscan
      rw [← htext, List.append_assoc]
      exact h'.scan?_eq htoken'
    · cases herror

end Slices

/-! ## Cursors -/

namespace Cursor

variable {cursor : Cursor} {located : Located}

/-- A cursor on a text with more behind it. -/
def extend (more : List Char) (cursor : Cursor) : Cursor :=
  { cursor with rest := cursor.rest ++ more }

/-- **A token is delivered as before** if a character is behind it, or if it is a full stop. -/
theorem next_extend (h : cursor.next.1 = .ok located) (hend : located.token.kind ≠ .endOfInput)
    (hrest : cursor.next.2.rest ≠ [] ∨ located.token.kind = .dot) (more : List Char) :
    (cursor.extend more).next = (.ok located, cursor.next.2.extend more) := by
  obtain ⟨text, line, finished⟩ := cursor
  cases finished with
  | true =>
    obtain rfl := Except.ok.inj h
    exact absurd rfl hend
  | false =>
    rcases hsplit : splitTrivia .between text with ⟨trivia, body⟩
    cases hscan : scan? body with
    | none =>
      obtain rfl := scan?_eq_none_iff.mp hscan
      rw [next_eq_end hsplit] at h
      obtain rfl := Except.ok.inj h
      exact absurd rfl hend
    | some reading =>
      obtain ⟨outcome, slice, rest⟩ := reading
      cases outcome with
      | error fault =>
        rw [next_eq_error hsplit hscan] at h
        cases h
      | ok token =>
        rw [next_eq_ok hsplit hscan] at h hrest ⊢
        obtain rfl := Except.ok.inj h
        have hbegins := splitTrivia_between_snd .between text
        rw [hsplit] at hbegins
        obtain ⟨hbegins', hscan'⟩ := scan?_extend hbegins hscan hrest more
        have hne : body ≠ [] := by
          rintro rfl
          cases hscan
        exact next_eq_ok (splitTrivia_extend hsplit hne hbegins') hscan'

end Cursor

/-! ## Deliveries -/

namespace Delivery

variable {d e : Delivery} {w : List Delivery}

theorem Span.start_mem (h : Span d w e) : d ∈ w ++ [e] := by
  cases h with
  | nil => exact List.mem_singleton_self d
  | cons => exact List.mem_cons_self

/-- A token with a character behind it, or a full stop. -/
def Lasts (d : Delivery) : Prop :=
  d.kind ≠ .endOfInput ∧ (d.behind.rest ≠ [] ∨ d.kind = .dot)

section Extend

variable (more : List Char)

/-- The delivery of the same token from a text with more behind it; nothing changes if another one
is delivered there. -/
def extend (d : Delivery) : Delivery :=
  match h : (d.before.extend more).next.1 with
  | .ok located => if located = d.located then ⟨d.before.extend more, located, h⟩ else d
  | .error _ => d

@[simp] theorem located_extend (d : Delivery) : (d.extend more).located = d.located := by
  rw [extend]
  split
  · split
    · assumption
    · rfl
  · rfl

theorem Lasts.next_extend (h : d.Lasts) :
    (d.before.extend more).next = (.ok d.located, d.behind.extend more) :=
  Cursor.next_extend d.delivers h.1 h.2 more

theorem Lasts.before_extend (h : d.Lasts) : (d.extend more).before = d.before.extend more := by
  have hnext := h.next_extend more
  rw [extend]
  split
  · next located hok =>
    rw [hnext] at hok
    rw [if_pos (Except.ok.inj hok).symm]
  · next error herror =>
    rw [hnext] at herror
    cases herror

theorem Lasts.behind_extend (h : d.Lasts) : (d.extend more).behind = d.behind.extend more := by
  rw [behind, h.before_extend, h.next_extend]

/-- **The deliveries of the longer text** are the same tokens one after the other. -/
theorem Span.extend (h : Span d w e) (hw : ∀ c ∈ w, c.Lasts) (he : e.Lasts) :
    Span (d.extend more) (w.map (Delivery.extend more)) (e.extend more) := by
  induction h with
  | nil => exact .nil _
  | @cons d f e w hlink hspan ih =>
    rw [List.forall_mem_cons] at hw
    have hf : f.Lasts := by
      cases hspan with
      | nil => exact he
      | cons => exact hw.2 _ List.mem_cons_self
    refine .cons ?_ (ih hw.2 he)
    rw [hf.before_extend, hw.1.behind_extend, hlink]

theorem Lasts.rawAssign_extend (h : d.Lasts) (hlength : 2 ≤ d.behind.rest.length) :
    (d.extend more).rawAssign = d.rawAssign := by
  have hpeek : (d.behind.extend more).peek? = d.behind.peek? :=
    List.getElem?_append_left hlength
  rw [rawAssign, rawAssign, h.behind_extend, hpeek]

theorem Lasts.nextKind?_extend (h : d.Lasts) (he : e.Lasts) (hlink : e.before = d.behind) :
    (d.extend more).nextKind? = d.nextKind? := by
  have hlink' : (e.extend more).before = (d.extend more).behind := by
    rw [he.before_extend, h.behind_extend, hlink]
  rw [nextKind?_eq hlink, nextKind?_eq hlink', kind, token, located_extend]
  rfl

theorem Lasts.agrees_extend (h : d.Lasts) (he : e.Lasts) (hlink : e.before = d.behind)
    (hlength : 2 ≤ d.behind.rest.length) (hagrees : d.Agrees) : (d.extend more).Agrees := by
  rw [Agrees, h.nextKind?_extend more he hlink, h.rawAssign_extend more hlength]
  exact hagrees

end Extend

end Delivery

end LusoPascal
