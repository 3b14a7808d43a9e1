import LusoPascal.Proofs.Token.Segmentation

/-!
# Written tokens

Tokens written one after the other, with a gap behind each, are read back as they were. The usual
gap is a blank.

* `Token.chars`, `Token.IsWritable`: the text of a token, and tokens that have one;
* `IsGap`, `spaced`, `written`: what may stand behind a token, and tokens with gaps or blanks;
* **`Token.IsWritable.exists_stands`**: a written token stands before its gap;
* `Cursor.OnSpaced`, `Cursor.OnWritten`: a cursor on a spaced or a written text;
* `Delivery.Spells`: deliveries that are given tokens on the first line;
* **`exists_spaced`**, **`exists_spells`**: such texts deliver their tokens;
* `TokenKind.exists_delivery`: every kind of token is delivered by some text.
-/

namespace LusoPascal

namespace Token

/-- The characters of a token. -/
def chars (token : Token) : List Char := (toString token.lexeme).toList

/-- A token that a text can hold. -/
def IsWritable (token : Token) : Prop := token.Genuine ∧ token.kind ≠ .endOfInput

end Token

/-- Trivia on one line that end in front of any text, and that no token takes characters from. -/
structure IsGap (gap : List Char) : Prop where
  head : gap.head? = some ' ' ∨ gap.head? = some '\x7b'
  oneLine : '\n' ∉ gap
  split (text : List Char) : splitTrivia .between (gap ++ text) =
    (gap ++ (splitTrivia .between text).1, (splitTrivia .between text).2)

theorem isGap_blank : IsGap [' '] := ⟨.inl rfl, by decide, fun _ => rfl⟩

/-- Tokens one after the other, with a gap behind each. -/
def spaced : List (Token × List Char) → List Char
  | [] => []
  | (token, gap) :: rest => token.chars ++ (gap ++ spaced rest)

/-- Tokens one after the other, with a blank behind each. -/
def written : List Token → List Char
  | [] => []
  | token :: rest => token.chars ++ ' ' :: written rest

/-! ## One token -/

theorem mem_of_spelling? {kind : TokenKind} {spelling : String}
    (h : kind.spelling? = some spelling) :
    (spelling, kind) ∈ reservedWords ∨ (spelling, kind) ∈ operatorSpellings := by
  cases kind <;> simp only [TokenKind.spelling?, Option.some.injEq, reduceCtorEq] at h <;>
    subst h <;> decide

theorem not_mem_growth_of_gap :
    ∀ entry ∈ operatorSpellings,
      ' ' ∉ Pattern.growth entry.1 ∧ '\x7b' ∉ Pattern.growth entry.1 := by
  decide

/-- **A written token stands before its gap.** -/
theorem Token.IsWritable.exists_stands {token : Token} {gap : List Char} (h : token.IsWritable)
    (hgap : IsGap gap) (rest : List Char) :
    ∃ pattern : Pattern, pattern.Stands token.chars (gap ++ rest) ∧
      pattern.outcome token.chars (gap ++ rest) = .ok (some token) := by
  have hhead {P : Char → Prop} (hP : P ' ' ∧ P '\x7b') : ∀ c ∈ (gap ++ rest).head?, P c := by
    intro c hc
    rw [List.head?_append] at hc
    rcases hgap.head with h | h <;> rw [h, Option.some_or] at hc <;>
      obtain rfl := Option.some.inj hc
    · exact hP.1
    · exact hP.2
  have hdot : (gap ++ rest).head? ≠ some '.' := by
    rw [List.head?_append]
    rcases hgap.head with h | h <;> rw [h, Option.some_or] <;> decide
  obtain ⟨h, hend⟩ := h
  cases h with
  | @fixed kind spelling hs =>
    rcases mem_of_spelling? hs with hmem | hmem
    · refine ⟨.word spelling kind, ⟨⟨hmem, rfl⟩, hhead ⟨rfl, rfl⟩⟩, ?_⟩
      have hne : kind ≠ .booleanLiteral := by
        rintro rfl
        cases hs
      rw [Pattern.outcome, if_neg hne]
    · exact ⟨.operator spelling kind, ⟨⟨hmem, rfl⟩, hhead (not_mem_growth_of_gap _ hmem)⟩, rfl⟩
  | @identifier name hn =>
    have hword : IsWord name.toList ∧ String.ofList name.toList ∉ reservedWords.map Prod.fst := by
      rw [String.ofList_toList]
      exact ⟨hn.isWord, hn.notReserved⟩
    refine ⟨.identifier, ⟨hword, hhead ⟨rfl, rfl⟩⟩, ?_⟩
    change Except.ok (some (Token.mk _ (.text (String.ofList name.toList)))) = _
    rw [String.ofList_toList]
  | @integer value hv =>
    have hchars : Token.chars ⟨.integerLiteral, .integer value⟩ = Nat.toDigits 10 value :=
      Nat.toList_repr
    have hvalue : decimalValue (Nat.toDigits 10 value) = value :=
      Nat.ofDigitChars_eq_foldl.symm.trans Nat.ofDigitChars_ten_toDigits
    have hdigits : ∀ c ∈ Nat.toDigits 10 value, c.isDigit = true :=
      fun c hc => Nat.isDigit_of_mem_toDigits (by decide) (by decide) hc
    refine ⟨.digits, ?_, ?_⟩
    · rw [hchars]
      exact ⟨⟨Nat.toDigits_ne_nil, hdigits⟩, hhead ⟨rfl, rfl⟩⟩
    · rw [hchars, Pattern.outcome, hvalue, if_neg hdot, if_pos hv]
  | boolean value =>
    have hmem : (booleanWord value, TokenKind.booleanLiteral) ∈ reservedWords := by
      cases value <;> decide
    refine ⟨.word (booleanWord value) .booleanLiteral, ⟨⟨hmem, rfl⟩, hhead ⟨rfl, rfl⟩⟩, ?_⟩
    cases value <;> rfl
  | endOfInput => exact absurd rfl hend

/-! ## A written text -/

theorem written_eq_spaced (tokens : List Token) :
    written tokens = spaced (tokens.map fun token => (token, [' '])) := by
  induction tokens with
  | nil => rfl
  | cons token rest ih => rw [written, ih]; rfl

namespace Cursor

variable {cursor : Cursor} {token : Token} {tokens : List Token} {gap : List Char}
  {items : List (Token × List Char)}

/-- A cursor on the first line of a spaced text, perhaps with one gap still to skip. -/
inductive OnSpaced (items : List (Token × List Char)) : Cursor → Prop
  | start : OnSpaced items ⟨spaced items, 1, false⟩
  | behind {gap : List Char} (hgap : IsGap gap) : OnSpaced items ⟨gap ++ spaced items, 1, false⟩

theorem OnSpaced.next (h : OnSpaced ((token, gap) :: items) cursor) (ht : token.IsWritable)
    (hgap : IsGap gap) :
    cursor.next = (.ok ⟨token, 1⟩, ⟨gap ++ spaced items, 1, false⟩) := by
  obtain ⟨pattern, hstands, htoken⟩ := ht.exists_stands hgap (spaced items)
  obtain ⟨hsplit, hscan⟩ := hstands.scan?_eq htoken
  cases h with
  | start => exact next_eq_ok hsplit hscan
  | @behind gap' hgap' =>
    have hskip := hgap'.split (token.chars ++ (gap ++ spaced items))
    rw [hsplit, List.append_nil] at hskip
    have hline : 1 + gap'.count '\n' = 1 := by rw [List.count_eq_zero.mpr hgap'.oneLine]
    have hnext : (Cursor.mk (gap' ++ spaced ((token, gap) :: items)) 1 false).next = _ :=
      next_eq_ok hskip hscan
    rwa [hline] at hnext

theorem OnSpaced.next_nil (h : OnSpaced [] cursor) : cursor.next.1 = .ok ⟨.endOfInput, 1⟩ := by
  cases h with
  | start => rfl
  | @behind gap hgap =>
    have hskip := hgap.split []
    rw [show splitTrivia .between [] = ([], []) from rfl, List.append_nil] at hskip
    have hline : 1 + gap.count '\n' = 1 := by rw [List.count_eq_zero.mpr hgap.oneLine]
    rw [spaced, List.append_nil, next_eq_end hskip, hline]

/-- A cursor on the first line of a written text, perhaps with one blank still to skip. -/
structure OnWritten (cursor : Cursor) (tokens : List Token) : Prop where
  rest : cursor.rest = written tokens ∨ cursor.rest = ' ' :: written tokens
  line : cursor.line = 1
  finished : cursor.finished = false

/-- The cursor behind a token of a written text. -/
def onBlank (tokens : List Token) : Cursor := ⟨' ' :: written tokens, 1, false⟩

theorem onBlank_onWritten (tokens : List Token) : (onBlank tokens).OnWritten tokens :=
  ⟨.inr rfl, rfl, rfl⟩

theorem OnWritten.onSpaced (h : cursor.OnWritten tokens) :
    OnSpaced (tokens.map fun token => (token, [' '])) cursor := by
  obtain ⟨text, line, finished⟩ := cursor
  obtain ⟨hrest, rfl, rfl⟩ := h
  rw [written_eq_spaced] at hrest
  rcases hrest with rfl | rfl
  · exact .start
  · exact .behind isGap_blank

theorem OnWritten.next (h : cursor.OnWritten (token :: tokens)) (ht : token.IsWritable) :
    cursor.next = (.ok ⟨token, 1⟩, onBlank tokens) := by
  rw [onBlank, written_eq_spaced]
  exact h.onSpaced.next ht isGap_blank

theorem OnWritten.next_nil (h : cursor.OnWritten []) :
    cursor.next.1 = .ok ⟨.endOfInput, 1⟩ := h.onSpaced.next_nil

end Cursor

namespace Delivery

/-- From a delivery on stand given tokens on the first line, and then comes another delivery. -/
def Spells (d : Delivery) (w : List Delivery) (tokens : List Token) (e : Delivery) : Prop :=
  Span d w e ∧ w.map located = tokens.map fun token => ⟨token, 1⟩

namespace Spells

variable {d e : Delivery} {w : List Delivery} {token : Token} {tokens more : List Token}

theorem nil_iff : Spells d w [] e ↔ w = [] ∧ d = e := by
  constructor
  · rintro ⟨hspan, hw⟩
    obtain rfl := List.map_eq_nil_iff.mp hw
    exact ⟨rfl, Span.nil_iff.mp hspan⟩
  · rintro ⟨rfl, rfl⟩
    exact ⟨.nil d, rfl⟩

theorem cons_iff : Spells d w (token :: tokens) e ↔
    ∃ v c, w = d :: v ∧ d.located = ⟨token, 1⟩ ∧ c.before = d.behind ∧ Spells c v tokens e := by
  constructor
  · rintro ⟨hspan, hw⟩
    obtain ⟨f, v, rfl, hf, hv⟩ := List.map_eq_cons_iff.mp hw
    obtain ⟨rfl, c, hlink, hspan⟩ := Span.cons_iff.mp hspan
    exact ⟨v, c, rfl, hf, hlink, hspan, hv⟩
  · rintro ⟨v, c, rfl, hd, hlink, hspan, hv⟩
    exact ⟨.cons hlink hspan, by rw [List.map_cons, List.map_cons, hd, hv]⟩

theorem append_iff : Spells d w (tokens ++ more) e ↔
    ∃ u v c, w = u ++ v ∧ Spells d u tokens c ∧ Spells c v more e := by
  constructor
  · rintro ⟨hspan, hw⟩
    rw [List.map_append] at hw
    obtain ⟨u, v, rfl, hu, hv⟩ := List.map_eq_append_iff.mp hw
    obtain ⟨c, hspanu, hspanv⟩ := Span.append_iff.mp hspan
    exact ⟨u, v, c, rfl, ⟨hspanu, hu⟩, ⟨hspanv, hv⟩⟩
  · rintro ⟨u, v, c, rfl, ⟨hspanu, hu⟩, ⟨hspanv, hv⟩⟩
    exact ⟨hspanu.append hspanv, by rw [List.map_append, List.map_append, hu, hv]⟩

end Spells

end Delivery

open Delivery

/-- **A spaced text delivers its tokens**, and behind each of them its gap and the rest of the
text. -/
theorem exists_spaced {cursor : Cursor} {items : List (Token × List Char)}
    (h : Cursor.OnSpaced items cursor) (ht : ∀ item ∈ items, item.1.IsWritable ∧ IsGap item.2) :
    ∃ d w e, d.before = cursor ∧ Spells d w (items.map Prod.fst) e ∧ e.kind = .endOfInput ∧
      ∀ (i : Nat) (c : Delivery) (item : Token × List Char), w[i]? = some c →
        items[i]? = some item → c.behind = ⟨item.2 ++ spaced (items.drop (i + 1)), 1, false⟩ := by
  induction items generalizing cursor with
  | nil =>
    let d : Delivery := ⟨cursor, _, h.next_nil⟩
    exact ⟨d, [], d, rfl, Spells.nil_iff.mpr ⟨rfl, rfl⟩, rfl, by simp⟩
  | cons item rest ih =>
    obtain ⟨token, gap⟩ := item
    rw [List.forall_mem_cons] at ht
    have hnext := h.next ht.1.1 ht.1.2
    let d : Delivery := ⟨cursor, ⟨token, 1⟩, congrArg Prod.fst hnext⟩
    have hbehind : d.behind = ⟨gap ++ spaced rest, 1, false⟩ := congrArg Prod.snd hnext
    obtain ⟨c, w, e, hc, hw, he, hgaps⟩ := ih (.behind ht.1.2) ht.2
    refine ⟨d, d :: w, e, rfl, ?_, he, ?_⟩
    · exact Spells.cons_iff.mpr ⟨w, c, rfl, rfl, hc.trans hbehind.symm, hw⟩
    · rintro (_ | i) c item hget hitem
      · obtain rfl := Option.some.inj hget
        obtain rfl := Option.some.inj hitem
        exact hbehind
      · exact hgaps i c item hget hitem

/-- **A written text delivers its tokens**, and behind each of them a blank and the rest of the
text. -/
theorem exists_spells {cursor : Cursor} {tokens : List Token} (h : cursor.OnWritten tokens)
    (ht : ∀ token ∈ tokens, token.IsWritable) :
    ∃ d w e, d.before = cursor ∧ Spells d w tokens e ∧ e.kind = .endOfInput ∧
      ∀ c ∈ w, ∃ rest, (∀ token ∈ rest, token.IsWritable) ∧ c.behind = .onBlank rest := by
  obtain ⟨d, w, e, hd, hw, he, hgaps⟩ := exists_spaced h.onSpaced
    (List.forall_mem_map.mpr fun token htoken => ⟨ht token htoken, isGap_blank⟩)
  have hfst : (tokens.map fun token => (token, [' '])).map Prod.fst = tokens := by
    rw [List.map_map]
    exact List.map_id _
  rw [hfst] at hw
  refine ⟨d, w, e, hd, hw, he, fun c hc => ?_⟩
  obtain ⟨i, hget⟩ := List.mem_iff_getElem?.mp hc
  have hlength : i < tokens.length := by
    have hlengths := congrArg List.length hw.2
    rw [List.length_map, List.length_map] at hlengths
    exact hlengths ▸ (List.getElem?_eq_some_iff.mp hget).1
  refine ⟨tokens.drop (i + 1), fun token htoken => ht token (List.mem_of_mem_drop htoken), ?_⟩
  rw [hgaps i c (tokens[i], [' ']) hget (by simp [hlength]), ← List.map_drop, ← written_eq_spaced]
  rfl

theorem TokenKind.exists_isWritable (kind : TokenKind) (h : kind ≠ .endOfInput) :
    ∃ token : Token, token.kind = kind ∧ token.IsWritable := by
  cases hs : kind.spelling? with
  | some spelling => exact ⟨⟨kind, .text spelling⟩, rfl, .fixed hs, h⟩
  | none =>
    cases kind with
    | booleanLiteral => exact ⟨_, rfl, .boolean true, h⟩
    | identifier =>
      have hname : IsName "a" := by decide
      exact ⟨_, rfl, .identifier hname, h⟩
    | integerLiteral => exact ⟨_, rfl, .integer (Nat.zero_le _), h⟩
    | endOfInput => exact absurd rfl h
    | _ => cases hs

/-- Every kind but the end of the text is delivered by some text. -/
theorem TokenKind.exists_delivery (kind : TokenKind) (h : kind ≠ .endOfInput) :
    ∃ d : Delivery, d.kind = kind := by
  obtain ⟨token, rfl, htoken⟩ := exists_isWritable kind h
  have hcursor : Cursor.OnWritten ⟨written [token], 1, false⟩ [token] := ⟨.inl rfl, rfl, rfl⟩
  obtain ⟨d, w, e, -, hspells, -⟩ := exists_spells hcursor (by simpa using htoken)
  obtain ⟨v, c, -, hd, -⟩ := Spells.cons_iff.mp hspells
  exact ⟨d, congrArg (fun located => located.token.kind) hd⟩

end LusoPascal
