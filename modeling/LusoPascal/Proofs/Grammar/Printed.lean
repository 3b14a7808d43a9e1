import LusoPascal.Proofs.Grammar.Image

/-!
# Printed expressions

An expression is printed on one line, with one blank between each two tokens and parentheses only
where its levels require them. What is assigned is then the expression that was printed.

* `Expression.print`: the text;
* `Token.IsWritable.next_blank`, `exists_spells_before`: tokens with a blank before each are
  delivered, whatever comes behind another blank;
* **`Program.ofSource_print`**: a printed expression is read back from an assignment.
-/

namespace LusoPascal

open Delivery

/-- The text of an expression. -/
def Expression.print (x : Expression) : String :=
  " ".intercalate ((x.tokens .relation).map fun token => toString token.lexeme)

/-! ## A blank before each token -/

/-- Tokens one after the other, with a blank before each: a reader skips blanks first. -/
def spread (tokens : List Token) : List Char := tokens.flatMap fun token => ' ' :: token.chars

theorem wrapped_ne_nil {level own : Level} {tokens : List Token} (h : tokens ≠ []) :
    wrapped level own tokens ≠ [] := by
  rw [wrapped]
  split
  · exact List.cons_ne_nil _ _
  · exact h

theorem Expression.tokens_ne_nil (x : Expression) (level : Level) : x.tokens level ≠ [] := by
  cases x with
  | binary left op right =>
    exact wrapped_ne_nil (List.append_ne_nil_of_right_ne_nil _ (List.cons_ne_nil _ _))
  | unary op operand =>
    rw [tokens]
    split
    · exact List.cons_ne_nil _ _
    · exact wrapped_ne_nil (List.cons_ne_nil _ _)
  | number | boolean | var => exact List.cons_ne_nil _ _

theorem cons_intercalate {tokens : List Token} (h : tokens ≠ []) :
    ' ' :: [' '].intercalate (tokens.map Token.chars) = spread tokens := by
  match tokens with
  | [] => exact absurd rfl h
  | [token] => simp [spread]
  | token :: next :: rest =>
    have ih := cons_intercalate (List.cons_ne_nil next rest)
    rw [spread, List.flatMap_cons, ← spread, ← ih]
    simp

theorem Expression.toList_print (x : Expression) :
    ' ' :: x.print.toList = spread (x.tokens .relation) := by
  rw [← cons_intercalate (x.tokens_ne_nil _), print, String.toList_intercalate, List.map_map]
  rfl

theorem Token.IsWritable.next_blank {token : Token} (h : token.IsWritable) (rest : List Char) :
    (Cursor.mk (' ' :: (token.chars ++ ' ' :: rest)) 1 false).next =
      (.ok ⟨token, 1⟩, ⟨' ' :: rest, 1, false⟩) := by
  obtain ⟨pattern, hstands, htoken⟩ := h.exists_stands isGap_blank rest
  obtain ⟨hsplit, hscan⟩ := hstands.scan?_eq htoken
  have hskip := isGap_blank.split (token.chars ++ ([' '] ++ rest))
  rw [hsplit] at hskip
  exact Cursor.next_eq_ok hskip hscan

/-- **Spread tokens are delivered**, and behind them whatever stands behind one more blank. -/
theorem exists_spells_before {tokens : List Token} (ht : AllWritable tokens) {rest : List Char}
    {e : Delivery} (he : e.before = ⟨' ' :: rest, 1, false⟩) :
    ∃ d w, d.before = ⟨spread tokens ++ ' ' :: rest, 1, false⟩ ∧ Spells d w tokens e := by
  induction tokens with
  | nil => exact ⟨e, [], he, Spells.nil_iff.mpr ⟨rfl, rfl⟩⟩
  | cons token tokens ih =>
    rw [allWritable_cons] at ht
    obtain ⟨d, w, hd, hw⟩ := ih ht.2
    -- whether or not more tokens follow, the next character is a blank
    obtain ⟨behind, hbehind⟩ : ∃ behind, spread tokens ++ ' ' :: rest = ' ' :: behind := by
      cases tokens with
      | nil => exact ⟨rest, rfl⟩
      | cons next tokens => exact ⟨_, rfl⟩
    have hnext := ht.1.next_blank behind
    let c : Delivery := ⟨_, ⟨token, 1⟩, congrArg Prod.fst hnext⟩
    have hlink : d.before = c.behind := by
      rw [hd, hbehind]
      exact (congrArg Prod.snd hnext).symm
    refine ⟨c, c :: w, ?_, Spells.cons_iff.mpr ⟨w, d, rfl, rfl, hlink, hw⟩⟩
    rw [spread, List.flatMap_cons, ← spread, List.append_assoc, hbehind]
    rfl

/-! ## An assignment -/

/-- A program that assigns a value. -/
def assigning (value : String) : String := "program p; inicio x := " ++ value ++ " fim."

theorem toList_assigning (x : Expression) : (assigning x.print).toList =
    "program p; inicio x :=".toList ++ (spread (x.tokens .relation) ++ " fim.".toList) := by
  have htext : (assigning x.print).toList =
      "program p; inicio x := ".toList ++ x.print.toList ++ " fim.".toList :=
    String.toList_append.trans (congrArg (· ++ " fim.".toList) String.toList_append)
  have hblank : "program p; inicio x := ".toList = "program p; inicio x :=".toList ++ [' '] := rfl
  rw [htext, hblank, ← x.toList_print, List.append_assoc, List.append_assoc,
    List.singleton_append, List.cons_append]

theorem exists_span_assigning {x : Expression} (h : x.WellFormed) :
    ∃ p n s b d a w f t e, p.before = Cursor.ofSource (assigning x.print) ∧
      Span p (p :: n :: s :: b :: d :: a :: (w ++ [f, t])) e ∧ p.kind = .program ∧
      n.located = ⟨nameToken "p", 1⟩ ∧ s.kind = .semicolon ∧ b.kind = .inicio ∧
      d.located = ⟨nameToken "x", 1⟩ ∧ d.Agrees ∧ a.located = ⟨TokenKind.assign.token, 1⟩ ∧
      DerivesExpression .relation w (x.onLine 1) ∧ f.kind = .fim ∧ t.kind = .dot := by
  let e : Delivery := ⟨⟨[], 1, false⟩, ⟨.endOfInput, 1⟩, rfl⟩
  let t : Delivery := ⟨⟨['.'], 1, false⟩, ⟨TokenKind.dot.token, 1⟩, rfl⟩
  let f : Delivery := ⟨⟨" fim.".toList, 1, false⟩, ⟨TokenKind.fim.token, 1⟩, rfl⟩
  obtain ⟨c, w, hc, hw⟩ := exists_spells_before (h.isWritable .relation) (e := f) rfl
  -- the head of the text is read, whatever the value is
  let value := spread (x.tokens .relation) ++ " fim.".toList
  let before (head : String) : Cursor := ⟨head.toList ++ value, 1, false⟩
  let a : Delivery := ⟨before " :=", ⟨TokenKind.assign.token, 1⟩, rfl⟩
  let d : Delivery := ⟨before " x :=", ⟨nameToken "x", 1⟩, rfl⟩
  let b : Delivery := ⟨before " inicio x :=", ⟨TokenKind.inicio.token, 1⟩, rfl⟩
  let s : Delivery := ⟨before "; inicio x :=", ⟨TokenKind.semicolon.token, 1⟩, rfl⟩
  let n : Delivery := ⟨before " p; inicio x :=", ⟨nameToken "p", 1⟩, rfl⟩
  let p : Delivery := ⟨before "program p; inicio x :=", ⟨TokenKind.program.token, 1⟩, rfl⟩
  have hend : Span f [f, t] e := .cons rfl (.cons rfl (.nil e))
  have hvalue : Span c (w ++ [f, t]) e := hw.1.append hend
  have hspan : Span p (p :: n :: s :: b :: d :: a :: (w ++ [f, t])) e :=
    .cons (e := n) rfl (.cons (e := s) rfl (.cons (e := b) rfl (.cons (e := d) rfl
      (.cons (e := a) rfl (.cons hc hvalue)))))
  refine ⟨p, n, s, b, d, a, w, f, t, e, ?_, hspan, rfl, rfl, rfl, rfl, rfl, ?_, rfl,
    h.derives _ hw, rfl, rfl⟩
  · rw [Cursor.ofSource, toList_assigning]
  · have hnext : d.nextKind? = some .assign := nextKind?_eq (e := a) rfl
    exact iff_of_true hnext rfl

/-- **Expressions survive printing**: what a program assigns is the expression whose text stands
there, on the first line. -/
theorem Program.ofSource_print {x : Expression} (h : x.WellFormed) :
    ofSource (assigning x.print) =
      .ok ⟨"p", ⟨[], [.assign ⟨"x", nameToken "x", 1⟩ TokenKind.assign.token (x.onLine 1)]⟩⟩ := by
  obtain ⟨p, n, s, b, d, a, w, f, t, e, hp, hspan, hkp, hn, hs, hb, hd, hagrees, ha, hw, hf, ht⟩ :=
    exists_span_assigning h
  have hassign : DerivesStatement (d :: a :: w)
      (.assign ⟨"x", nameToken "x", 1⟩ TokenKind.assign.token (x.onLine 1)) [d] := by
    have hassign := DerivesStatement.assignment (kind_of_located hd) (kind_of_located ha)
      (.expression hw)
    rwa [identifier, token_of_located hd, line_of_located hd, token_of_located ha] at hassign
  have hderives := DerivesProgram.intro hkp (kind_of_located hn) hs
    (.intro .nil .nil (.intro hb (.one hassign) hf)) ht
  have hwhole : [] ++ ([] ++ b :: (d :: a :: w ++ [f])) ++ [t] = b :: d :: a :: (w ++ [f, t]) := by
    simp
  rw [token_of_located hn, hwhole] at hderives
  have hsentence : sentence (assigning x.print) = p :: n :: s :: b :: d :: a :: (w ++ [f, t]) := by
    rw [sentence, ← hp, hspan.trail_eq hderives.ne_endOfInput]
    exact hderives.throughDot_append _
  refine ofSource_complete ?_ fun last hlast => ⟨e.located, ?_⟩ <;> rw [hsentence] at *
  · refine ⟨[d], hderives, ⟨trivial, ?_, trivial⟩, ?_⟩
    · simp [Statement.NearestElse]
    · rwa [List.forall_mem_singleton]
  · rw [← hspan.before_of_getLast? hlast]
    exact e.delivers

/-- A sign in front of a product, which stands to the left of a comparison. -/
def signedProduct : Expression :=
  let var (name : String) : Expression := .var ⟨name, nameToken name, 1⟩
  .binary (.unary TokenKind.minus.token (.binary (var "a") TokenKind.times.token
      (.binary (var "b") TokenKind.plus.token (.number 1))))
    TokenKind.greater.token (.unary TokenKind.nao.token (var "c"))

theorem signedProduct_wellFormed : signedProduct.WellFormed := by
  have hvar {name : String} (hname : IsName name) :
      (Identifier.mk name (nameToken name) 1).WellFormed := ⟨hname, rfl⟩
  have hsum : (Expression.binary (.var ⟨"b", nameToken "b", 1⟩) TokenKind.plus.token
      (.number 1)).WellFormed :=
    ⟨TokenKind.token_isSpelled (by decide) rfl, hvar (by decide), by decide, by decide⟩
  have hleft : (Expression.unary TokenKind.minus.token (.binary (.var ⟨"a", nameToken "a", 1⟩)
      TokenKind.times.token _)).WellFormed :=
    ⟨TokenKind.token_isSpelled (by decide) rfl, TokenKind.token_isSpelled (by decide) rfl,
      hvar (by decide), hsum⟩
  exact ⟨TokenKind.token_isSpelled (by decide) rfl, hleft,
    TokenKind.token_isSpelled (by decide) rfl, hvar (by decide)⟩

/-- Only the second factor needs parentheses. -/
theorem signedProduct_print : signedProduct.print = "- a * ( b + 1 ) > nao c" := by
  decide +kernel

theorem Program.ofSource_print_signedProduct : signedProduct.WellFormed ∧
    ofSource (assigning "- a * ( b + 1 ) > nao c") = .ok ⟨"p", ⟨[],
      [.assign ⟨"x", nameToken "x", 1⟩ TokenKind.assign.token signedProduct]⟩⟩ := by
  have hread := ofSource_print signedProduct_wellFormed
  rw [signedProduct_print] at hread
  exact ⟨signedProduct_wellFormed, hread⟩

end LusoPascal
