import LusoPascal.Proofs.Analysis.Blame
import LusoPascal.Proofs.Text.Line

/-!
# Diagnostics show the line at fault

A diagnostic has two lines: the wording of the error, which never breaks over lines, and the line of
the text that the error points at. What is wrong there can be seen in the second line, since no
blank belongs to a token and so trimming cuts off nothing of it.

* `OneLine`: a text without a line feed, with the parts that wordings are made of;
* `LexicalError.oneLine_message`, `SyntaxError.oneLine_message`, `SemanticError.oneLine_message`:
  the wordings;
* `Fault.text`, `Scans.fault_text`: the text that a lexical error is about;
* `Failure.ShownIn`: the text at fault stands in what is quoted;
* **`Report.diagnostic_shows_line`**: all diagnostics.
-/

namespace LusoPascal

/-! ## Texts on one line -/

/-- A text without a line feed. -/
def OneLine (text : String) : Prop := '\n' ∉ text.toList

instance : DecidablePred OneLine := fun text => inferInstanceAs (Decidable ('\n' ∉ text.toList))

theorem oneLine_append {s t : String} : OneLine (s ++ t) ↔ OneLine s ∧ OneLine t := by
  simp only [OneLine, String.toList_append, List.mem_append, not_or]

theorem oneLine_toString {s : String} : OneLine (toString s) ↔ OneLine s := .rfl

theorem oneLine_nat (n : Nat) : OneLine (toString n) := by
  intro h
  have hdigits : (toString n).toList = Nat.toDigits 10 n := Nat.toList_repr
  rw [hdigits] at h
  exact absurd (Nat.isDigit_of_mem_toDigits (by decide) (by decide) h) (by decide)

theorem oneLine_kind (kind : TokenKind) : OneLine (toString kind) := by
  cases kind <;> decide

theorem oneLine_type (type : BaseType) : OneLine (toString type) := by
  cases type <;> decide

theorem IsName.oneLine {name : String} (h : IsName name) : OneLine name := fun hmem =>
  absurd (h.isWord.isAlphanum _ hmem) (by decide)

theorem Token.Genuine.oneLine_lexeme {token : Token} (h : token.Genuine) :
    OneLine (toString token.lexeme) := by
  cases h with
  | fixed h => exact newline_not_mem_of_spelling? h
  | identifier h => exact h.oneLine
  | integer => exact oneLine_nat _
  | boolean value => cases value <;> decide
  | endOfInput => decide

theorem Token.Genuine.oneLine {token : Token} (h : token.Genuine) : OneLine (toString token) := by
  change OneLine (s!"Token<{token.kind}, {token.lexeme}>")
  simp +decide only [oneLine_append, oneLine_kind, h.oneLine_lexeme]

/-! ## Wordings -/

/-- The text that a lexical error is about: a character, or a whole run of digits. -/
def Fault.text : Fault → List Char
  | strayCharacter c => [c]
  | pointAfterNumber digits | numberTooLarge digits => digits.toList

theorem LexicalError.oneLine_message {error : LexicalError} (h : '\n' ∉ error.fault.text) :
    OneLine error.message := by
  obtain ⟨fault, line⟩ := error
  rw [message]
  cases fault with
  | strayCharacter c =>
    have hchars : (toString c).toList = [c] := String.toList_singleton c
    have hc : OneLine (toString c) := by rwa [OneLine, hchars]
    simp +decide only [oneLine_append, oneLine_nat, hc]
  | pointAfterNumber digits | numberTooLarge digits =>
    have hdigits : OneLine digits := h
    simp +decide only [oneLine_append, oneLine_toString, oneLine_nat, hdigits]

theorem SyntaxError.oneLine_message {error : SyntaxError} (h : error.found.token.Genuine) :
    OneLine error.message := by
  obtain ⟨defect, found⟩ := error
  have hfound : OneLine (toString found.token) := h.oneLine
  rw [message]
  cases defect <;>
    simp +decide only [oneLine_append, oneLine_toString, oneLine_nat, oneLine_kind, hfound]

theorem SemanticError.oneLine_message {strict : Bool} {tokens : List Located}
    {error : SemanticError} (h : error.PointsInto strict tokens)
    (hgenuine : ∀ located ∈ tokens, located.token.Genuine) : OneLine error.message := by
  have hname {name : String} {line : Nat} (hmem : .name name line ∈ tokens) : OneLine name := by
    obtain ⟨name', hname', heq⟩ := (hgenuine _ hmem).name_of_kind rfl
    obtain rfl : name = name' := Lexeme.text.inj (congrArg Token.lexeme heq)
    exact hname'.oneLine
  have hpasses {procedure argument : String}
      (h : Passes tokens error.line procedure argument) : OneLine procedure ∧ OneLine argument := by
    obtain ⟨opening, names, closing, hwithin, -, -, -, there, hargument⟩ := h
    have hmem : .name argument there ∈ tokens := hwithin.subset (by simp [hargument])
    exact ⟨hname (hwithin.subset List.mem_cons_self), hname hmem⟩
  obtain ⟨violation, line⟩ := error
  rw [message]
  cases violation with
  | redeclaredVariable name | unknownProcedure name | notProcedure name
  | argumentCount name =>
    have hone := hname h
    simp +decide only [oneLine_append, oneLine_toString, oneLine_nat, hone]
  | redeclaredProcedure name =>
    obtain ⟨word, there, -, -, hwithin⟩ := h
    have hmem : .name name there ∈ tokens := hwithin.subset (by simp)
    have hone := hname hmem
    simp +decide only [oneLine_append, oneLine_toString, oneLine_nat, hone]
  | unknownVariable name =>
    have hone : OneLine name := h.elim hname fun ⟨_, _, h⟩ => (hpasses h).2
    simp +decide only [oneLine_append, oneLine_toString, oneLine_nat, hone]
  | argumentType | argumentNotVariable =>
    have hboth := hpasses h.2
    simp +decide only [oneLine_append, oneLine_toString, oneLine_nat, oneLine_type, hboth]
  | unknownType => cases h

theorem SemanticError.PointsInto.exists_mem {strict : Bool} {tokens : List Located}
    {error : SemanticError} (h : error.PointsInto strict tokens) :
    ∃ located ∈ tokens, located.line = error.line := by
  obtain ⟨violation, line⟩ := error
  have hpasses {procedure argument : String} (h : Passes tokens line procedure argument) :
      ∃ located ∈ tokens, located.line = line := by
    obtain ⟨opening, names, closing, hwithin, -⟩ := h
    exact ⟨_, hwithin.subset List.mem_cons_self, rfl⟩
  cases violation with
  | redeclaredVariable | unknownProcedure | notProcedure | argumentCount => exact ⟨_, h, rfl⟩
  | redeclaredProcedure =>
    obtain ⟨word, there, -, hline, hwithin⟩ := h
    exact ⟨word, hwithin.subset List.mem_cons_self, hline⟩
  | unknownVariable => exact h.elim (⟨_, ·, rfl⟩) fun ⟨_, _, h⟩ => hpasses h
  | argumentType | argumentNotVariable => exact hpasses h.2
  | unknownType => cases h

/-! ## Where failures point -/

theorem Cursor.genuine_of_mem_delivered (cursor : Cursor) :
    ∀ located ∈ cursor.delivered.1, located.token.Genuine := by
  rw [Cursor.delivered_fst]
  exact List.forall_mem_map.mpr fun d _ => d.genuine

theorem Pattern.text_of_outcome {pattern : Pattern} {slice rest : List Char} {fault : Fault}
    (h : pattern.outcome slice rest = .error fault) : fault.text = slice := by
  cases pattern with
  | digits =>
    rw [outcome] at h
    split at h
    · obtain rfl := Except.error.inj h
      exact String.toList_ofList
    · split at h
      · cases h
      · obtain rfl := Except.error.inj h
        exact String.toList_ofList
  | blanks | lineComment | braceComment | word | identifier | operator => cases h

/-- **Reading stops before the text of the fault**, which holds no blank. -/
theorem Scans.fault_text {text rest : List Char} {pieces : List Piece} {fault : Fault}
    (h : Scans text pieces rest (some fault)) :
    (∃ behind, rest = fault.text ++ behind) ∧ fault.text ≠ [] ∧
      ∀ c ∈ fault.text, isBlank c = false := by
  generalize hfault : some fault = fault? at h
  induction h with
  | done => cases hfault
  | @stray c text hc hnone =>
    obtain rfl := Option.some.inj hfault
    obtain ⟨behind, rfl⟩ := List.head?_eq_some_iff.mp hc
    refine ⟨⟨behind, rfl⟩, List.cons_ne_nil _ _, List.forall_mem_singleton.mpr ?_⟩
    rw [Bool.eq_false_iff]
    intro hblank
    refine hnone .blanks [c] ⟨behind, rfl⟩ ⟨List.cons_ne_nil _ _, ?_⟩
    rw [List.forall_mem_singleton, isSpace, hblank, Bool.true_or]
  | @fault pattern slice behind text _ htext hwins houtcome =>
    obtain rfl := Option.some.inj hfault
    subst htext
    rw [Pattern.text_of_outcome houtcome]
    exact ⟨⟨behind, rfl⟩, hwins.isMatch.ne_nil,
      hwins.stands.isBlank_eq_false (by rw [houtcome]; rintro ⟨⟩)⟩
  | piece _ _ _ _ ih => exact ih hfault

theorem Cursor.line_of_mem_delivered {source : String} {located : Located}
    (h : located ∈ (Cursor.ofSource source).delivered.1) :
    1 ≤ located.line ∧ located.line ≤ 1 + source.toList.count '\n' := by
  obtain ⟨pieces, rest, fault?, hscans, hdelivered⟩ := exists_scans source.toList 1
  rw [ofSource, hdelivered] at h
  obtain ⟨earlier, later, hsplit⟩ := List.append_of_mem h
  obtain ⟨before, piece, behind, rfl, -, -, hline⟩ := exists_piece_of_locatedTokens hsplit
  obtain ⟨rest', htext, -⟩ := hscans.exists_stands_at
  rw [hline, htext, List.count_append]
  omega

namespace Report

variable {strict : Bool} {source : String}

theorem outcome_ne_input {error : ReadError} :
    (ofSource strict source).outcome ≠ .error (.input error) := by
  rw [outcome_eq]
  rcases Program.ofSource source with (error' | error') | program
  · rintro ⟨⟩
  · rintro ⟨⟩
  · cases hresult : (program.analyze strict .initial).1 <;>
      simp [hresult, Except.mapError, Except.map]

/-- A lexical error is the fault that stops the reading of the text, on the line of its first
character. -/
theorem exists_scans_of_lexical {error : LexicalError}
    (h : (ofSource strict source).outcome = .error (.lexical error)) :
    ∃ pieces rest, Scans source.toList pieces rest (some error.fault) ∧
      error.line = 1 + (pieces.flatMap Piece.slice).count '\n' := by
  have htokens := Program.tokenize_of_lexical (outcome_lexical_iff.mp h)
  obtain ⟨pieces, rest, fault?, hscans, hdelivered⟩ := exists_scans source.toList 1
  rw [tokenize, Cursor.ofSource, hdelivered] at htokens
  cases fault? with
  | none => cases htokens
  | some fault =>
    obtain rfl := Except.error.inj htokens
    exact ⟨pieces, rest, hscans, rfl⟩

/-- A rejected token is the one behind those that were consumed, or the end of the text. -/
theorem found_of_syntactic {error : SyntaxError}
    (h : (ofSource strict source).outcome = .error (.syntactic error)) :
    (∃ later, (Cursor.ofSource source).delivered.1 =
        (ofSource strict source).consumed ++ error.found :: later) ∨
      error.found = ⟨.endOfInput, 1 + source.toList.count '\n'⟩ := by
  rw [ofSource] at h ⊢
  cases hreader : Reader.ofSource source with
  | error error' => rw [hreader] at h; cases h
  | ok reader =>
    obtain ⟨d, hd, rfl⟩ := Reader.ofSource_eq_ok_iff.mp hreader
    have hconsumed := Delivery.consumed_of_parse hd
    rw [hreader] at h
    dsimp only at h ⊢
    rcases hrun : (d.reader #[]).parse with ⟨(error' | error') | program, behind⟩ <;>
      rw [hrun] at hconsumed h
    · cases h
    · obtain rfl := Failure.syntactic.inj (Except.error.inj h)
      exact hconsumed.imp_right And.right
    · -- a parsed program is not rejected for its syntax any more
      dsimp only [ofParsed] at h
      cases hresult : (program.analyze strict .initial).1 <;> rw [hresult] at h <;> cases h

/-- **Every failure points at a line of the text.** -/
theorem exists_line {failure : Failure} (h : (ofSource strict source).outcome = .error failure) :
    ∃ n, failure.line? = some n ∧ 1 ≤ n ∧ n ≤ 1 + source.toList.count '\n' := by
  cases failure with
  | input error => exact absurd h outcome_ne_input
  | lexical error =>
    obtain ⟨pieces, rest, hscans, hline⟩ := exists_scans_of_lexical h
    refine ⟨_, rfl, ?_⟩
    rw [hline, ← hscans.append, List.count_append]
    omega
  | syntactic error =>
    refine ⟨_, rfl, ?_⟩
    rw [SyntaxError.line]
    rcases found_of_syntactic h with ⟨later, hdelivered⟩ | hfound
    · exact Cursor.line_of_mem_delivered (by simp [hdelivered])
    · rw [hfound]
      dsimp only
      omega
  | semantic error =>
    obtain ⟨located, hmem, hline⟩ := (pointsInto_of_outcome h).exists_mem
    exact ⟨_, rfl, hline ▸ Cursor.line_of_mem_delivered hmem⟩

/-- **The wording of a failure stands on one line.** -/
theorem oneLine_message {failure : Failure}
    (h : (ofSource strict source).outcome = .error failure) : OneLine failure.message := by
  have hgenuine := (Cursor.ofSource source).genuine_of_mem_delivered
  cases failure with
  | input error => exact absurd h outcome_ne_input
  | lexical error =>
    obtain ⟨pieces, rest, hscans, -⟩ := exists_scans_of_lexical h
    have hone : OneLine error.message :=
      error.oneLine_message (newline_not_mem_of_isBlank hscans.fault_text.2.2)
    exact oneLine_append.mpr ⟨by decide, hone⟩
  | syntactic error =>
    have hone : OneLine error.message := by
      refine error.oneLine_message ?_
      rcases found_of_syntactic h with ⟨later, hdelivered⟩ | hfound
      · exact hgenuine _ (by simp [hdelivered])
      · rw [hfound]
        exact .endOfInput
    exact oneLine_append.mpr ⟨by decide, hone⟩
  | semantic error =>
    have hone := SemanticError.oneLine_message (pointsInto_of_outcome h) hgenuine
    exact oneLine_append.mpr ⟨by decide, hone⟩

end Report

/-! ## Diagnostics -/

/-- What a failure is about stands in what is quoted of a text, at its place behind what stands
`above` the line: behind the pieces before it the text of a fault, or behind the pieces of the
consumed tokens that of the rejected one, unless this is the end of the text. -/
def Failure.ShownIn (source : String) (consumed : List Located) (above quoted : List Char) :
    Failure → Prop
  | lexical error => ∃ pieces behind left right,
      Scans source.toList pieces (error.fault.text ++ behind) (some error.fault) ∧
        pieces.flatMap Piece.slice = above ++ left ∧ quoted = left ++ (error.fault.text ++ right)
  | syntactic error => error.found.token.kind ≠ .endOfInput →
      ∃ before piece behind rest fault? left right,
        Scans source.toList (before ++ piece :: behind) rest fault? ∧
          locatedTokens 1 before = consumed ∧ piece.token? = some error.found.token ∧
          before.flatMap Piece.slice = above ++ left ∧ quoted = left ++ (piece.slice ++ right)
  | input _ | semantic _ => True

theorem Report.shownIn {strict : Bool} {source : String} {failure : Failure} {n : Nat}
    {above quoted blanks below : List Char}
    (h : (ofSource strict source).outcome = .error failure) (hline : failure.line? = some n)
    (hquotes : Quotes n source.toList above quoted blanks below) :
    failure.ShownIn source (ofSource strict source).consumed above quoted := by
  cases failure with
  | input | semantic => trivial
  | lexical error =>
    obtain rfl := Option.some.inj hline
    obtain ⟨pieces, rest, hscans, hplace⟩ := exists_scans_of_lexical h
    obtain ⟨⟨behind, rfl⟩, hne, hblank⟩ := hscans.fault_text
    obtain ⟨left, right, habove, hquoted⟩ := hquotes.holds hscans.append.symm hplace hne hblank
    exact ⟨pieces, behind, left, right, hscans, habove, hquoted⟩
  | syntactic error =>
    obtain rfl := Option.some.inj hline
    intro hend
    rcases found_of_syntactic h with ⟨later, hdelivered⟩ | hfound
    · obtain ⟨pieces, rest, fault?, hscans, hpieces⟩ := exists_scans source.toList 1
      rw [Cursor.ofSource, hpieces] at hdelivered
      obtain ⟨before, piece, behind, rfl, hconsumed, htoken, hplace⟩ :=
        exists_piece_of_locatedTokens hdelivered
      obtain ⟨rest', htext, hstands⟩ := hscans.exists_stands_at
      have hread : piece.pattern.outcome piece.slice rest' ≠ .ok none := by
        rw [hstands.outcome, htoken]
        rintro ⟨⟩
      obtain ⟨left, right, habove, hquoted⟩ := hquotes.holds htext hplace
        hstands.stands.isMatch.ne_nil (hstands.stands.isBlank_eq_false hread)
      exact ⟨before, piece, behind, rest, fault?, left, right, hscans, hconsumed, htoken, habove,
        hquoted⟩
    · exact absurd (by rw [hfound]; rfl) hend

/-- **Diagnostics show the right line**: the wording, then the number of the line and what stands
there, with the text at fault as it is written. -/
theorem Report.diagnostic_shows_line {strict : Bool} {source : String} {failure : Failure}
    (h : (ofSource strict source).outcome = .error failure) :
    ∃ n above quoted blanks below, failure.line? = some n ∧ 1 ≤ n ∧
      n ≤ 1 + source.toList.count '\n' ∧ Quotes n source.toList above quoted blanks below ∧
      (failure.diagnostic source).toList.count '\n' = 1 ∧
      failure.diagnostic source =
        s!"erro:{n}: {failure.message}" ++ "\n" ++ s!"  {n} | {String.ofList quoted}" ∧
      failure.ShownIn source (ofSource strict source).consumed above quoted := by
  obtain ⟨n, hline, hpos, hle⟩ := exists_line h
  have hmessage := oneLine_message h
  obtain ⟨above, blanks, below, hquotes⟩ := exists_quotes hpos hle
  have hdiagnostic : failure.diagnostic source = s!"erro:{n}: {failure.message}" ++ "\n" ++
      s!"  {n} | {String.ofList (excerpt n source.toList)}" := by
    have hbreak : toString "\n  " = "\n" ++ toString "  " := by decide
    rw [Failure.diagnostic, hline]
    dsimp only
    rw [hbreak]
    simp only [String.append_assoc]
  refine ⟨n, above, _, blanks, below, hline, hpos, hle, hquotes, ?_, hdiagnostic,
    shownIn h hline hquotes⟩
  · have hquoted : OneLine (String.ofList (excerpt n source.toList)) := by
      rw [OneLine, String.toList_ofList]
      exact fun hmem => hquotes.oneLine (List.mem_append_left _ hmem)
    have hfirst : OneLine s!"erro:{n}: {failure.message}" := by
      simp +decide only [oneLine_append, oneLine_toString, oneLine_nat, hmessage]
    have hsecond : OneLine s!"  {n} | {String.ofList (excerpt n source.toList)}" := by
      simp +decide only [oneLine_append, oneLine_toString, oneLine_nat, hquoted]
    rw [hdiagnostic, String.toList_append, String.toList_append, List.count_append,
      List.count_append, List.count_eq_zero.mpr hfirst, List.count_eq_zero.mpr hsecond]
    decide

/-- The whole run of digits before a full stop is shown, on a line that ends with blanks. -/
theorem Report.diagnostic_shows_digits :
    let source := "program p;\r\ninicio x := 007. \r\nfim."
    let failure : Failure := .lexical ⟨.pointAfterNumber "007", 2⟩
    (ofSource false source).outcome = .error failure ∧
      ∃ quoted left right, failure.diagnostic source =
          s!"erro:2: {failure.message}" ++ "\n" ++ s!"  2 | {String.ofList quoted}" ∧
        quoted = left ++ ("007".toList ++ right) := by
  intro source failure
  have houtcome : (ofSource false source).outcome = .error failure :=
    outcome_of_map (by decide +kernel)
  obtain ⟨n, above, quoted, blanks, below, hline, -, -, -, -, hdiagnostic, hshown⟩ :=
    diagnostic_shows_line houtcome
  obtain rfl : 2 = n := Option.some.inj hline
  obtain ⟨_, _, left, right, -, -, hquoted⟩ := hshown
  exact ⟨houtcome, quoted, left, right, hdiagnostic, hquoted⟩

end LusoPascal
