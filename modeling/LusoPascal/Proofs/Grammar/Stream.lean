import LusoPascal.Compilation.Report
import LusoPascal.Proofs.Grammar.Mending

/-!
# A reader consumes the tokens of its text

Reading a program one token ahead and listing all tokens of the text see the same tokens, on the
same lines, and the same fault. What a reader consumes is the start of the list; where it stops
depends on how it ends.

* `Cursor.lastLine`: the line of the last character of a text, which no delivery changes;
* **`Cursor.fetches`**: what one delivery can be and what it leaves;
* `Span.delivered`: the list of tokens, cut at a delivery;
* `Delivery.parse_ok_or_failed`: how a reader can end;
* **`parse_follows_tokenize`**: the tokens consumed, the token found and the fault reported.
-/

namespace LusoPascal

/-! ## Lines -/

theorem newline_not_mem_of_spelling? {kind : TokenKind} {spelling : String}
    (h : kind.spelling? = some spelling) : '\n' ∉ spelling.toList := by
  cases kind <;> simp only [TokenKind.spelling?, Option.some.injEq, reduceCtorEq] at h <;>
    subst h <;> decide

theorem kind_ne_endOfInput_of_wordToken (run : List Char) :
    (wordToken run).kind ≠ .endOfInput := by
  unfold wordToken
  dsimp only
  split
  · exact TokenKind.noConfusion
  · next kind _ hlookup =>
    rcases spelling?_of_lookup hlookup with rfl | hspelling
    · exact TokenKind.noConfusion
    · intro hkind
      obtain rfl : kind = .endOfInput := hkind
      cases hspelling
  · exact TokenKind.noConfusion

theorem Reading.of_outcome_ok {text : List Char} {reading : Reading} {token : Token}
    (h : scan? text = some reading) (hok : reading.outcome = .ok token) :
    '\n' ∉ reading.text ∧ token.kind ≠ .endOfInput := by
  cases text with
  | nil => simp [scan?] at h
  | cons c text =>
    simp only [scan?] at h
    split at h
    · next hc =>
      obtain rfl := Option.some.inj h
      obtain rfl := Except.ok.inj hok
      have hword : IsWord (c :: text.takeWhile Char.isAlphanum) :=
        ⟨hc, fun d hd => List.mem_takeWhile_imp hd⟩
      exact ⟨fun hmem => absurd (hword.isAlphanum _ hmem) (by decide),
        kind_ne_endOfInput_of_wordToken _⟩
    · split at h
      · next hc =>
        obtain rfl := Option.some.inj h
        have hdigits : ∀ d ∈ c :: text.takeWhile Char.isDigit, d.isDigit = true :=
          List.forall_mem_cons.mpr ⟨hc, fun d hd => List.mem_takeWhile_imp hd⟩
        refine ⟨fun hmem => absurd (hdigits _ hmem) (by decide), ?_⟩
        dsimp only at hok
        rw [numberToken] at hok
        split at hok
        · cases hok
        · split at hok <;> cases hok
          exact TokenKind.noConfusion
      · split at h
        · next kind size hop =>
          obtain rfl := Option.some.inj h
          obtain rfl := Except.ok.inj hok
          have hspelling := spelling?_of_operator? hop
          have hnewline := newline_not_mem_of_spelling? hspelling
          rw [String.toList_ofList] at hnewline
          refine ⟨hnewline, fun hkind => ?_⟩
          obtain rfl : kind = .endOfInput := hkind
          cases hspelling
        · obtain rfl := Option.some.inj h
          cases hok

namespace Cursor

/-- The line of the end of a text. -/
def lastLine (cursor : Cursor) : Nat := cursor.line + cursor.rest.count '\n'

/-- What a cursor can deliver and what it leaves: the end of the text, over and over, or a token
with the rest of the text behind it, or a fault, behind which nothing more is fetched. -/
inductive Fetches (cursor : Cursor) : Except LexicalError Located × Cursor → Prop
  | finished (h : cursor.finished = true) :
      Fetches cursor (.ok ⟨.endOfInput, cursor.line⟩, cursor)
  | endOfInput (h : cursor.finished = false) :
      Fetches cursor (.ok ⟨.endOfInput, cursor.lastLine⟩, ⟨[], cursor.lastLine, true⟩)
  | token {token : Token} {line : Nat} {behind : Cursor} (h : cursor.finished = false)
      (hkind : token.kind ≠ .endOfInput) (hbehind : behind.finished = false)
      (hline : behind.lastLine = cursor.lastLine) (hrest : behind.rest <:+ cursor.rest) :
      Fetches cursor (.ok ⟨token, line⟩, behind)
  | fault {error : LexicalError} {behind : Cursor} (hbehind : behind.finished = true)
      (hrest : behind.rest <:+ cursor.rest) : Fetches cursor (.error error, behind)

/-- **Every delivery is of one of these shapes.** -/
theorem fetches (cursor : Cursor) : cursor.Fetches cursor.next := by
  obtain ⟨text, line, finished⟩ := cursor
  cases finished with
  | true => exact .finished rfl
  | false =>
    have hsplit := splitTrivia_append .between text
    rcases hbody : splitTrivia .between text with ⟨trivia, body⟩
    rw [hbody] at hsplit
    cases hscan : scan? body with
    | none =>
      obtain rfl := scan?_eq_none_iff.mp hscan
      have hline : (Cursor.mk text line false).lastLine = line + trivia.count '\n' := by
        rw [lastLine, ← hsplit, List.append_nil]
      rw [next_eq_end hbody, ← hline]
      exact .endOfInput rfl
    | some reading =>
      have htext := Reading.text_append_rest hscan
      obtain ⟨outcome, chars, rest⟩ := reading
      have hrest : rest <:+ text := by
        rw [← hsplit, ← htext]
        exact (List.suffix_append _ _).trans (List.suffix_append _ _)
      cases outcome with
      | error fault =>
        rw [next_eq_error hbody hscan]
        exact .fault rfl hrest
      | ok token =>
        obtain ⟨hnewline, hkind⟩ := Reading.of_outcome_ok hscan rfl
        have hcount := List.count_eq_zero.mpr hnewline
        rw [next_eq_ok hbody hscan]
        refine .token rfl hkind rfl ?_ hrest
        rw [lastLine, lastLine, ← hsplit, ← htext, List.count_append, List.count_append]
        dsimp only at hcount ⊢
        omega

variable {cursor : Cursor} {located : Located}

theorem lastLine_next (h : cursor.next.1 = .ok located) (hend : located.token.kind ≠ .endOfInput) :
    cursor.next.2.lastLine = cursor.lastLine ∧ cursor.next.2.finished = false := by
  have hfetches := cursor.fetches
  generalize cursor.next = fetched at h hfetches ⊢
  cases hfetches with
  | finished | endOfInput => cases h; exact absurd rfl hend
  | token _ _ hbehind hline => exact ⟨hline, hbehind⟩
  | fault => cases h

theorem line_of_end (hfinished : cursor.finished = false) (h : cursor.next.1 = .ok located)
    (hend : located.token.kind = .endOfInput) : located = ⟨.endOfInput, cursor.lastLine⟩ := by
  have hfetches := cursor.fetches
  generalize cursor.next = fetched at h hfetches
  cases hfetches with
  | finished hfinished' => rw [hfinished] at hfinished'; cases hfinished'
  | endOfInput => exact (Except.ok.inj h).symm
  | token _ hkind => cases h; exact absurd hend hkind
  | fault => cases h

/-- Behind the end of the text and behind a fault nothing is left. -/
theorem finished_next (h : ∀ located, cursor.next.1 = .ok located →
    located.token.kind = .endOfInput) : cursor.next.2.finished = true := by
  have hfetches := cursor.fetches
  generalize cursor.next = fetched at h hfetches ⊢
  cases hfetches with
  | finished hfinished => exact hfinished
  | endOfInput => rfl
  | token _ hkind => exact absurd (h _ rfl) hkind
  | fault hbehind => exact hbehind

theorem rest_next_suffix (cursor : Cursor) : cursor.next.2.rest <:+ cursor.rest := by
  have hfetches := cursor.fetches
  generalize cursor.next = fetched at hfetches ⊢
  cases hfetches with
  | finished => exact List.suffix_refl _
  | endOfInput => exact List.nil_suffix
  | token _ _ _ _ hrest | fault _ hrest => exact hrest

end Cursor

/-! ## The list of tokens, cut at a delivery -/

namespace Delivery

variable {d e : Delivery} {w : List Delivery}

theorem delivered_of_ne_end (h : d.kind ≠ .endOfInput) :
    d.before.delivered = (d.located :: d.behind.delivered.1, d.behind.delivered.2) := by
  rw [Cursor.delivered_eq, d.next_before]
  exact if_neg h

theorem delivered_of_end (h : d.kind = .endOfInput) : d.before.delivered = ([], none) := by
  rw [Cursor.delivered_eq, d.next_before]
  exact if_pos h

theorem delivered_of_error {cursor : Cursor} {error : LexicalError}
    (h : cursor.next.1 = .error error) : cursor.delivered = ([], some error) := by
  rw [Cursor.delivered_eq, show cursor.next = (.error error, cursor.next.2) from Prod.ext h rfl]

/-- **The tokens of a span come first**, then what is delivered behind it. -/
theorem Span.delivered (h : Span d w e) (hw : ∀ c ∈ w, c.kind ≠ .endOfInput) :
    d.before.delivered = (w.map located ++ e.before.delivered.1, e.before.delivered.2) := by
  induction h with
  | nil => rfl
  | cons hlink _ ih =>
    rw [List.forall_mem_cons] at hw
    rw [delivered_of_ne_end hw.1, ← hlink, ih hw.2]
    rfl

theorem Span.located_of_end (h : Span d w e) (hw : ∀ c ∈ w, c.kind ≠ .endOfInput)
    (hfinished : d.before.finished = false) (he : e.kind = .endOfInput) :
    e.located = ⟨.endOfInput, d.before.lastLine⟩ := by
  induction h with
  | nil d => exact Cursor.line_of_end hfinished d.delivers he
  | @cons d f e w hlink _ ih =>
    rw [List.forall_mem_cons] at hw
    obtain ⟨hline, hfinished'⟩ := Cursor.lastLine_next d.delivers hw.1
    rw [ih hw.2 (by rw [hlink]; exact hfinished') he, hlink]
    exact congrArg (Located.mk Token.endOfInput) hline

theorem toList_logged (log : Array Located) (w : List Delivery) :
    (logged log w).toList = log.toList ++ w.map located := by
  induction w generalizing log with
  | nil => rw [logged_nil, List.map_nil, List.append_nil]
  | cons c w ih => rw [logged_cons, ih, Array.toList_push, List.append_assoc]; rfl

theorem size_logged (log : Array Located) (w : List Delivery) :
    (logged log w).size = log.size + w.length := by
  rw [← Array.length_toList, toList_logged, List.length_append, List.length_map,
    Array.length_toList]

end Delivery

/-! ## How a reader ends -/

theorem Reader.ofSource_eq_ok_iff {source : String} {reader : Reader} :
    ofSource source = .ok reader ↔
      ∃ d : Delivery, d.before = Cursor.ofSource source ∧ reader = d.reader #[] := by
  rw [ofSource, ofCursor]
  constructor
  · intro h
    split at h
    · next ahead behind hnext =>
      obtain rfl := Except.ok.inj h
      have hbehind : (Cursor.ofSource source).next.2 = behind := congrArg Prod.snd hnext
      refine ⟨⟨Cursor.ofSource source, ahead, congrArg Prod.fst hnext⟩, rfl, ?_⟩
      change _ = Reader.mk ahead (Cursor.ofSource source).next.2 #[]
      rw [hbehind]
    · cases h
  · rintro ⟨d, hd, rfl⟩
    rw [← hd, d.next_before]
    rfl

theorem Reader.ofSource_eq_error_iff {source : String} {error : LexicalError} :
    ofSource source = .error error ↔ (Cursor.ofSource source).next.1 = .error error := by
  rw [ofSource, ofCursor]
  constructor
  · intro h
    split at h
    · cases h
    · next hnext =>
      obtain rfl := Except.error.inj h
      exact congrArg Prod.fst hnext
  · intro h
    rw [show (Cursor.ofSource source).next = (.error error, (Cursor.ofSource source).next.2) from
      Prod.ext h rfl]

namespace Delivery

open Production

/-- The budget of a reader is above the number of tokens left. -/
theorem remaining_lt_budget (d : Delivery) (log : Array Located) :
    d.remaining < (d.reader log).budget := by
  have hle := Cursor.length_trail_le d.behind
  have hrest : (d.reader log).budget = d.behind.rest.length + 3 := rfl
  rw [hrest, remaining]
  by_cases hd : d.kind = .endOfInput
  · rw [trail_of_end hd, List.length_nil]
    omega
  · rw [trail_of_ne_end hd, List.length_cons]
    omega

/-- **A reader ends with a program, or it fails as the rule for programs says.** Its budget is never
spent. -/
theorem parse_ok_or_failed (d : Delivery) (log : Array Located) :
    (∃ program w e, (d.reader log).parse = (.ok program, e.reader (logged log w)) ∧
      Span d w e ∧ Agreeing DerivesProgram Program.NearestElse w program) ∨
    ∃ error behind, (d.reader log).parse = (.error error, behind) ∧
      program (d.reader log).budget (d.reader log) = .error (.rejected error) behind ∧
      Failed d log (fun w => ∃ program leaders, DerivesProgram w program leaders)
        (.rejected error) behind := by
  rw [Reader.parse]
  cases hrun : program (d.reader log).budget (d.reader log) with
  | ok p behind =>
    obtain ⟨w, e, rfl, hspan, hw⟩ := program_sound _ d hrun
    exact .inl ⟨p, w, e, rfl, hspan, hw⟩
  | error halt behind =>
    have hfailed := program_fails (d.remaining_lt_budget log) hrun
    cases halt with
    | spent => cases hfailed
    | rejected error => exact .inr ⟨error, behind, rfl, rfl, hfailed⟩

end Delivery

/-! ## The tokens consumed and the tokens listed -/

namespace Production

open Delivery

variable {d : Delivery} {Rule : List Delivery → Prop} {behind : Reader}

/-- What is consumed before a token is rejected comes first in the list of tokens, and then comes the
rejected token, or the end of the text on the last line. -/
theorem Failed.delivered_of_syntactic {error : SyntaxError}
    (h : Failed d #[] Rule (.rejected (.syntactic error)) behind)
    (hfinished : d.before.finished = false) :
    (∃ later, d.before.delivered.1 = behind.consumed.toList ++ error.found :: later) ∨
      d.before.delivered = (behind.consumed.toList, none) ∧
        error.found = ⟨.endOfInput, d.before.lastLine⟩ := by
  cases h with
  | @syntactic w e defect hspan hw hmend =>
    have hconsumed : (e.reader (logged #[] w)).consumed.toList = w.map located :=
      toList_logged #[] w
    rw [hconsumed, hspan.delivered hw]
    by_cases he : e.kind = .endOfInput
    · rw [delivered_of_end he, List.append_nil]
      exact .inr ⟨rfl, hspan.located_of_end hw hfinished he⟩
    · rw [delivered_of_ne_end he]
      exact .inl ⟨_, rfl⟩

theorem Failed.delivered_of_lexical {error : LexicalError}
    (h : Failed d #[] Rule (.rejected (.lexical error)) behind) :
    d.before.delivered = (behind.consumed.toList, some error) := by
  cases h with
  | @lexical w last error hspan hw hfault =>
    rw [List.forall_mem_append] at hw
    have hlast : last.kind ≠ .endOfInput := hw.2 last (List.mem_singleton_self last)
    rw [hspan.delivered hw.1, delivered_of_ne_end hlast, delivered_of_error hfault]
    dsimp only
    rw [toList_logged, List.map_append]
    rfl

end Production

theorem DerivesProgram.exists_dot {w l : List Delivery} {program : Program}
    (h : DerivesProgram w program l) :
    ∃ v t, w = v ++ [t] ∧ t.kind = .dot ∧ ∀ c ∈ v, c.kind ≠ .dot := by
  cases h with
  | @intro p n s t v _ _ hp hn hs hw ht =>
    refine ⟨p :: n :: s :: v, t, rfl, ht, ?_⟩
    have hinner := hw.inner
    grind [Delivery.IsInner]

/-- A compilation ends as reading does, or else as the analysis does. -/
theorem Report.outcome_eq (strict : Bool) (source : String) :
    (Report.ofSource strict source).outcome =
      match Program.ofSource source with
      | .error error => .error error.toFailure
      | .ok program =>
        ((program.analyze strict .initial).1.mapError .semantic).map fun _ => program := by
  rw [Report.ofSource, Program.ofSource]
  cases Reader.ofSource source with
  | error error => rfl
  | ok reader =>
    dsimp only
    rcases reader.parse with ⟨_ | _, _⟩ <;> rfl

theorem Report.outcome_lexical_iff {strict : Bool} {source : String} {error : LexicalError} :
    (Report.ofSource strict source).outcome = .error (.lexical error) ↔
      Program.ofSource source = .error (.lexical error) := by
  rw [Report.outcome_eq]
  rcases Program.ofSource source with error' | program
  · cases error' <;> simp [ParseError.toFailure]
  · dsimp only
    rcases (program.analyze strict .initial).1 with _ | _ <;> simp [Except.mapError, Except.map]

theorem tokenize_eq (source : String) :
    tokenize source = match (Cursor.ofSource source).delivered.2 with
      | none => .ok (Cursor.ofSource source).delivered.1
      | some error => .error error := by
  rw [tokenize]
  rcases (Cursor.ofSource source).delivered with ⟨tokens, _ | error⟩ <;> rfl

/-- What a reader of a text consumes, by how it ends. -/
theorem Delivery.consumed_of_parse {d : Delivery} {source : String}
    (hd : d.before = Cursor.ofSource source) :
    match (d.reader #[]).parse with
    | (.ok _, behind) => ∃ first dot later,
      (Cursor.ofSource source).delivered.1 = first ++ dot :: later ∧ dot.token.kind = .dot ∧
        (∀ token ∈ first, token.token.kind ≠ .dot) ∧ behind.consumed.toList = first ++ [dot]
    | (.error (.syntactic error), behind) =>
      (∃ later, (Cursor.ofSource source).delivered.1 =
        behind.consumed.toList ++ error.found :: later) ∨
      (Cursor.ofSource source).delivered = (behind.consumed.toList, none) ∧
        error.found = ⟨.endOfInput, 1 + source.toList.count '\n'⟩
    | (.error (.lexical error), behind) =>
      (Cursor.ofSource source).delivered = (behind.consumed.toList, some error) := by
  have hfinished : d.before.finished = false := by rw [hd]; rfl
  have hline : d.before.lastLine = 1 + source.toList.count '\n' := by rw [hd]; rfl
  rw [← hd, ← hline]
  rcases d.parse_ok_or_failed #[] with
    ⟨program, w, e, hrun, hspan, l, hw, -⟩ | ⟨error, behind, hrun, -, hfailed⟩
  · rw [hrun]
    have hconsumed : (e.reader (logged #[] w)).consumed.toList = w.map located :=
      toList_logged #[] w
    obtain ⟨v, t, rfl, ht, hv⟩ := hw.exists_dot
    refine ⟨v.map located, t.located, e.before.delivered.1, ?_, ht, ?_, ?_⟩
    · rw [hspan.delivered hw.ne_endOfInput, List.map_append, List.append_assoc]
      rfl
    · exact List.forall_mem_map.mpr hv
    · rw [hconsumed, List.map_append]
      rfl
  · rw [hrun]
    cases error with
    | syntactic error => exact hfailed.delivered_of_syntactic hfinished
    | lexical error => exact hfailed.delivered_of_lexical

theorem Program.tokenize_of_lexical {source : String} {error : LexicalError}
    (h : Program.ofSource source = .error (.lexical error)) : tokenize source = .error error := by
  rw [Program.ofSource] at h
  rw [tokenize_eq]
  cases hreader : Reader.ofSource source with
  | error error' =>
    rw [hreader] at h
    obtain rfl := ParseError.lexical.inj (Except.error.inj h)
    rw [Delivery.delivered_of_error (Reader.ofSource_eq_error_iff.mp hreader)]
  | ok reader =>
    obtain ⟨d, hd, rfl⟩ := Reader.ofSource_eq_ok_iff.mp hreader
    have hconsumed := Delivery.consumed_of_parse hd
    rw [hreader] at h
    rw [show (d.reader #[]).parse = (.error (.lexical error), (d.reader #[]).parse.2) from
      Prod.ext h rfl] at hconsumed
    rw [hconsumed]

/-- **Reading a program and listing the tokens of its text see the same tokens and the same fault**,
a program through its first full stop. -/
theorem parse_follows_tokenize (source : String) :
    let tokens := (Cursor.ofSource source).delivered.1
    (tokenize source = match (Cursor.ofSource source).delivered.2 with
      | none => .ok tokens
      | some error => .error error) ∧
    (match Reader.ofSource source with
      | .error error => tokenize source = .error error ∧ tokens = []
      | .ok reader =>
        match reader.parse with
        | (.ok _, behind) => ∃ first dot later, tokens = first ++ dot :: later ∧
          dot.token.kind = .dot ∧ (∀ token ∈ first, token.token.kind ≠ .dot) ∧
          behind.consumed.toList = first ++ [dot]
        | (.error (.syntactic error), behind) =>
          (∃ later, tokens = behind.consumed.toList ++ error.found :: later) ∨
          tokenize source = .ok tokens ∧ tokens = behind.consumed.toList ∧
            error.found = ⟨.endOfInput, 1 + source.toList.count '\n'⟩
        | (.error (.lexical error), behind) =>
          tokenize source = .error error ∧ tokens = behind.consumed.toList) ∧
    (∀ error, Program.ofSource source = .error (.lexical error) →
      tokenize source = .error error ∧
      (Program.ofSource source).mapError ParseError.toFailure = .error (.lexical error)) ∧
    (∀ strict error, (Report.ofSource strict source).outcome = .error (.lexical error) ↔
      Program.ofSource source = .error (.lexical error)) ∧
    ∀ listed, tokenize source = .ok listed → ∀ strict error,
      Program.ofSource source ≠ .error (.lexical error) ∧
      (Report.ofSource strict source).outcome ≠ .error (.lexical error) := by
  intro tokens
  refine ⟨tokenize_eq source, ?_, fun error h => ⟨Program.tokenize_of_lexical h, by rw [h]; rfl⟩,
    fun strict error => Report.outcome_lexical_iff, fun listed hlisted strict error => ?_⟩
  · cases hreader : Reader.ofSource source with
    | error error =>
      have herror := Delivery.delivered_of_error (Reader.ofSource_eq_error_iff.mp hreader)
      exact ⟨by rw [tokenize_eq, herror], congrArg Prod.fst herror⟩
    | ok reader =>
      obtain ⟨d, hd, rfl⟩ := Reader.ofSource_eq_ok_iff.mp hreader
      have hconsumed := Delivery.consumed_of_parse hd
      dsimp only
      rcases hrun : (d.reader #[]).parse with ⟨(error | error) | program, behind⟩ <;>
        rw [hrun] at hconsumed
      · exact ⟨by rw [tokenize_eq, hconsumed], congrArg Prod.fst hconsumed⟩
      · refine hconsumed.imp_right fun ⟨hall, hfound⟩ => ?_
        have htokens : tokens = behind.consumed.toList := congrArg Prod.fst hall
        exact ⟨by rw [htokens, tokenize_eq, hall], htokens, hfound⟩
      · exact hconsumed
  · have hread : Program.ofSource source ≠ .error (.lexical error) := by
      intro h
      have herror := Program.tokenize_of_lexical h
      rw [hlisted] at herror
      cases herror
    exact ⟨hread, fun h => hread (Report.outcome_lexical_iff.mp h)⟩

end LusoPascal
