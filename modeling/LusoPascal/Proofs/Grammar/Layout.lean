import LusoPascal.Proofs.Analysis.Relabelling
import LusoPascal.Proofs.Grammar.Mirroring
import LusoPascal.Proofs.Grammar.Stream

/-!
# Layout decides nothing

Two texts may hold the same tokens on different lines, with different comments and blanks between
them. As long as the raw characters behind their identifiers announce the same assignments, both are
compiled alike: into the same program, or with the same error, up to lines.

* `Cursor.SameTokens`: two cursors that deliver the same tokens, announcements and end;
* `Cursor.SameTokens.alike`: then their first deliveries are alike for ever;
* `Program.ofSource_eq_of_sameTokens`: both texts are read alike;
* **`Report.outcome_eq_of_sameTokens`**: and compiled alike.
-/

namespace LusoPascal

/-! ## The same tokens -/

/-- An identifier behind which the raw character announces an assignment. -/
def Delivery.announces (d : Delivery) : Bool := d.kind == .identifier && d.rawAssign

/-- Two cursors deliver the same tokens up to lines, they end alike, and behind corresponding
identifiers the raw characters say the same. -/
structure Cursor.SameTokens (cursor cursor' : Cursor) : Prop where
  tokens : cursor.delivered.1.map Located.token = cursor'.delivered.1.map Located.token
  fault : cursor.delivered.2.map LexicalError.fault = cursor'.delivered.2.map LexicalError.fault
  announced : cursor.trail.map Delivery.announces = cursor'.trail.map Delivery.announces

namespace Delivery

variable {d : Delivery}

theorem token_of_end (h : d.kind = .endOfInput) : d.token = .endOfInput := by
  have hgenuine := d.genuine
  rw [kind] at h
  generalize d.token = token at h hgenuine
  cases hgenuine with
  | fixed hs => subst h; cases hs
  | endOfInput => rfl
  | identifier | integer | boolean => cases h

theorem exists_behind_of_end (h : d.kind = .endOfInput) :
    ∃ e : Delivery, e.before = d.behind ∧ e.kind = .endOfInput := by
  have hfinished : d.behind.finished = true :=
    Cursor.finished_next fun _ hok => Except.ok.inj (d.delivers.symm.trans hok) ▸ h
  have hnext := Cursor.next_of_finished hfinished
  exact ⟨⟨d.behind, _, congrArg Prod.fst hnext⟩, rfl, rfl⟩

end Delivery

namespace Cursor.SameTokens

open Delivery

variable {cursor cursor' : Cursor} {d d' : Delivery}

theorem symm (h : cursor.SameTokens cursor') : cursor'.SameTokens cursor :=
  ⟨h.tokens.symm, h.fault.symm, h.announced.symm⟩

theorem of_ends (h : d.kind = .endOfInput) (h' : d'.kind = .endOfInput) :
    d.before.SameTokens d'.before := by
  constructor
  · rw [delivered_of_end h, delivered_of_end h']
  · rw [delivered_of_end h, delivered_of_end h']
  · rw [trail_of_end h, trail_of_end h']

theorem next_error (h : cursor.SameTokens cursor') {error : LexicalError}
    (herror : cursor.next.1 = .error error) :
    ∃ error', cursor'.next.1 = .error error' ∧ error.fault = error'.fault := by
  have htokens := h.tokens
  have hfault := h.fault
  rw [delivered_of_error herror] at htokens hfault
  cases hnext : cursor'.next.1 with
  | error error' =>
    rw [delivered_of_error hnext] at hfault
    exact ⟨error', rfl, Option.some.inj hfault⟩
  | ok located =>
    let d' : Delivery := ⟨cursor', located, hnext⟩
    change [] = d'.before.delivered.1.map _ at htokens
    change _ = d'.before.delivered.2.map _ at hfault
    by_cases hend : d'.kind = .endOfInput
    · rw [delivered_of_end hend] at hfault
      cases hfault
    · rw [delivered_of_ne_end hend] at htokens
      cases htokens

theorem exists_delivery (h : d.before.SameTokens cursor') :
    ∃ d' : Delivery, d'.before = cursor' := by
  cases hnext : cursor'.next.1 with
  | ok located => exact ⟨⟨cursor', located, hnext⟩, rfl⟩
  | error error =>
    obtain ⟨_, herror, -⟩ := h.symm.next_error hnext
    rw [d.delivers] at herror
    cases herror

theorem kind_eq_end (h : d.before.SameTokens d'.before) (hend : d.kind = .endOfInput) :
    d'.kind = .endOfInput := by
  by_contra hend'
  have htokens := h.tokens
  rw [delivered_of_end hend, delivered_of_ne_end hend'] at htokens
  cases htokens

/-- **The first deliveries are alike**, and behind them the same tokens follow. -/
theorem cons (h : d.before.SameTokens d'.before) :
    d.token = d'.token ∧ (d.kind = .identifier → d.rawAssign = d'.rawAssign) ∧
      d.behind.SameTokens d'.behind := by
  by_cases hend : d.kind = .endOfInput
  · have hend' := h.kind_eq_end hend
    obtain ⟨e, he, hekind⟩ := exists_behind_of_end hend
    obtain ⟨e', he', hekind'⟩ := exists_behind_of_end hend'
    refine ⟨by rw [token_of_end hend, token_of_end hend'], fun hkind => ?_,
      he ▸ he' ▸ of_ends hekind hekind'⟩
    rw [hend] at hkind
    cases hkind
  · have hend' : d'.kind ≠ .endOfInput := fun hend' => hend (h.symm.kind_eq_end hend')
    have htokens := h.tokens
    have hfault := h.fault
    have hannounced := h.announced
    rw [delivered_of_ne_end hend, delivered_of_ne_end hend'] at htokens hfault
    rw [trail_of_ne_end hend, trail_of_ne_end hend'] at hannounced
    obtain ⟨htoken, htokens⟩ := List.cons.inj htokens
    obtain ⟨hannounces, hannounced⟩ := List.cons.inj hannounced
    refine ⟨htoken, fun hkind => ?_, htokens, hfault, hannounced⟩
    have hkind' : d'.kind = .identifier := (congrArg Token.kind htoken).symm.trans hkind
    rwa [announces, announces, hkind, hkind'] at hannounces

/-- **Then the deliveries are alike for ever**, since the end of the text repeats itself. -/
theorem alike (h : d.before.SameTokens d'.before) (n : Nat) : Alike n d d' := by
  induction n generalizing d d' with
  | zero => exact .ahead h.cons.1
  | succ n ih =>
    obtain ⟨htoken, hraw, hbehind⟩ := h.cons
    cases hnext : d.behind.next.1 with
    | error error =>
      obtain ⟨error', hnext', hfault⟩ := hbehind.next_error hnext
      exact .fault htoken hraw hnext hnext' hfault
    | ok located =>
      let e : Delivery := ⟨d.behind, located, hnext⟩
      obtain ⟨e', he'⟩ := SameTokens.exists_delivery (d := e) hbehind
      exact .more htoken hraw (e := e) rfl he' (ih (by rw [he']; exact hbehind))

end Cursor.SameTokens

/-! ## Reading -/

/-- An error on a given line. -/
def ParseError.onLine (line : Nat) : ParseError → ParseError
  | lexical error => lexical ⟨error.fault, line⟩
  | syntactic error => syntactic ⟨error.defect, error.found.token, line⟩

/-- A failure on a given line. -/
def Failure.onLine (line : Nat) : Failure → Failure
  | input error => input error
  | lexical error => lexical ⟨error.fault, line⟩
  | syntactic error => syntactic ⟨error.defect, error.found.token, line⟩
  | semantic error => semantic ⟨error.violation, line⟩

theorem ParseError.toFailure_onLine (line : Nat) (error : ParseError) :
    (error.onLine line).toFailure = error.toFailure.onLine line := by
  cases error <;> rfl

theorem Delivery.program_ne_spent (d : Delivery) (log : Array Located) (behind : Reader) :
    Production.program (d.reader log).budget (d.reader log) ≠ .error .spent behind := by
  intro hrun
  cases Production.program_fails (d.remaining_lt_budget log) hrun

/-- **Readers of the same tokens end alike.** -/
theorem Delivery.parse_eq_of_sameTokens {d d' : Delivery} (h : d.before.SameTokens d'.before) :
    ((d.reader #[]).parse.1.map (Program.onLine 1)).mapError (ParseError.onLine 1) =
      ((d'.reader #[]).parse.1.map (Program.onLine 1)).mapError (ParseError.onLine 1) := by
  have hspent := d.program_ne_spent #[]
  have hspent' := d'.program_ne_spent #[]
  have hmatch := (Production.program_mirrors (d.reader #[]).budget (d'.reader #[]).budget).runs
    (h.alike _) #[] #[] (Nat.zero_add _).ge
  rw [Reader.parse, Reader.parse]
  generalize Production.program _ (d.reader #[]) = result at hmatch hspent ⊢
  generalize Production.program _ (d'.reader #[]) = result' at hmatch hspent' ⊢
  cases hmatch with
  | ok hview => exact congrArg Except.ok hview
  | syntactic hfound => simp [Except.map, Except.mapError, ParseError.onLine, hfound]
  | lexical hfault => simp [Except.map, Except.mapError, ParseError.onLine, hfault]
  | spent_left => exact absurd rfl (hspent _)
  | spent_right => exact absurd rfl (hspent' _)

/-- **Texts that hold the same tokens are read alike.** -/
theorem Program.ofSource_eq_of_sameTokens {source source' : String}
    (h : (Cursor.ofSource source).SameTokens (Cursor.ofSource source')) :
    ((ofSource source).map (onLine 1)).mapError (ParseError.onLine 1) =
      ((ofSource source').map (onLine 1)).mapError (ParseError.onLine 1) := by
  rw [ofSource, ofSource]
  cases hreader : Reader.ofSource source with
  | error error =>
    obtain ⟨error', hnext', hfault⟩ := h.next_error (Reader.ofSource_eq_error_iff.mp hreader)
    rw [Reader.ofSource_eq_error_iff.mpr hnext']
    simp [Except.map, Except.mapError, ParseError.onLine, hfault]
  | ok reader =>
    obtain ⟨d, hd, rfl⟩ := Reader.ofSource_eq_ok_iff.mp hreader
    rw [← hd] at h
    obtain ⟨d', hd'⟩ := h.exists_delivery
    rw [Reader.ofSource_eq_ok_iff.mpr ⟨d', hd', rfl⟩]
    rw [← hd'] at h
    exact Delivery.parse_eq_of_sameTokens h

/-! ## Compiling -/

/-- Programs that are the same up to lines are analysed alike. -/
theorem Program.analyze_eq_of_onLine {program program' : Program}
    (h : program.onLine 1 = program'.onLine 1) (strict : Bool) :
    (program.analyze strict .initial).1.mapError (SemanticError.reline fun _ => 1) =
      (program'.analyze strict .initial).1.mapError (SemanticError.reline fun _ => 1) := by
  rw [← analyze_reline, ← analyze_reline, reline_const, reline_const, h]

/-- **Layout decides nothing**: texts with the same tokens, the same end and the same assignments
announced are compiled alike, up to lines. -/
theorem Report.outcome_eq_of_sameTokens {source source' : String}
    (h : (Cursor.ofSource source).SameTokens (Cursor.ofSource source')) (strict : Bool) :
    ((ofSource strict source).outcome.map (Program.onLine 1)).mapError (Failure.onLine 1) =
      ((ofSource strict source').outcome.map (Program.onLine 1)).mapError (Failure.onLine 1) := by
  have hread := Program.ofSource_eq_of_sameTokens h
  rw [outcome_eq, outcome_eq]
  generalize Program.ofSource source = read at hread ⊢
  generalize Program.ofSource source' = read' at hread ⊢
  rcases read with error | program <;> rcases read' with error' | program'
  · have herror : error.toFailure.onLine 1 = error'.toFailure.onLine 1 := by
      rw [← ParseError.toFailure_onLine, ← ParseError.toFailure_onLine, Except.error.inj hread]
    exact congrArg Except.error herror
  · cases hread
  · cases hread
  · have hprogram : program.onLine 1 = program'.onLine 1 := Except.ok.inj hread
    have hanalysis := Program.analyze_eq_of_onLine hprogram strict
    dsimp only
    generalize (program.analyze strict .initial).1 = result at hanalysis ⊢
    generalize (program'.analyze strict .initial).1 = result' at hanalysis ⊢
    rcases result with error | _ <;> rcases result' with error' | _
    · exact congrArg (fun error : SemanticError => Except.error (Failure.semantic error))
        (Except.error.inj hanalysis)
    · cases hanalysis
    · cases hanalysis
    · exact congrArg Except.ok hprogram

/-- A line comment and other line breaks leave a program as it is. -/
theorem Report.outcome_eq_of_line_breaks :
    let source := "program p; inteiro x; inicio x := 1 fim."
    let source' := "program p;\ninteiro x; // total\ninicio\n  x:= 1\nfim.\n"
    (Cursor.ofSource source).SameTokens (Cursor.ofSource source') ∧
      ((ofSource true source).outcome.map (Program.onLine 1)).mapError (Failure.onLine 1) =
        ((ofSource true source').outcome.map (Program.onLine 1)).mapError (Failure.onLine 1) := by
  intro source source'
  have h : (Cursor.ofSource source).SameTokens (Cursor.ofSource source') := by
    constructor <;> decide +kernel
  exact ⟨h, outcome_eq_of_sameTokens h true⟩

end LusoPascal
