import LusoPascal.Proofs.Analysis.BuiltinTypes
import LusoPascal.Proofs.Token.Segmentation

/-!
# Where semantic errors point

A semantic error is reported on the line where a node of the tree begins. A reference, a call and a
declared variable begin with the name that the error is about. A procedure begins with the word
`procedimento`, one token before its name. An argument leaves no line in the tree, so an error about
it is reported on the line of the call.

* `Passes`, `SemanticError.PointsInto`: what the tokens show on the line of an error;
* `Blames`: an analyzer whose errors point into the tokens of some deliveries;
* **`DerivesStatement.blames`**, **`DerivesBlock.blames`**: the parts of a program;
* **`Report.semantic_error_points`**: for all texts.
-/

namespace LusoPascal

open Delivery

/-! ## What tokens show -/

/-- An identifier on a line. -/
def Located.name (name : String) (line : Nat) : Located := ⟨⟨.identifier, .text name⟩, line⟩

theorem Delivery.located_of_identifier {d : Delivery} (hd : d.kind = .identifier) :
    d.located = .name d.token.text d.line := by
  obtain ⟨name, -, htoken⟩ := d.genuine.name_of_kind hd
  have hlocated : d.located = ⟨d.token, d.line⟩ := rfl
  rw [hlocated, htoken]
  rfl

/-- An identifier of the tree stands among some deliveries. -/
def Identifier.In (ident : Identifier) (w : List Delivery) : Prop :=
  .name ident.name ident.line ∈ w.map located

theorem Identifier.In.within {ident : Identifier} {v w : List Delivery} (h : ident.In v)
    (hvw : v <:+: w) : ident.In w := (hvw.map located).subset h

theorem Delivery.identifier_in {d : Delivery} (hd : d.kind = .identifier) (w : List Delivery) :
    d.identifier.In (d :: w) :=
  List.mem_map.mpr ⟨d, List.mem_cons_self, located_of_identifier hd⟩

/-- On a line an identifier begins, and behind it stands a list of names in parentheses; one of them
is the given argument. -/
def Passes (tokens : List Located) (line : Nat) (procedure argument : String) : Prop :=
  ∃ opening names closing, .name procedure line :: opening :: (names ++ [closing]) <:+: tokens ∧
    opening.token.kind = .leftParen ∧ closing.token.kind = .rightParen ∧
    (∀ located ∈ names, located.token.kind ∈ [.identifier, .comma]) ∧
    ∃ there, .name argument there ∈ names

/-- What the tokens show on the line of an error. -/
def SemanticError.PointsInto (strict : Bool) (tokens : List Located) (error : SemanticError) :
    Prop :=
  match error.violation with
  | .redeclaredVariable name | .unknownProcedure name | .notProcedure name
  | .argumentCount name _ _ => .name name error.line ∈ tokens
  | .redeclaredProcedure name => ∃ word there, word.token.kind = .procedimento ∧
      word.line = error.line ∧ [word, .name name there] <:+: tokens
  | .unknownVariable name => .name name error.line ∈ tokens ∨
      strict = true ∧ ∃ procedure, Passes tokens error.line procedure name
  | .argumentType procedure argument _ _ | .argumentNotVariable procedure argument =>
    strict = true ∧ Passes tokens error.line procedure argument
  | .unknownType _ => False

theorem Passes.mono {tokens more : List Located} {line : Nat} {procedure argument : String}
    (h : Passes tokens line procedure argument) (hmore : tokens <:+: more) :
    Passes more line procedure argument := by
  obtain ⟨opening, names, closing, hinfix, hrest⟩ := h
  exact ⟨opening, names, closing, hinfix.trans hmore, hrest⟩

theorem SemanticError.PointsInto.mono {strict : Bool} {tokens more : List Located}
    {error : SemanticError} (h : error.PointsInto strict tokens) (hmore : tokens <:+: more) :
    error.PointsInto strict more := by
  obtain ⟨violation, line⟩ := error
  cases violation with
  | redeclaredVariable | unknownProcedure | notProcedure | argumentCount => exact hmore.subset h
  | redeclaredProcedure =>
    obtain ⟨word, there, hkind, hline, hinfix⟩ := h
    exact ⟨word, there, hkind, hline, hinfix.trans hmore⟩
  | unknownVariable =>
    rcases h with hname | ⟨hstrict, procedure, hpasses⟩
    · exact .inl (hmore.subset hname)
    · exact .inr ⟨hstrict, procedure, hpasses.mono hmore⟩
  | argumentType | argumentNotVariable => exact ⟨h.1, h.2.mono hmore⟩
  | unknownType => exact h

/-! ## Analyzers -/

namespace Analyzer

variable {α β : Type} {strict : Bool} {v w : List Delivery}

/-- Whatever an analyzer finds wrong, save with types, points into the tokens of some deliveries. -/
def Blames (strict : Bool) (w : List Delivery) (p : Analyzer α) : Prop :=
  ∀ before, Meets p before (fun _ _ => True) fun error _ =>
    (∃ name, error.violation = .unknownType name) ∨ error.PointsInto strict (w.map located)

namespace Blames

variable {p : Analyzer α} {q : α → Analyzer β}

theorem bind (hp : Blames strict w p) (hq : ∀ a, Blames strict w (q a)) :
    Blames strict w (p >>= q) := fun before => (hp before).bind fun a between _ => hq a between

theorem within (h : Blames strict v p) (hvw : v <:+: w) : Blames strict w p := fun before =>
  (h before).mono (fun _ _ => id) fun _ _ => .imp_right fun h => h.mono (hvw.map located)

theorem fail {violation : Violation} {line : Nat}
    (h : SemanticError.PointsInto strict (w.map located) ⟨violation, line⟩) :
    Blames strict w (fail violation line : Analyzer α) := fun _ => .inr h

end Blames

theorem reference_blames {ident : Identifier} (h : ident.In w) :
    Blames strict w (reference ident) := by
  have hresolve : Blames strict w (resolve? ident.name) := fun _ => trivial
  refine hresolve.bind fun found => ?_
  split
  · exact fun _ => trivial
  · exact .fail (.inl h)

theorem declare_blames {entry : TypedIdentifier} (h : entry.ident.In w) :
    Blames strict w (declare entry) := by
  have htype : Blames strict w (typeNamed entry.type entry.ident.line) := by
    refine Blames.bind (fun _ => trivial) fun found => ?_
    split
    · exact fun _ => trivial
    · exact fun _ => .inl ⟨_, rfl⟩
  refine htype.bind fun type => Blames.bind (fun _ => trivial) fun taken => ?_
  cases taken with
  | true => exact .fail h
  | false => exact fun _ => trivial

theorem declareAll_blames {entries : List TypedIdentifier}
    (h : ∀ entry ∈ entries, entry.ident.In w) : Blames strict w (declareAll entries) := by
  induction entries with
  | nil => exact fun _ => trivial
  | cons entry entries ih =>
    obtain ⟨hfirst, hrest⟩ := List.forall_mem_cons.mp h
    exact (declare_blames hfirst).bind fun _ => (ih hrest).bind fun _ _ => trivial

theorem declarations_blame {ds : List Declaration}
    (h : ∀ d ∈ ds, Blames strict w (declaration strict d)) :
    Blames strict w (declarations strict ds) := by
  induction ds with
  | nil => exact fun _ => trivial
  | cons d ds ih =>
    obtain ⟨hfirst, hrest⟩ := List.forall_mem_cons.mp h
    exact hfirst.bind fun _ => ih hrest

theorem matchArguments_blames {c : Call} {args : List String} {params : List TypedName}
    (h : ∀ argument ∈ args, Passes (w.map located) c.line c.name argument) :
    Blames true w (matchArguments c args params) := by
  induction args generalizing params with
  | nil => exact fun _ => trivial
  | cons argument args ih =>
    obtain ⟨hfirst, hrest⟩ := List.forall_mem_cons.mp h
    cases params with
    | nil => exact fun _ => trivial
    | cons param params =>
      refine Blames.bind (fun _ => trivial) fun found => ?_
      split
      · split
        · exact .bind (.fail ⟨rfl, hfirst⟩) fun _ => ih hrest
        · exact ih hrest
      · exact .fail ⟨rfl, hfirst⟩
      · exact .fail (.inr ⟨rfl, c.name, hfirst⟩)

theorem matchSignature_blames {c : Call} {params : List TypedName}
    (hname : .name c.name c.line ∈ w.map located)
    (hargs : ∀ argument ∈ c.args, Passes (w.map located) c.line c.name argument) :
    Blames true w (matchSignature c params) := by
  rw [matchSignature]
  split
  · exact .bind (.fail hname) fun _ => matchArguments_blames hargs
  · exact matchArguments_blames hargs

theorem call_blames {c : Call} (hname : .name c.name c.line ∈ w.map located)
    (hargs : ∀ argument ∈ c.args, Passes (w.map located) c.line c.name argument) :
    Blames strict w (call strict c) := by
  have hresolve : Blames strict w (resolve? c.name) := fun _ => trivial
  refine hresolve.bind fun found => ?_
  split
  · exact .fail hname
  · cases strict with
    | false => exact fun _ => trivial
    | true =>
      rw [if_pos rfl]
      split
      · have hrecord (scope : Scope) : Blames true w (record c.name c.line scope) :=
          fun _ => trivial
        exact (hrecord _).bind fun _ => matchSignature_blames hname hargs
      · exact .fail hname

end Analyzer

/-! ## Commands -/

open Analyzer

section Commands

variable {strict : Bool} {w : List Delivery}

theorem DerivesExpression.blames {level : Level} {x : Expression}
    (h : DerivesExpression level w x) : Blames strict w (Analyzer.expression x) := by
  induction h with
  | number => exact fun _ => trivial
  | var hd => exact reference_blames (Delivery.identifier_in hd _)
  | @parens o c w _ _ _ _ ih => exact ih.within ⟨[o], [c], by simp⟩
  | @negation n _ _ _ _ ih | @signed n _ _ _ _ ih => exact ih.within ⟨[n], [], by simp⟩
  | ofFactor _ ih | ofTerm _ ih | ofSimple _ ih => exact ih
  | @product v w op _ _ _ _ _ ihl ihr | @sum v w op _ _ _ _ _ ihl ihr
  | @comparison v w op _ _ _ _ _ ihl ihr =>
    exact (ihl.within ⟨[], op :: w, rfl⟩).bind fun _ => ihr.within ⟨v ++ [op], [], by simp⟩

theorem DerivesValue.blames {x : Expression} (h : DerivesValue w x) :
    Blames strict w (Analyzer.expression x) := by
  cases h with
  | boolean => exact fun _ => trivial
  | expression hw => exact hw.blames

theorem Separated.names {names : List String} (h : Separated .comma DerivesName w names) :
    (∀ item ∈ w.map located, item.token.kind ∈ [.identifier, .comma]) ∧
      ∀ name ∈ names, ∃ there, .name name there ∈ w.map located := by
  induction h with
  | one hw =>
    cases hw with
    | @intro d hd =>
      exact ⟨by simp [located_of_identifier hd, Located.name],
        List.forall_mem_singleton.mpr ⟨d.line, Delivery.identifier_in hd _⟩⟩
  | @more _ w s _ _ hv hs _ ih =>
    cases hv with
    | @intro d hd =>
      have hcomma : s.located.token.kind = .comma := hs
      refine ⟨?_, List.forall_mem_cons.mpr ⟨⟨d.line, Delivery.identifier_in hd _⟩, ?_⟩⟩
      · simpa [located_of_identifier hd, Located.name, hcomma] using ih.1
      · intro name hname
        obtain ⟨there, hthere⟩ := ih.2 name hname
        exact ⟨there, by simp [hthere]⟩

theorem DerivesArguments.passes {d : Delivery} {args : List String} (hd : d.kind = .identifier)
    (h : DerivesArguments w args) :
    ∀ argument ∈ args, Passes ((d :: w).map located) d.line d.token.text argument := by
  cases h with
  | missing | empty => simp
  | @names o c w _ ho hw hc =>
    obtain ⟨hkinds, hnames⟩ := hw.names
    intro argument hargument
    refine ⟨o.located, w.map located, c.located, ?_, ho, hc, hkinds, hnames argument hargument⟩
    rw [← located_of_identifier hd]
    simp

mutual

theorem DerivesStatement.blames {w l : List Delivery} {s : Statement}
    (h : DerivesStatement w s l) : Blames strict w (statement strict s) := by
  match h with
  | .empty => rw [statement]; exact fun _ => trivial
  | @DerivesStatement.assignment d a w _ hd ha hw =>
    rw [statement]
    exact (reference_blames (Delivery.identifier_in hd _)).bind fun _ =>
      hw.blames.within ⟨[d, a], [], by simp⟩
  | .call hd hw =>
    rw [statement]
    exact call_blames (Delivery.identifier_in hd _) (hw.passes hd)
  | .compound hw => rw [statement]; exact hw.blames
  | @DerivesStatement.ifThen i t v w _ _ _ hi hv ht hw
  | @DerivesStatement.loop i t v w _ _ _ hi hv ht hw =>
    rw [statement]
    exact (hv.blames.within ⟨[i], t :: w, rfl⟩).bind fun _ =>
      hw.blames.within ⟨i :: (v ++ [t]), [], by simp⟩
  | @DerivesStatement.ifThenElse i t e v w x _ _ _ _ _ hi hv ht hw he hx =>
    rw [statement]
    exact (hv.blames.within ⟨[i], t :: (w ++ e :: x), rfl⟩).bind fun _ =>
      (hw.blames.within ⟨i :: (v ++ [t]), e :: x, by simp⟩).bind fun _ =>
        hx.blames.within ⟨i :: (v ++ t :: (w ++ [e])), [], by simp⟩

theorem DerivesCompound.blames {w l : List Delivery} {ss : List Statement}
    (h : DerivesCompound w ss l) : Blames strict w (statements strict ss) := by
  match h with
  | @DerivesCompound.intro b f w _ _ hb hw hf => exact hw.blames.within ⟨[b], [f], by simp⟩

theorem DerivesStatements.blames {w l : List Delivery} {ss : List Statement}
    (h : DerivesStatements w ss l) : Blames strict w (statements strict ss) := by
  match h with
  | .one hw => exact hw.blames.bind fun _ _ => trivial
  | @DerivesStatements.more p v w _ _ _ _ hv hp hw =>
    exact (hv.blames.within ⟨[], p :: w, rfl⟩).bind fun _ =>
      hw.blames.within ⟨v ++ [p], [], by simp⟩

end

end Commands

/-! ## Declarations -/

section Declarations

variable {strict : Bool} {w : List Delivery}

theorem DerivesIdentifier.identifier_in {ident : Identifier} (h : DerivesIdentifier w ident) :
    ident.In w := by
  cases h with
  | intro hd => exact Delivery.identifier_in hd _

theorem DerivesDeclarator.identifier_in {ident : Identifier} (h : DerivesDeclarator w ident) :
    ident.In w := by
  cases h with
  | plain hd | assigned hd => exact Delivery.identifier_in hd _

theorem DerivesVariables.blame {ds : List Declaration} (h : DerivesVariables w ds) :
    ∀ d ∈ ds, Blames strict w (declaration strict d) := by
  cases h with
  | @intro m t w p type idents hm ht hw hp =>
    refine List.forall_mem_map.mpr fun ident hident => ?_
    obtain ⟨v, hv, hitem⟩ := hw.exists_infix ident hident
    rw [declaration]
    refine Blames.bind (declare_blames ?_) fun _ _ => trivial
    exact hitem.identifier_in.within (hv.trans ⟨m ++ t, [p], by simp⟩)

theorem DerivesParameters.identifiers_in {params : List TypedIdentifier}
    (h : DerivesParameters w params) : ∀ entry ∈ params, entry.ident.In w := by
  cases h with
  | missing => simp
  | @groups o c w groups ho hw hc =>
    intro entry hentry
    obtain ⟨group, hgroup, hentry⟩ := List.mem_flatten.mp hentry
    obtain ⟨v, hv, hitem⟩ := hw.exists_infix group hgroup
    cases hitem with
    | @intro m u t c' type idents hm hu hc' ht =>
      obtain ⟨ident, hident, rfl⟩ := List.mem_map.mp hentry
      obtain ⟨x, hx, hitem⟩ := hu.exists_infix ident hident
      refine hitem.identifier_in.within (hx.trans (.trans ?_ (hv.trans ⟨[o], [c], by simp⟩)))
      exact ⟨m, c' :: t, by simp⟩

theorem openProcedure_blames {p n : Delivery} {params : List TypedIdentifier}
    (hp : p.kind = .procedimento) (hn : n.kind = .identifier) (hpn : [p, n] <:+: w) :
    Blames strict w (openProcedure ⟨n.token.text, params, p.line⟩) := by
  refine Blames.bind (fun _ => trivial) fun taken => ?_
  cases taken with
  | true =>
    refine .fail ⟨p.located, n.line, hp, rfl, ?_⟩
    rw [← located_of_identifier hn]
    exact hpn.map located
  | false => exact fun _ => trivial

mutual

theorem DerivesBlock.blames {w l : List Delivery} {block : Block} (h : DerivesBlock w block l) :
    Blames strict w (Analyzer.block strict block) := by
  match h with
  | @DerivesBlock.intro u v w _ _ groups procedures _ hu hv hw =>
    refine Blames.bind (declarations_blame fun d hd => ?_) fun _ =>
      hw.blames.within ⟨u ++ v, [], by simp⟩
    rcases List.mem_append.mp hd with hvar | hprocedure
    · obtain ⟨group, hgroup, hmem⟩ := List.mem_flatten.mp hvar
      obtain ⟨x, hx, hitem⟩ := hu.exists_infix group hgroup
      exact (hitem.blame d hmem).within (hx.trans ⟨[], v ++ w, rfl⟩)
    · exact (hv.blame d hprocedure).within ⟨u, w, by simp⟩

theorem DerivesProcedure.blames {w l : List Delivery} {procedure : Declaration}
    (h : DerivesProcedure w procedure l) : Blames strict w (declaration strict procedure) := by
  match h with
  | @DerivesProcedure.intro p n s t v w _ params block hp hn hv hs hw ht =>
    rw [declaration_procedure]
    refine (openProcedure_blames hp hn ⟨[], v ++ s :: (w ++ [t]), rfl⟩).bind fun _ => ?_
    have hparams : Blames strict (p :: n :: (v ++ s :: (w ++ [t])))
        (declareParams ⟨n.token.text, params, p.line⟩) := by
      refine Blames.bind (declareAll_blames fun entry hentry => ?_) fun _ _ => trivial
      exact (hv.identifiers_in entry hentry).within ⟨[p, n], s :: (w ++ [t]), by simp⟩
    have hblock : Blames strict w (Analyzer.block strict block >>= fun _ => leave) :=
      hw.blames.bind fun _ _ => trivial
    rw [Analyzer.block, bind_assoc] at hblock
    exact hparams.bind fun _ => hblock.within ⟨p :: n :: (v ++ [s]), [t], by simp⟩

theorem DerivesProcedures.blame {w l : List Delivery} {procedures : List Declaration}
    (h : DerivesProcedures w procedures l) :
    ∀ d ∈ procedures, Blames strict w (declaration strict d) := by
  match h with
  | .nil => simp
  | @DerivesProcedures.cons v w _ _ _ _ hv hw =>
    refine List.forall_mem_cons.mpr ⟨hv.blames.within ⟨[], w, rfl⟩, fun d hd => ?_⟩
    exact (hw.blame d hd).within ⟨v, [], by simp⟩

end

end Declarations

/-! ## Whole programs -/

/-- A program whose analysis fails shows in its tokens where the error points. -/
theorem DerivesProgram.pointsInto {strict : Bool} {w l : List Delivery} {program : Program}
    {earlier : Analysis} {error : SemanticError} (h : DerivesProgram w program l)
    (hwf : program.WellFormed) (hrun : (program.analyze strict earlier).1 = .error error) :
    error.PointsInto strict (w.map located) := by
  obtain ⟨start, hstart⟩ : ∃ start, enter "global" .initial = .ok () start := ⟨_, rfl⟩
  have hrepeats := Program.analyze_repeats hwf hrun
  cases h with
  | @intro p n s t v _ block hp hn hs hw ht =>
    have hblames : Blames strict (p :: n :: s :: (v ++ [t]))
        (Analyzer.block strict block >>= fun _ => leave) :=
      (hw.blames.within ⟨[p, n, s], [t], by simp⟩).bind fun _ _ => trivial
    rw [Program.analyze, Program.program_apply hstart] at hrun
    dsimp only at hrun
    cases hanalysis : (Analyzer.block strict block >>= fun _ => leave) start with
    | ok _ after => rw [hanalysis] at hrun; cases hrun
    | error error' stop =>
      rw [hanalysis] at hrun
      obtain rfl := Except.error.inj hrun
      rcases (hblames start).of_error hanalysis with ⟨name, htype⟩ | hpoints
      · -- no type is unknown in a program that a text holds
        obtain ⟨_, -, _, second, -, -, herror, -⟩ := hrepeats (by rw [htype]; rfl)
        subst herror
        cases second <;> cases htype
      · exact hpoints

theorem Report.pointsInto_of_outcome {strict : Bool} {source : String} {error : SemanticError}
    (h : (ofSource strict source).outcome = .error (.semantic error)) :
    error.PointsInto strict (Cursor.ofSource source).delivered.1 := by
  obtain ⟨program, hprogram, hrun⟩ := outcome_semantic_iff.mp h
  obtain ⟨⟨leaders, hderives, -⟩, -⟩ := Program.ofSource_sound hprogram
  rw [Cursor.delivered_fst]
  refine (hderives.pointsInto (Program.wellFormed_of_ofSource hprogram) hrun).mono ?_
  have hprefix := throughDot_prefix (Cursor.ofSource source).trail
  exact hprefix.isInfix.map located

/-- **Semantic errors point at what they complain about**: the name begins on the line of the error,
except that of a procedure declared twice and that of an argument, which come behind it. -/
theorem Report.semantic_error_points {strict : Bool} {source : String} {error : SemanticError}
    (h : (ofSource strict source).outcome = .error (.semantic error)) :
    error.PointsInto strict (Cursor.ofSource source).delivered.1 ∧
    ∀ kind spelling line,
      ⟨⟨kind, .text spelling⟩, line⟩ ∈ (Cursor.ofSource source).delivered.1 →
        ∃ before behind, source.toList = before ++ (spelling.toList ++ behind) ∧
          line = 1 + before.count '\n' := by
  have hpoints := pointsInto_of_outcome h
  exact ⟨hpoints, fun _ _ _ => exists_split_of_mem_delivered⟩

theorem Report.outcome_of_map {strict : Bool} {source : String} {failure : Failure}
    (h : (ofSource strict source).outcome.map (fun _ => ()) = .error failure) :
    (ofSource strict source).outcome = .error failure := by
  cases houtcome : (ofSource strict source).outcome with
  | ok program => rw [houtcome] at h; cases h
  | error failure' => rw [houtcome] at h; rw [Except.error.inj h]

/-- An argument of the wrong type, two lines below the name of the procedure called. -/
theorem Report.semantic_error_points_argument :
    let source := "program p; logico b;\nprocedimento q(x: inteiro); inicio fim;\n" ++
      "inicio q(\n\nb) fim."
    (ofSource true source).outcome =
      .error (.semantic ⟨.argumentType "q" "b" .inteiro .logico, 3⟩) ∧
    Passes (Cursor.ofSource source).delivered.1 3 "q" "b" := by
  intro source
  have hrun : (ofSource true source).outcome =
      .error (.semantic ⟨.argumentType "q" "b" .inteiro .logico, 3⟩) :=
    outcome_of_map (by decide +kernel)
  exact ⟨hrun, (semantic_error_points hrun).1.2⟩

/-- A strict analysis rejects a text, and on the line of the error a name does not begin. -/
def Report.PointsBeside (source : String) (violation : Violation) (line : Nat) (name : String) :
    Prop :=
  (ofSource true source).outcome = .error (.semantic ⟨violation, line⟩) ∧
    .name name line ∉ (Cursor.ofSource source).delivered.1

/-- The name of a procedure declared twice may begin on another line than that of the error, and so
may an argument that is not declared, is no variable or has the wrong type. -/
theorem Report.semantic_error_beside_name :
    let head := "program p; logico b; procedimento r; inicio fim;\n" ++
      "procedimento q(x: inteiro); inicio fim;\n"
    PointsBeside (head ++ "procedimento\nq; inicio fim; inicio fim.")
      (.redeclaredProcedure "q") 3 "q" ∧
    PointsBeside (head ++ "inicio q(\nc) fim.") (.unknownVariable "c") 3 "c" ∧
    PointsBeside (head ++ "inicio q(\nr) fim.") (.argumentNotVariable "q" "r") 3 "r" ∧
    PointsBeside (head ++ "inicio q(\nb) fim.") (.argumentType "q" "b" .inteiro .logico) 3
      "b" := by
  intro head
  refine ⟨⟨outcome_of_map ?_, ?_⟩, ⟨outcome_of_map ?_, ?_⟩, ⟨outcome_of_map ?_, ?_⟩,
    ⟨outcome_of_map ?_, ?_⟩⟩ <;> decide +kernel

end LusoPascal
