import LusoPascal.Proofs.Analysis.CallSite
import LusoPascal.Proofs.Analysis.Simulation

/-!
# A strict analysis is a plain one cut short

From one state the strict and the plain analysis of a part of a program take the same steps until
the strict one rejects a call, which the plain one passes. After that the plain one only adds to
the records.

* `Analysis.Extends`, `Analyzer.final`: records that grew, and the state that an analyzer ends in;
* `Call.Misfit`: the errors about the arguments of a call;
* `Call.Rejects`: how a strict analysis ends at a call that a plain one passes;
* `Tightens`, `Tightens.bind`: two analyzers that differ in this way only;
* **`statement_tightens`**, **`declaration_tightens`**: every part of a program;
* **`Program.analyze_strict_cut`**: whole programs.
-/

namespace LusoPascal

/-! ## Records that grow -/

namespace Analysis

/-- The records of an analysis begin with those of an earlier one. -/
structure Extends (earlier later : Analysis) : Prop where
  scopes : earlier.scopes.toList <+: later.scopes.toList
  resolutions : earlier.resolutions.toList <+: later.resolutions.toList

namespace Extends

variable {first second third : Analysis}

theorem refl (analysis : Analysis) : analysis.Extends analysis :=
  ⟨List.prefix_refl _, List.prefix_refl _⟩

theorem trans (h : first.Extends second) (h' : second.Extends third) : first.Extends third :=
  ⟨h.scopes.trans h'.scopes, h.resolutions.trans h'.resolutions⟩

theorem getElem? (h : first.Extends second) {i : Nat} {resolution : Resolution}
    (hi : first.resolutions[i]? = some resolution) : second.resolutions[i]? = some resolution := by
  rw [← Array.getElem?_toList] at hi ⊢
  obtain ⟨hlt, rfl⟩ := List.getElem?_eq_some_iff.mp hi
  exact List.prefix_iff_getElem?.mp h.resolutions i hlt

end Extends

end Analysis

/-! ## Calls that are rejected -/

namespace Call

/-- What a strict analysis can find wrong with the arguments of a call. -/
inductive Misfit (c : Call) : SemanticError → Prop
  | count {expected : Nat} (h : c.args.length ≠ expected) :
      Misfit c ⟨.argumentCount c.name expected c.args.length, c.line⟩
  | type {argument : String} {expected found : BaseType} (harg : argument ∈ c.args)
      (h : found ≠ expected) : Misfit c ⟨.argumentType c.name argument expected found, c.line⟩
  | notVariable {argument : String} (harg : argument ∈ c.args) :
      Misfit c ⟨.argumentNotVariable c.name argument, c.line⟩
  | unknown {argument : String} (harg : argument ∈ c.args) :
      Misfit c ⟨.unknownVariable argument, c.line⟩

/-- A strict analysis rejects a call that stands behind `count` references: it ends with an error
about the call, before it records the call if that is no procedure, and right behind it if the
arguments do not fit. A plain analysis records the call and goes on. -/
structure Rejects (c : Call) (count : Nat) (error : SemanticError) (strict plain : Analysis) :
    Prop where
  error : error = ⟨.notProcedure c.name, c.line⟩ ∧ strict.resolutions.size = count ∨
    c.Misfit error ∧ strict.resolutions.size = count + 1
  passed : ∃ scope level, plain.resolutions[count]? = some ⟨c.name, c.line, scope, level⟩
  extends_ : strict.Extends plain

end Call

/-! ## Two analyzers side by side -/

namespace Analyzer

variable {α β : Type}

/-- The state that an analyzer ends in, whether it fails or not. -/
def final (p : Analyzer α) (before : Analysis) : Analysis :=
  match p before with
  | .ok _ after => after
  | .error _ after => after

theorem bind_eq_ok {p : Analyzer α} {q : α → Analyzer β} {before after : Analysis} {b : β} :
    (p >>= q) before = .ok b after ↔
      ∃ a between, p before = .ok a between ∧ q a between = .ok b after := by
  rw [bind_apply]
  cases p before with
  | ok a between =>
    constructor
    · intro h
      exact ⟨a, between, rfl, h⟩
    · rintro ⟨_, _, ⟨⟩, h⟩
      exact h
  | error => simp

/-- A strict analyzer takes the same steps as a plain one that resolves the given references, until
it rejects one of the calls among them. -/
structure Tightens (strict plain : Analyzer α) (references : List Reference) : Prop where
  /-- The plain one only adds to the records. -/
  extends_ (before : Analysis) : before.Extends (plain.final before)
  /-- If the strict one succeeds, then the plain one ends in the same state. -/
  ok {before after : Analysis} {a : α} (h : strict before = .ok a after) :
    plain before = .ok a after ∧
      after.resolutions.size = before.resolutions.size + references.length
  /-- If the strict one fails, then the plain one fails likewise, or passes the call at fault. -/
  error {before stop : Analysis} {error : SemanticError} (h : strict before = .error error stop) :
    plain before = .error error stop ∨
      ∃ (i : Nat) (c : Call), references[i]? = some (.call c) ∧
        c.Rejects (before.resolutions.size + i) error stop (plain.final before)

namespace Tightens

variable {p p' : Analyzer α} {q q' : α → Analyzer β} {references more : List Reference}

theorem bind (hp : Tightens p p' references) (hq : ∀ a, Tightens (q a) (q' a) more) :
    Tightens (p >>= q) (p' >>= q') (references ++ more) := by
  have hfinal (before : Analysis) : (p'.final before).Extends ((p' >>= q').final before) := by
    rw [final, final, bind_apply]
    cases p' before with
    | ok a between => exact (hq a).extends_ between
    | error => exact .refl _
  refine ⟨fun before => (hp.extends_ before).trans (hfinal before), fun h => ?_, fun h => ?_⟩
  · obtain ⟨a, between, hrun, hrun'⟩ := bind_eq_ok.mp h
    obtain ⟨hplain, hsize⟩ := hp.ok hrun
    obtain ⟨hplain', hsize'⟩ := (hq a).ok hrun'
    refine ⟨bind_eq_ok.mpr ⟨a, between, hplain, hplain'⟩, ?_⟩
    rw [hsize', hsize, List.length_append, Nat.add_assoc]
  · next before stop error =>
    rw [bind_apply] at h
    cases hrun : p before with
    | error error' stop' =>
      rw [hrun] at h
      cases h
      rcases hp.error hrun with hplain | ⟨i, c, hi, hrejects⟩
      · exact .inl (by rw [bind_apply, hplain])
      · -- the plain analyzer goes on behind the call
        refine .inr ⟨i, c, ?_, hrejects.error, ?_, hrejects.extends_.trans (hfinal before)⟩
        · rw [List.getElem?_append_left (List.getElem?_eq_some_iff.mp hi).1, hi]
        · obtain ⟨scope, level, hpassed⟩ := hrejects.passed
          exact ⟨scope, level, (hfinal before).getElem? hpassed⟩
    | ok a between =>
      rw [hrun] at h
      obtain ⟨hplain, hsize⟩ := hp.ok hrun
      have hbind : (p' >>= q') before = q' a between := by rw [bind_apply, hplain]
      rcases (hq a).error h with hplain' | ⟨i, c, hi, hrejects⟩
      · exact .inl (hbind.trans hplain')
      · refine .inr ⟨references.length + i, c, ?_, ?_⟩
        · rw [List.getElem?_append_right (Nat.le_add_right _ _), Nat.add_sub_cancel_left, hi]
        · rw [final, hbind, ← Nat.add_assoc, ← hsize]
          exact hrejects

theorem quiet (hscopes : ∀ before, (p.final before).scopes = before.scopes)
    (hresolutions : ∀ before, (p.final before).resolutions = before.resolutions) :
    Tightens p p [] where
  extends_ before :=
    ⟨(hscopes before).symm ▸ List.prefix_refl _, (hresolutions before).symm ▸ List.prefix_refl _⟩
  ok {before after a} h := by
    have hsame := hresolutions before
    rw [final, h] at hsame
    exact ⟨h, congrArg Array.size hsame⟩
  error h := .inl h

theorem bind_nil (hp : Tightens p p' references) (hq : ∀ a, Tightens (q a) (q' a) []) :
    Tightens (p >>= q) (p' >>= q') references := by
  rw [← List.append_nil references]
  exact hp.bind hq

theorem pure (a : α) : Tightens (pure a) (pure a) [] :=
  quiet (fun _ => rfl) fun _ => rfl

theorem fail (violation : Violation) (line : Nat) (references : List Reference) :
    Tightens (fail violation line : Analyzer α) (fail violation line) references where
  extends_ before := .refl before
  ok h := by cases h
  error h := .inl h

theorem fail_bind (violation : Violation) (line : Nat) (references : List Reference) :
    Tightens ((Analyzer.fail violation line : Analyzer α) >>= q)
      ((Analyzer.fail violation line : Analyzer α) >>= q') references where
  extends_ before := .refl before
  ok h := by cases h
  error h := .inl h

end Tightens

/-! ## The parts of a program -/

theorem lookup?_bind {α : Type} (name : String) (q : Option Symbol → Analyzer α)
    (before : Analysis) :
    (lookup? name >>= q) before = q (before.table.lookup? name) before := rfl

theorem resolve?_bind {α : Type} (name : String) (q : Option (Symbol × Scope) → Analyzer α)
    (before : Analysis) :
    (resolve? name >>= q) before = q (before.table.resolve? name) before := rfl

theorem isTaken_tightens (name : String) : Tightens (isTaken name) (isTaken name) [] :=
  .quiet (fun _ => rfl) fun _ => rfl

theorem lookup?_tightens (name : String) : Tightens (lookup? name) (lookup? name) [] :=
  .quiet (fun _ => rfl) fun _ => rfl

theorem define_tightens (symbol : Symbol) : Tightens (define symbol) (define symbol) [] := by
  apply Tightens.quiet
  · intro before
    rw [final, define_apply]
    cases before.table.define? symbol <;> rfl
  · intro before
    rw [final, define_apply]
    cases before.table.define? symbol <;> rfl

theorem leave_tightens : Tightens leave leave [] := by
  apply Tightens.quiet
  · intro before
    rw [final, leave_apply]
    cases before.table.pop? <;> rfl
  · intro before
    rw [final, leave_apply]
    cases before.table.pop? <;> rfl

theorem setEnclosingParams_tightens (name : String) (params : List TypedName) :
    Tightens (setEnclosingParams name params) (setEnclosingParams name params) [] :=
  .quiet (fun _ => rfl) fun _ => rfl

theorem enter_tightens (name : String) : Tightens (enter name) (enter name) [] where
  extends_ before := ⟨Array.toList_push ▸ List.prefix_append _ _, List.prefix_refl _⟩
  ok h := by
    cases h
    exact ⟨rfl, rfl⟩
  error h := by cases h

theorem typeNamed_tightens (type : TypeName) (line : Nat) :
    Tightens (typeNamed type line) (typeNamed type line) [] := by
  apply (lookup?_tightens type.name).bind
  intro found
  split
  · exact .pure _
  · exact .fail _ _ _

theorem declare_tightens (entry : TypedIdentifier) :
    Tightens (declare entry) (declare entry) [] := by
  apply (typeNamed_tightens entry.type entry.ident.line).bind
  intro type
  apply (isTaken_tightens entry.ident.name).bind
  intro taken
  split
  · exact .fail_bind _ _ _
  · exact (define_tightens _).bind fun _ => .pure _

theorem declareAll_tightens (entries : List TypedIdentifier) :
    Tightens (declareAll entries) (declareAll entries) [] := by
  induction entries with
  | nil => exact .pure _
  | cons entry rest ih =>
    exact (declare_tightens entry).bind fun _ => ih.bind fun _ => .pure _

theorem extends_record (name : String) (line : Nat) (scope : Scope) (before : Analysis) :
    before.Extends ((record name line scope).final before) :=
  ⟨List.prefix_refl _, Array.toList_push ▸ List.prefix_append _ _⟩

section Reference

variable {ident : Identifier} {before : Analysis}

theorem reference_of_none (h : before.table.resolve? ident.name = none) :
    reference ident before = .error ⟨.unknownVariable ident.name, ident.line⟩ before := by
  rw [reference, resolve?_bind, h]
  rfl

theorem reference_of_some {symbol : Symbol} {scope : Scope}
    (h : before.table.resolve? ident.name = some (symbol, scope)) :
    reference ident before = record ident.name ident.line scope before := by
  rw [reference, resolve?_bind, h]

end Reference

theorem reference_tightens (ident : Identifier) :
    Tightens (reference ident) (reference ident) [.ident ident] where
  extends_ before := by
    rw [final]
    cases hfound : before.table.resolve? ident.name with
    | none =>
      rw [reference_of_none hfound]
      exact .refl before
    | some found =>
      rw [reference_of_some hfound]
      exact extends_record ident.name ident.line found.2 before
  ok {before after a} h := by
    refine ⟨h, ?_⟩
    cases hfound : before.table.resolve? ident.name with
    | none =>
      rw [reference_of_none hfound] at h
      cases h
    | some found =>
      rw [reference_of_some hfound] at h
      cases h
      exact Array.size_push _
  error h := .inl h

/-- The arguments of a call fit, or there is an error about them; nothing is recorded. -/
theorem matchArguments_fits_or_misfit {c : Call} {args : List String}
    (hargs : ∀ argument ∈ args, argument ∈ c.args) (params : List TypedName) (before : Analysis) :
    matchArguments c args params before = .ok () before ∨
      ∃ error, c.Misfit error ∧ matchArguments c args params before = .error error before := by
  induction args generalizing params with
  | nil => exact .inl rfl
  | cons argument rest ih =>
    cases params with
    | nil => exact .inl rfl
    | cons param params =>
      have hargument : argument ∈ c.args := hargs argument List.mem_cons_self
      have hrest : ∀ a ∈ rest, a ∈ c.args := fun a ha => hargs a (List.mem_cons_of_mem _ ha)
      rw [matchArguments, lookup?_bind]
      cases before.table.lookup? argument with
      | none => exact .inr ⟨_, .unknown hargument, rfl⟩
      | some symbol =>
        cases symbol with
        | var entry =>
          by_cases hne : entry.type ≠ param.type
          · dsimp only
            rw [if_pos hne]
            exact .inr ⟨_, .type hargument hne, rfl⟩
          · dsimp only
            rw [if_neg hne]
            exact ih hrest params
        | procedure | constant | type => exact .inr ⟨_, .notVariable hargument, rfl⟩

theorem matchSignature_fits_or_misfit (c : Call) (params : List TypedName) (before : Analysis) :
    matchSignature c params before = .ok () before ∨
      ∃ error, c.Misfit error ∧ matchSignature c params before = .error error before := by
  by_cases hne : c.args.length ≠ params.length
  · rw [matchSignature, if_pos hne]
    exact .inr ⟨_, .count hne, rfl⟩
  · rw [matchSignature, if_neg hne]
    exact matchArguments_fits_or_misfit (fun _ h => h) params before

section Call

variable {c : Call} {before : Analysis}

theorem call_of_none (strict : Bool) (h : before.table.resolve? c.name = none) :
    call strict c before = .error ⟨.unknownProcedure c.name, c.line⟩ before := by
  rw [call, resolve?_bind, h]
  rfl

theorem call_false_of_some {symbol : Symbol} {scope : Scope}
    (h : before.table.resolve? c.name = some (symbol, scope)) :
    call false c before = record c.name c.line scope before := by
  rw [call, resolve?_bind, h]
  rfl

theorem call_true_of_procedure {name : String} {params : List TypedName} {scope : Scope}
    (h : before.table.resolve? c.name = some (.procedure name params, scope)) :
    call true c before = matchSignature c params ((record c.name c.line scope).final before) := by
  rw [call, resolve?_bind, h]
  rfl

theorem call_true_of_other {symbol : Symbol} {scope : Scope}
    (h : before.table.resolve? c.name = some (symbol, scope))
    (hother : ∀ name params, symbol ≠ .procedure name params) :
    call true c before = .error ⟨.notProcedure c.name, c.line⟩ before := by
  rw [call, resolve?_bind, h]
  cases symbol with
  | procedure name params => exact absurd rfl (hother name params)
  | var | constant | type => rfl

end Call

/-- A call is resolved by both analyzers. The strict one rejects it if its name is no procedure or
if its arguments do not fit. -/
theorem call_tightens (c : Call) : Tightens (call true c) (call false c) [.call c] where
  extends_ before := by
    rw [final]
    cases hfound : before.table.resolve? c.name with
    | none =>
      rw [call_of_none false hfound]
      exact .refl before
    | some found =>
      rw [call_false_of_some hfound]
      exact extends_record c.name c.line found.2 before
  ok {before after a} h := by
    cases hfound : before.table.resolve? c.name with
    | none =>
      rw [call_of_none true hfound] at h
      cases h
    | some found =>
      obtain ⟨symbol, scope⟩ := found
      rw [call_false_of_some hfound]
      by_cases hother : ∀ name params, symbol ≠ .procedure name params
      · rw [call_true_of_other hfound hother] at h
        cases h
      · push Not at hother
        obtain ⟨name, params, rfl⟩ := hother
        rw [call_true_of_procedure hfound] at h
        rcases matchSignature_fits_or_misfit c params ((record c.name c.line scope).final before)
          with hfits | ⟨error, -, hmisfit⟩
        · rw [hfits] at h
          cases h
          exact ⟨rfl, Array.size_push _⟩
        · rw [hmisfit] at h
          cases h
  error {before stop error} h := by
    rw [final]
    cases hfound : before.table.resolve? c.name with
    | none =>
      rw [call_of_none true hfound] at h
      rw [call_of_none false hfound]
      exact .inl h
    | some found =>
      obtain ⟨symbol, scope⟩ := found
      rw [call_false_of_some hfound]
      have hpassed : (before.resolutions.push ⟨c.name, c.line, scope.name, scope.level⟩)[
          before.resolutions.size + 0]? = some ⟨c.name, c.line, scope.name, scope.level⟩ :=
        Array.getElem?_push_size
      refine .inr ⟨0, c, rfl, ?_⟩
      by_cases hother : ∀ name params, symbol ≠ .procedure name params
      · rw [call_true_of_other hfound hother] at h
        cases h
        exact ⟨.inl ⟨rfl, rfl⟩, ⟨_, _, hpassed⟩, extends_record c.name c.line scope before⟩
      · push Not at hother
        obtain ⟨name, params, rfl⟩ := hother
        rw [call_true_of_procedure hfound] at h
        rcases matchSignature_fits_or_misfit c params ((record c.name c.line scope).final before)
          with hfits | ⟨error, hmisfit, hfails⟩
        · rw [hfits] at h
          cases h
        · rw [hfails] at h
          cases h
          exact ⟨.inr ⟨hmisfit, Array.size_push _⟩, ⟨_, _, hpassed⟩, .refl _⟩

theorem expression_tightens (x : Expression) :
    Tightens (expression x) (expression x) x.references := by
  induction x with
  | binary left op right ihl ihr => exact ihl.bind fun _ => ihr
  | unary op operand ih => exact ih
  | number | boolean => exact .pure ()
  | var ident => exact reference_tightens ident

mutual

/-- A strict analysis of a command is a plain one cut short. -/
theorem statement_tightens (s : Statement) :
    Tightens (statement true s) (statement false s) s.references := by
  match s with
  | .compound children => exact statements_tighten children
  | .assign target op value =>
    exact (reference_tightens target).bind fun _ => expression_tightens value
  | .ifThen condition thenBranch =>
    exact (expression_tightens condition).bind fun _ => statement_tightens thenBranch
  | .ifThenElse condition thenBranch elseBranch =>
    exact (expression_tightens condition).bind fun _ =>
      (statement_tightens thenBranch).bind fun _ => statement_tightens elseBranch
  | .loop condition body =>
    exact (expression_tightens condition).bind fun _ => statement_tightens body
  | .call c => exact call_tightens c
  | .empty => exact .pure ()

theorem statements_tighten (ss : List Statement) :
    Tightens (statements true ss) (statements false ss) (Statement.allReferences ss) := by
  match ss with
  | [] => exact .pure ()
  | s :: ss => exact (statement_tightens s).bind fun _ => statements_tighten ss

end

mutual

theorem declaration_tightens (d : Declaration) :
    Tightens (declaration true d) (declaration false d) d.references := by
  match d with
  | .var entry => exact (declare_tightens entry).bind fun _ => .pure ()
  | .procedure heading inner body =>
    rw [← List.nil_append (Declaration.references _)]
    refine (isTaken_tightens heading.name).bind fun taken => ?_
    cases taken with
    | true => exact .fail_bind _ _ _
    | false =>
      refine (define_tightens _).bind fun _ => ?_
      refine (enter_tightens heading.name).bind fun _ => ?_
      refine (declareAll_tightens heading.params).bind fun params => ?_
      refine (setEnclosingParams_tightens heading.name params).bind fun _ => ?_
      refine (declarations_tighten inner).bind fun _ => ?_
      exact (statements_tighten body).bind_nil fun _ => leave_tightens

theorem declarations_tighten (ds : List Declaration) :
    Tightens (declarations true ds) (declarations false ds) (Declaration.allReferences ds) := by
  match ds with
  | [] => exact .pure ()
  | d :: ds => exact (declaration_tightens d).bind fun _ => declarations_tighten ds

end

theorem program_tightens (p : Program) :
    Tightens (enter "global" >>= fun _ => block true p.block >>= fun _ => leave)
      (enter "global" >>= fun _ => block false p.block >>= fun _ => leave) p.references := by
  refine (enter_tightens "global").bind fun _ => ?_
  refine Tightens.bind_nil ?_ fun _ => leave_tightens
  exact (declarations_tighten p.block.declarations).bind fun _ => statements_tighten p.block.body

end Analyzer

namespace Program

variable {program : Program} {strict : Bool} {earlier after : Analysis}

theorem analyze_eq_of_ok
    (h : (Analyzer.enter "global" >>= fun _ => Analyzer.block strict program.block >>= fun _ =>
      Analyzer.leave) Analysis.initial = .ok () after) :
    program.analyze strict earlier = (.ok (), after) := by
  have hrun : Analyzer.program strict program earlier = .ok () after := h
  rw [analyze, hrun]

theorem analyze_eq_of_error {error : SemanticError}
    (h : (Analyzer.enter "global" >>= fun _ => Analyzer.block strict program.block >>= fun _ =>
      Analyzer.leave) Analysis.initial = .error error after) :
    program.analyze strict earlier = (.error error, after) := by
  have hrun : Analyzer.program strict program earlier = .error error after := h
  rw [analyze, hrun]

theorem analyze_snd (program : Program) (strict : Bool) (earlier : Analysis) :
    (program.analyze strict earlier).2 =
      (Analyzer.enter "global" >>= fun _ => Analyzer.block strict program.block >>= fun _ =>
        Analyzer.leave).final Analysis.initial := by
  rw [Analyzer.final]
  split
  · next h => rw [analyze_eq_of_ok h]
  · next h => rw [analyze_eq_of_error h]

/-- **A strict analysis only adds rejections.** It is a plain one, which it may cut short at a call
that does not fit. -/
theorem analyze_strict_cut (program : Program) (earlier earlier' : Analysis) :
    let strict := program.analyze true earlier
    let plain := program.analyze false earlier'
    strict.2.Extends plain.2 ∧
      (strict.1 = .ok () → plain.1 = .ok () ∧ strict.2.scopes = plain.2.scopes ∧
        strict.2.resolutions = plain.2.resolutions) ∧
      (∀ error, plain.1 = .error error → ∃ error', strict.1 = .error error') ∧
      ∀ error, strict.1 = .error error →
        (plain.1 = .error error ∧ strict.2.scopes = plain.2.scopes ∧
          strict.2.resolutions = plain.2.resolutions) ∨
        ∃ (i : Nat) (c : Call), program.references[i]? = some (.call c) ∧
          (∃ scope level, plain.2.resolutions[i]? = some ⟨c.name, c.line, scope, level⟩) ∧
          (error = ⟨.notProcedure c.name, c.line⟩ ∧ strict.2.resolutions.size = i ∨
            c.Misfit error ∧ strict.2.resolutions.size = i + 1) := by
  intro strict plain
  have htightens := Analyzer.program_tightens program
  cases hstrict : (Analyzer.enter "global" >>= fun _ =>
      Analyzer.block true program.block >>= fun _ => Analyzer.leave) Analysis.initial with
  | ok _ after =>
    have hs : strict = (.ok (), after) := analyze_eq_of_ok hstrict
    have hp : plain = (.ok (), after) := analyze_eq_of_ok (htightens.ok hstrict).1
    rw [hs, hp]
    refine ⟨.refl after, fun _ => ⟨rfl, rfl, rfl⟩, ?_, ?_⟩
    · rintro error ⟨⟩
    · rintro error ⟨⟩
  | error error stop =>
    have hs : strict = (.error error, stop) := analyze_eq_of_error hstrict
    rcases htightens.error hstrict with hplain | ⟨i, c, hi, hrejects⟩
    · have hp : plain = (.error error, stop) := analyze_eq_of_error hplain
      rw [hs, hp]
      refine ⟨.refl stop, ?_, fun _ _ => ⟨error, rfl⟩, fun error' herror => ?_⟩
      · rintro ⟨⟩
      · exact .inl ⟨herror, rfl, rfl⟩
    · have hp : plain.2 = _ := analyze_snd program false earlier'
      rw [← hp, show Analysis.initial.resolutions.size + i = i from Nat.zero_add i] at hrejects
      rw [hs]
      refine ⟨hrejects.extends_, ?_, fun _ _ => ⟨error, rfl⟩, ?_⟩
      · rintro ⟨⟩
      · rintro _ ⟨⟩
        exact .inr ⟨i, c, hi, hrejects.passed, hrejects.error⟩

end Program

end LusoPascal
