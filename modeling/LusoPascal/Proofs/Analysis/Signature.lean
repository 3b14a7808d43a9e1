import LusoPascal.Proofs.Analysis.Strictness

/-!
# A strict analysis accepts the calls that fit

The symbol of a procedure is filed with no parameters and gets them later, in the scope around its
own. At every call the table nevertheless holds the parameters of the whole heading: while they are
missing, the symbol is that of a heading without parameters, and no call stands there.

* `Binds`: a symbol says all that a meaning says, its parameters included;
* `SymbolTable.BindsAll`: the open scopes say what the frames of an environment say;
* `SymbolTable.BindsAll.setEnclosingParams`: how the symbol of a procedure becomes complete;
* `Judges`: what a strict analysis makes of a part that a plain one accepts;
* **`call_judges`**, **`statement_judges`**, **`declaration_judges`**: every part of a program;
* **`Program.analyze_strict_iff`**: whole programs.
-/

namespace LusoPascal

/-! ## Complete signatures -/

/-- A parameter is kept with the type that it is declared with. -/
def TypedName.Keeps (param : TypedIdentifier) (entry : TypedName) : Prop :=
  param.baseType? = some entry.type

/-- A symbol filed under a name says all that a meaning says: a type is filed under its own word,
and a procedure with a list of parameters that are kept from its heading. -/
inductive Binds : String → Symbol → Meaning → Prop
  | var (name : String) (entry : TypedName) : Binds name (.var entry) (.var entry.type)
  | procedure (name : String) {heading : Heading} {params : List TypedName}
      (h : List.Forall₂ TypedName.Keeps heading.params params) :
      Binds name (.procedure heading.name params) (.procedure heading)
  | type (type : BaseType) : Binds type.word (.type type) (.type type)

theorem Binds.exists_params {name : String} {symbol : Symbol} {heading : Heading}
    (h : Binds name symbol (.procedure heading)) :
    ∃ params, symbol = .procedure heading.name params ∧
      List.Forall₂ TypedName.Keeps heading.params params := by
  cases h with
  | procedure _ hparams => exact ⟨_, rfl, hparams⟩

theorem Binds.exists_heading {name called : String} {params : List TypedName} {meaning : Meaning}
    (h : Binds name (.procedure called params) meaning) :
    ∃ heading, meaning = .procedure heading := by
  cases h with
  | procedure => exact ⟨_, rfl⟩

/-- A scope says what a frame says about every name. -/
def Scope.BindsAll (scope : Scope) (frame : Frame) : Prop :=
  ∀ name, Option.Rel (Binds name) (scope.get? name) (frame.meaning? name)

namespace Scope.BindsAll

variable {scope : Scope} {frame : Frame}

theorem define (h : scope.BindsAll frame) {symbol : Symbol} {meaning : Meaning}
    (hs : Binds symbol.name symbol meaning) :
    (scope.define symbol).BindsAll (frame.declare symbol.name meaning) := by
  intro name
  rw [Scope.get?_define, Frame.meaning?, Frame.declare, lookup_cons_eq_ite]
  by_cases hname : name = symbol.name
  · rw [if_pos hname, if_pos hname, hname]
    exact .some hs
  · rw [if_neg hname, if_neg hname]
    exact h name

theorem setParams {heading : Heading}
    (h : scope.BindsAll (frame.declare heading.name (.procedure { heading with params := [] })))
    {params : List TypedName} (hparams : List.Forall₂ TypedName.Keeps heading.params params) :
    (scope.setParams heading.name params).BindsAll
      (frame.declare heading.name (.procedure heading)) := by
  intro name
  have hname := h name
  rw [Frame.meaning?, Frame.declare, lookup_cons_eq_ite] at hname ⊢
  rw [Scope.get?_setParams]
  by_cases hsame : name = heading.name
  · rw [if_pos hsame] at hname ⊢
    rw [if_pos hsame]
    generalize scope.get? name = found at hname
    cases hname with
    | some hs =>
      cases hs with
      | procedure => exact .some (.procedure name hparams)
  · rw [if_neg hsame] at hname ⊢
    rw [if_neg hsame]
    exact hname

theorem outermost : (Scope.outermost "global").BindsAll .global := by
  intro name
  change Option.Rel (Binds name)
    ([("inteiro", Symbol.type .inteiro), ("logico", .type .logico)].lookup name)
    ([("inteiro", Meaning.type .inteiro), ("logico", .type .logico)].lookup name)
  rw [lookup_cons_eq_ite, lookup_cons_eq_ite, lookup_cons_eq_ite, lookup_cons_eq_ite]
  by_cases hinteiro : name = "inteiro"
  · rw [if_pos hinteiro, if_pos hinteiro, hinteiro]
    exact .some (.type .inteiro)
  · by_cases hlogico : name = "logico"
    · rw [if_neg hinteiro, if_pos hlogico, if_neg hinteiro, if_pos hlogico, hlogico]
      exact .some (.type .logico)
    · rw [if_neg hinteiro, if_neg hlogico, if_neg hinteiro, if_neg hlogico]
      exact .none

end Scope.BindsAll

/-- The open scopes of a table say what the frames of an environment say. -/
def SymbolTable.BindsAll (table : SymbolTable) (env : Environment) : Prop :=
  List.Forall₂ Scope.BindsAll table.scopes env

namespace SymbolTable.BindsAll

variable {table : SymbolTable} {env outer : Environment} {frame : Frame}

theorem resolve (h : table.BindsAll env) (name : String) :
    Option.Rel (fun found meant => Binds name found.1 meant.1)
      (table.resolve? name) (env.meaning? name) := by
  obtain ⟨scopes⟩ := table
  replace h : List.Forall₂ Scope.BindsAll scopes env := h
  induction h with
  | nil => exact .none
  | @cons scope frame scopes env hs _ ih =>
    rw [SymbolTable.resolve?_cons, Environment.meaning?]
    have hname := hs name
    generalize scope.get? name = found at hname
    generalize frame.meaning? name = meant at hname
    cases hname with
    | some hm => exact .some hm
    | none => exact ih

theorem lookup (h : table.BindsAll env) (name : String) :
    Option.Rel (Binds name) (table.lookup? name) ((env.meaning? name).map Prod.fst) := by
  have hfound := h.resolve name
  rw [SymbolTable.lookup?]
  generalize table.resolve? name = found at hfound
  generalize env.meaning? name = meant at hfound
  cases hfound with
  | some hm => exact .some hm
  | none => exact .none

theorem ofWord?_eq (h : table.BindsAll env) {word : String} {type : BaseType}
    (hword : table.lookup? word = some (.type type)) : BaseType.ofWord? word = some type := by
  have hfound := h.lookup word
  rw [hword] at hfound
  generalize (env.meaning? word).map Prod.fst = meant at hfound
  cases hfound with
  | some hs =>
    cases hs with
    | type => cases type <;> rfl

theorem push (h : table.BindsAll (frame :: outer)) (name : String) :
    (table.push name).BindsAll (frame.inside name :: frame :: outer) := by
  obtain ⟨scopes⟩ := table
  replace h : List.Forall₂ Scope.BindsAll scopes (frame :: outer) := h
  cases h with
  | cons hs hscopes => exact .cons (fun _ => .none) (.cons hs hscopes)

theorem pop? (h : table.BindsAll (frame :: outer)) :
    ∃ scope table', table.pop? = some (scope, table') ∧ table'.BindsAll outer := by
  obtain ⟨scopes⟩ := table
  replace h : List.Forall₂ Scope.BindsAll scopes (frame :: outer) := h
  cases h with
  | @cons scope _ scopes _ _ hscopes => exact ⟨scope, ⟨scopes⟩, rfl, hscopes⟩

theorem define? (h : table.BindsAll (frame :: outer)) {symbol : Symbol} {meaning : Meaning}
    (hs : Binds symbol.name symbol meaning) :
    ∃ table', table.define? symbol = some table' ∧
      table'.BindsAll (frame.declare symbol.name meaning :: outer) := by
  obtain ⟨scopes⟩ := table
  replace h : List.Forall₂ Scope.BindsAll scopes (frame :: outer) := h
  cases h with
  | cons hscope hscopes => exact ⟨_, rfl, .cons (hscope.define hs) hscopes⟩

theorem setEnclosingParams {inside : Frame} {heading : Heading} {params : List TypedName}
    (h : table.BindsAll (inside ::
      frame.declare heading.name (.procedure { heading with params := [] }) :: outer))
    (hparams : List.Forall₂ TypedName.Keeps heading.params params) :
    (table.setEnclosingParams heading.name params).BindsAll
      (inside :: frame.declare heading.name (.procedure heading) :: outer) := by
  obtain ⟨scopes⟩ := table
  cases h with
  | cons hinside hscopes =>
    cases hscopes with
    | cons henclosing hscopes => exact .cons hinside (.cons (henclosing.setParams hparams) hscopes)

end SymbolTable.BindsAll

/-! ## What a strict analysis makes of an accepted part -/

namespace Analyzer

variable {α β : Type}

/-- Where the plain analyzer succeeds, the table it leaves is as wanted, and the strict analyzer
either ends in the same way or stops at the first of the calls that does not fit. -/
def Judges (strict plain : Analyzer α) (sites : List CallSite) (Wanted : α → SymbolTable → Prop)
    (before : Analysis) : Prop :=
  ∀ a after, plain before = .ok a after → Wanted a after.table ∧
    match sites.findSome? CallSite.error? with
    | none => strict before = .ok a after
    | some error => ∃ stop, strict before = .error error stop

namespace Judges

variable {p p' : Analyzer α} {q q' : α → Analyzer β} {sites more : List CallSite}
  {P P' : α → SymbolTable → Prop} {Q : β → SymbolTable → Prop} {before : Analysis}

/-- A step that is the same in both analyses. -/
theorem same (h : ∀ a after, p before = .ok a after → P a after.table) :
    Judges p p [] P before :=
  fun a after hrun => ⟨h a after hrun, hrun⟩

theorem bind (hp : Judges p p' sites P before)
    (hq : ∀ a after, P a after.table → Judges (q a) (q' a) more Q after) :
    Judges (p >>= q) (p' >>= q') (sites ++ more) Q before := by
  intro b after hrun
  obtain ⟨a, between, hfirst, hsecond⟩ := bind_eq_ok.mp hrun
  obtain ⟨hP, hstrict⟩ := hp a between hfirst
  obtain ⟨hQ, hstrict'⟩ := hq a between hP b after hsecond
  refine ⟨hQ, ?_⟩
  rw [List.findSome?_append]
  cases hsites : sites.findSome? CallSite.error? with
  | some error =>
    rw [hsites] at hstrict
    obtain ⟨stop, hstop⟩ := hstrict
    exact ⟨stop, by rw [bind_apply, hstop]⟩
  | none =>
    rw [hsites] at hstrict
    have hbind : (p >>= q) before = q a between := by rw [bind_apply, hstrict]
    rw [hbind]
    exact hstrict'

theorem bind_nil (hp : Judges p p' sites P before)
    (hq : ∀ a after, P a after.table → Judges (q a) (q' a) [] Q after) :
    Judges (p >>= q) (p' >>= q') sites Q before := by
  rw [← List.append_nil sites]
  exact hp.bind hq

theorem pure {a : α} (h : P a before.table) : Judges (pure a) (pure a) [] P before := by
  apply same
  rintro _ _ ⟨⟩
  exact h

theorem fail_bind {violation : Violation} {line : Nat} :
    Judges ((Analyzer.fail violation line : Analyzer α) >>= q)
      ((Analyzer.fail violation line : Analyzer α) >>= q') sites Q before := by
  rintro a after ⟨⟩

end Judges

/-! ## The parts of a program -/

section Table

variable {before : Analysis} {outer : Environment} {frame : Frame}

theorem isTaken_judges (h : before.table.BindsAll (frame :: outer)) (name : String) :
    Judges (isTaken name) (isTaken name) [] (fun _ table => table.BindsAll (frame :: outer))
      before := by
  apply Judges.same
  rintro _ _ ⟨⟩
  exact h

theorem define_judges (h : before.table.BindsAll (frame :: outer)) {symbol : Symbol}
    {meaning : Meaning} (hs : Binds symbol.name symbol meaning) :
    Judges (define symbol) (define symbol) []
      (fun _ table => table.BindsAll (frame.declare symbol.name meaning :: outer)) before := by
  apply Judges.same
  intro _ after hrun
  obtain ⟨table, hdefine, htable⟩ := h.define? hs
  rw [define_apply, hdefine] at hrun
  cases hrun
  exact htable

theorem leave_judges (h : before.table.BindsAll (frame :: outer)) :
    Judges leave leave [] (fun _ table => table.BindsAll outer) before := by
  apply Judges.same
  intro _ after hrun
  obtain ⟨scope, table, hpop, htable⟩ := h.pop?
  rw [leave_apply, hpop] at hrun
  cases hrun
  exact htable

theorem enter_judges (h : before.table.BindsAll (frame :: outer)) (name : String) :
    Judges (enter name) (enter name) []
      (fun _ table => table.BindsAll (frame.inside name :: frame :: outer)) before := by
  apply Judges.same
  rintro _ _ ⟨⟩
  exact h.push name

theorem setEnclosingParams_judges {inside : Frame} {heading : Heading} {params : List TypedName}
    (h : before.table.BindsAll (inside ::
      frame.declare heading.name (.procedure { heading with params := [] }) :: outer))
    (hparams : List.Forall₂ TypedName.Keeps heading.params params) :
    Judges (setEnclosingParams heading.name params) (setEnclosingParams heading.name params) []
      (fun _ table => table.BindsAll
        (inside :: frame.declare heading.name (.procedure heading) :: outer)) before := by
  apply Judges.same
  rintro _ _ ⟨⟩
  exact h.setEnclosingParams hparams

theorem typeNamed_judges (h : before.table.BindsAll (frame :: outer)) (type : TypeName)
    (line : Nat) :
    Judges (typeNamed type line) (typeNamed type line) []
      (fun found table => BaseType.ofWord? type.name = some found ∧
        table.BindsAll (frame :: outer)) before := by
  apply Judges.same
  intro found after hrun
  rw [typeNamed, lookup?_bind] at hrun
  cases hword : before.table.lookup? type.name with
  | none =>
    rw [hword] at hrun
    cases hrun
  | some symbol =>
    rw [hword] at hrun
    cases symbol with
    | type builtin =>
      cases hrun
      exact ⟨h.ofWord?_eq hword, h⟩
    | var | procedure | constant => cases hrun

theorem declare_judges (h : before.table.BindsAll (frame :: outer)) (entry : TypedIdentifier) :
    Judges (declare entry) (declare entry) []
      (fun typed table => TypedName.Keeps entry typed ∧
        table.BindsAll (frame.declareEntry entry :: outer)) before := by
  apply (typeNamed_judges h entry.type entry.ident.line).bind
  rintro type after ⟨htype, h⟩
  apply (isTaken_judges h entry.ident.name).bind
  intro taken after h
  split
  · exact .fail_bind
  · have hframe : frame.declareEntry entry = frame.declare entry.ident.name (.var type) := by
      rw [Frame.declareEntry, TypedIdentifier.baseType?, htype]
    rw [hframe]
    exact (define_judges h (.var _ ⟨entry.ident.name, type⟩)).bind fun _ _ h => .pure ⟨htype, h⟩

theorem declareAll_judges (h : before.table.BindsAll (frame :: outer))
    (entries : List TypedIdentifier) :
    Judges (declareAll entries) (declareAll entries) []
      (fun typed table => List.Forall₂ TypedName.Keeps entries typed ∧
        table.BindsAll (entries.foldl Frame.declareEntry frame :: outer)) before := by
  induction entries generalizing before frame with
  | nil => exact .pure ⟨.nil, h⟩
  | cons entry rest ih =>
    apply (declare_judges h entry).bind
    rintro typed after ⟨hentry, h⟩
    apply (ih h).bind
    rintro typed after ⟨hrest, h⟩
    exact .pure ⟨.cons hentry hrest, h⟩

end Table

/-! ## References and calls -/

section References

variable {before : Analysis} {env : Environment}

/-- The table still says what the environment says. -/
abbrev Kept (env : Environment) : Unit → SymbolTable → Prop := fun _ table => table.BindsAll env

theorem reference_judges (h : before.table.BindsAll env) (ident : Identifier) :
    Judges (reference ident) (reference ident) [] (Kept env) before := by
  apply Judges.same
  intro _ after hrun
  cases hfound : before.table.resolve? ident.name with
  | none =>
    rw [reference_of_none hfound] at hrun
    cases hrun
  | some found =>
    rw [reference_of_some hfound] at hrun
    cases hrun
    exact h

theorem expression_judges (h : before.table.BindsAll env) (x : Expression) :
    Judges (expression x) (expression x) [] (Kept env) before := by
  induction x generalizing before with
  | binary left op right ihl ihr => exact (ihl h).bind fun _ _ h => ihr h
  | unary op operand ih => exact ih h
  | number | boolean => exact .pure h
  | var ident => exact reference_judges h ident

theorem matchArguments_eq (h : before.table.BindsAll env) (c : Call) (args : List String)
    {params : List TypedIdentifier} {typed : List TypedName}
    (hparams : List.Forall₂ TypedName.Keeps params typed) :
    matchArguments c args typed before =
      match (args.zip params).findSome? fun pair => CallSite.misfit? ⟨env, c⟩ pair.1 pair.2 with
      | none => .ok () before
      | some violation => .error ⟨violation, c.line⟩ before := by
  induction hparams generalizing args with
  | nil =>
    rw [List.zip_nil_right]
    cases args <;> rfl
  | @cons param entry params typed hparam hparams ih =>
    cases args with
    | nil => rfl
    | cons argument args =>
      rw [matchArguments, lookup?_bind, List.zip_cons_cons, List.findSome?_cons]
      have hparam' : param.baseType? = some entry.type := hparam
      have hfound := h.lookup argument
      rw [CallSite.misfit?, hparam']
      dsimp only
      generalize before.table.lookup? argument = found at hfound
      cases hmeaning : env.meaning? argument with
      | none =>
        rw [hmeaning] at hfound
        cases hfound with
        | none => rfl
      | some meant =>
        rw [hmeaning] at hfound
        obtain ⟨meaning, frame⟩ := meant
        cases hfound with
        | some hs =>
          cases hs with
          | var name filed =>
            by_cases hsame : filed.type = entry.type
            · dsimp only
              rw [if_neg (not_not_intro hsame), if_pos hsame]
              exact ih args
            · dsimp only
              rw [if_pos hsame, if_neg hsame]
              rfl
          | procedure | type => rfl

theorem matchSignature_eq (h : before.table.BindsAll env) (c : Call)
    {heading : Heading} {frame : Frame} {typed : List TypedName}
    (hcallee : env.meaning? c.name = some (.procedure heading, frame))
    (hparams : List.Forall₂ TypedName.Keeps heading.params typed) :
    matchSignature c typed before =
      match CallSite.error? ⟨env, c⟩ with
      | none => .ok () before
      | some error => .error error before := by
  rw [matchSignature, CallSite.error?, CallSite.violation?, hcallee, ← hparams.length_eq]
  by_cases hlength : c.args.length = heading.params.length
  · dsimp only
    rw [if_neg (not_not_intro hlength), if_pos hlength, CallSite.misfits?]
    refine (matchArguments_eq h c c.args hparams).trans ?_
    cases (c.args.zip heading.params).findSome? fun pair =>
      CallSite.misfit? ⟨env, c⟩ pair.1 pair.2 <;> rfl
  · dsimp only
    rw [if_pos hlength, if_neg hlength]
    rfl

/-- A strict analysis goes on behind a call exactly if the call fits. -/
theorem call_judges (h : before.table.BindsAll env) (c : Call) :
    Judges (call true c) (call false c) [⟨env, c⟩] (Kept env) before := by
  intro _ after hrun
  cases hresolve : before.table.resolve? c.name with
  | none =>
    rw [call_of_none false hresolve] at hrun
    cases hrun
  | some found =>
    obtain ⟨symbol, scope⟩ := found
    rw [call_false_of_some hresolve] at hrun
    cases hrun
    refine ⟨h, ?_⟩
    rw [List.findSome?_cons, List.findSome?_nil]
    have hfound := h.resolve c.name
    rw [hresolve] at hfound
    cases hmeaning : env.meaning? c.name with
    | none =>
      rw [hmeaning] at hfound
      cases hfound
    | some meant =>
      obtain ⟨meaning, frame⟩ := meant
      rw [hmeaning] at hfound
      cases hfound with
      | some hs =>
        by_cases hprocedure : ∃ heading, meaning = .procedure heading
        · obtain ⟨heading, rfl⟩ := hprocedure
          obtain ⟨params, rfl, hparams⟩ := hs.exists_params
          have hkept : ((record c.name c.line scope).final before).table.BindsAll env := h
          rw [call_true_of_procedure hresolve, matchSignature_eq hkept c hmeaning hparams]
          cases CallSite.error? ⟨env, c⟩ with
          | none => rfl
          | some error => exact ⟨_, rfl⟩
        · have hother : ∀ name params, symbol ≠ .procedure name params := by
            rintro name params rfl
            exact hprocedure hs.exists_heading
          have herror : CallSite.error? ⟨env, c⟩ = some ⟨.notProcedure c.name, c.line⟩ := by
            rw [CallSite.error?, CallSite.violation?, hmeaning]
            cases meaning with
            | procedure heading => exact absurd ⟨heading, rfl⟩ hprocedure
            | var | type => rfl
          rw [herror]
          exact ⟨_, call_true_of_other hresolve hother⟩

theorem Judges.append {p p' q q' : Analyzer Unit} {references more : List Reference}
    (hp : Judges p p' (env.callSites references) (Kept env) before)
    (hq : ∀ after : Analysis, after.table.BindsAll env →
      Judges q q' (env.callSites more) (Kept env) after) :
    Judges (p >>= fun _ => q) (p' >>= fun _ => q') (env.callSites (references ++ more)) (Kept env)
      before := by
  rw [Environment.callSites_append]
  exact hp.bind fun _ after h => hq after h

theorem condition_judges (h : before.table.BindsAll env) (x : Expression) :
    Judges (expression x) (expression x) (env.callSites x.references) (Kept env) before := by
  rw [Environment.callSites_expression]
  exact expression_judges h x

mutual

theorem statement_judges {before : Analysis} {env : Environment} (h : before.table.BindsAll env)
    (s : Statement) :
    Judges (statement true s) (statement false s) (env.callSites s.references) (Kept env)
      before := by
  match s with
  | .compound children => exact statements_judge h children
  | .assign target op value =>
    exact (reference_judges h target).bind fun _ _ h => condition_judges h value
  | .ifThen condition thenBranch =>
    exact (condition_judges h condition).append fun _ h => statement_judges h thenBranch
  | .ifThenElse condition thenBranch elseBranch =>
    exact (condition_judges h condition).append fun _ h =>
      (statement_judges h thenBranch).append fun _ h => statement_judges h elseBranch
  | .loop condition body =>
    exact (condition_judges h condition).append fun _ h => statement_judges h body
  | .call c => exact call_judges h c
  | .empty => exact .pure h

theorem statements_judge {before : Analysis} {env : Environment} (h : before.table.BindsAll env)
    (ss : List Statement) :
    Judges (statements true ss) (statements false ss) (env.callSites (Statement.allReferences ss))
      (Kept env) before := by
  match ss with
  | [] => exact .pure h
  | s :: ss => exact (statement_judges h s).append fun _ h => statements_judge h ss

end

end References

/-! ## Declarations -/

mutual

/-- A strict analysis goes on behind a declaration exactly if the calls in it fit. While its
parameters are analysed, a procedure is known by a heading without parameters. -/
theorem declaration_judges {before : Analysis} {outer : Environment} {frame : Frame}
    (h : before.table.BindsAll (frame :: outer)) (d : Declaration) :
    Judges (declaration true d) (declaration false d) (d.callSites outer frame)
      (fun _ table => table.BindsAll (frame.after d :: outer)) before := by
  match d with
  | .var entry => exact (declare_judges h entry).bind fun _ _ h => .pure h.2
  | .procedure heading inner body =>
    rw [← List.nil_append (Declaration.callSites _ _ _)]
    refine (isTaken_judges h heading.name).bind fun taken _ h => ?_
    cases taken with
    | true => exact .fail_bind
    | false =>
      have hnone : List.Forall₂ TypedName.Keeps { heading with params := [] }.params [] := .nil
      have hempty : Binds (Symbol.procedure heading.name []).name (.procedure heading.name [])
          (.procedure { heading with params := [] }) := .procedure heading.name hnone
      refine (define_judges h hempty).bind fun _ _ h => ?_
      refine (enter_judges h heading.name).bind fun _ _ h => ?_
      refine (declareAll_judges h heading.params).bind fun params _ ⟨hparams, h⟩ => ?_
      refine (setEnclosingParams_judges h hparams).bind fun _ _ h => ?_
      refine (declarations_judge h inner).bind fun _ _ h => ?_
      exact (statements_judge h body).bind_nil fun _ _ h => leave_judges h

theorem declarations_judge {before : Analysis} {outer : Environment} {frame : Frame}
    (h : before.table.BindsAll (frame :: outer)) (ds : List Declaration) :
    Judges (declarations true ds) (declarations false ds)
      (Declaration.allCallSites outer frame ds)
      (fun _ table => table.BindsAll (ds.foldl Frame.after frame :: outer)) before := by
  match ds with
  | [] => exact .pure h
  | d :: ds => exact (declaration_judges h d).bind fun _ _ h => declarations_judge h ds

end

theorem program_judges (p : Program) :
    Judges (enter "global" >>= fun _ => block true p.block >>= fun _ => leave)
      (enter "global" >>= fun _ => block false p.block >>= fun _ => leave) p.callSites
      (fun _ _ => True) Analysis.initial := by
  have henter : Judges (enter "global") (enter "global") []
      (fun _ table => table.BindsAll [.global]) Analysis.initial := by
    apply Judges.same
    rintro _ _ ⟨⟩
    exact .cons Scope.BindsAll.outermost .nil
  refine henter.bind fun _ _ h => ?_
  have hblock := (declarations_judge h p.block.declarations).bind fun _ _ h =>
    statements_judge h p.block.body
  exact hblock.bind_nil fun _ _ _ => .same fun _ _ _ => trivial

end Analyzer

namespace Program

theorem plain_ok_of_strict_ok {program : Program} {earlier earlier' : Analysis}
    (h : (program.analyze true earlier).1 = .ok ()) :
    (program.analyze false earlier').1 = .ok () := by
  cases hrun : (Analyzer.enter "global" >>= fun _ =>
      Analyzer.block true program.block >>= fun _ => Analyzer.leave) Analysis.initial with
  | ok _ after => rw [analyze_eq_of_ok ((Analyzer.program_tightens program).ok hrun).1]
  | error error after =>
    rw [analyze_eq_of_error hrun] at h
    cases h

/-- **A strict analysis accepts exactly the accepted programs whose calls all fit**, and reports
what is wrong with the first call that does not. -/
theorem analyze_strict_iff (program : Program) (earlier earlier' : Analysis) :
    ((program.analyze true earlier).1 = .ok () ↔
      (program.analyze false earlier').1 = .ok () ∧ ∀ site ∈ program.callSites, site.Fits) ∧
    ((program.analyze false earlier').1 = .ok () →
      (program.analyze true earlier).1 =
        match program.callSites.findSome? CallSite.error? with
        | none => .ok ()
        | some error => .error error) := by
  have hstrict : (program.analyze false earlier').1 = .ok () →
      (program.analyze true earlier).1 =
        match program.callSites.findSome? CallSite.error? with
        | none => .ok ()
        | some error => .error error := by
    intro hplain
    cases hrun : (Analyzer.enter "global" >>= fun _ =>
        Analyzer.block false program.block >>= fun _ => Analyzer.leave) Analysis.initial with
    | error error after =>
      rw [analyze_eq_of_error hrun] at hplain
      cases hplain
    | ok _ after =>
      have hjudges := (Analyzer.program_judges program () after hrun).2
      cases hsites : program.callSites.findSome? CallSite.error? with
      | none =>
        rw [hsites] at hjudges
        rw [analyze_eq_of_ok hjudges]
      | some error =>
        rw [hsites] at hjudges
        obtain ⟨stop, hstop⟩ := hjudges
        rw [analyze_eq_of_error hstop]
  have hfits : program.callSites.findSome? CallSite.error? = none ↔
      ∀ site ∈ program.callSites, site.Fits := by
    rw [List.findSome?_eq_none_iff]
    exact forall₂_congr fun site _ => CallSite.error?_eq_none_iff
  refine ⟨⟨fun hok => ?_, fun ⟨hplain, hall⟩ => ?_⟩, hstrict⟩
  · have hplain : (program.analyze false earlier').1 = .ok () :=
      plain_ok_of_strict_ok hok
    refine ⟨hplain, hfits.mp ?_⟩
    have herror := (hstrict hplain).symm.trans hok
    cases hsites : program.callSites.findSome? CallSite.error? with
    | none => rfl
    | some error =>
      rw [hsites] at herror
      cases herror
  · rw [hstrict hplain, hfits.mpr hall]

end Program

end LusoPascal
