import LusoPascal.Proofs.Analysis.Discipline
import LusoPascal.Proofs.Run.Parallel
import LusoPascal.Proofs.Scope.Relabel
import Mathlib.Logic.Equiv.Basic

/-!
# No decision of an analysis depends on the spelling of a name

An analysis compares names and looks them up, and it hands lines on. So the analyses of two programs
that are the same up to names and lines take the same steps on tables of scopes that are the same up
to names, record the same up to names and lines, and end with the same error if any. The outermost
scope is called `global` in both; it is told from a procedure of that name by its level.

* `SemanticError.relabel`, `Resolution.relabel`, `OpenedScope.relabel`: what is told of a program;
* `Analysis.Relabelled`, `Analyzer.Relabels`: the states on the way, and two analyzers in step;
* `lookup?_relabels`, `define_relabels`, **`inScope_relabels`**, and the like: the steps;
* **`statement_relabels`**, **`declaration_relabels`**: the parts of a program;
* `Program.analyze_reline`: whole programs on other lines;
* **`Program.analyze_relabel`**: whole programs under other names.
-/

namespace LusoPascal

section Records

variable (rule : Relabelling)

/-- A broken rule with other names. A word in place of a type is kept. -/
def Violation.relabel : Violation → Violation
  | redeclaredProcedure name => redeclaredProcedure (rule.name name)
  | redeclaredVariable name => redeclaredVariable (rule.name name)
  | unknownVariable name => unknownVariable (rule.name name)
  | unknownProcedure name => unknownProcedure (rule.name name)
  | unknownType name => unknownType name
  | notProcedure name => notProcedure (rule.name name)
  | argumentCount name expected found => argumentCount (rule.name name) expected found
  | argumentType procedure argument expected found =>
    argumentType (rule.name procedure) (rule.name argument) expected found
  | argumentNotVariable procedure argument =>
    argumentNotVariable (rule.name procedure) (rule.name argument)

/-- An error with other names. -/
def SemanticError.relabel (error : SemanticError) : SemanticError :=
  ⟨error.violation.relabel rule, rule.line error.line⟩

/-- A record of a reference with other names. -/
def Resolution.relabel (resolution : Resolution) : Resolution :=
  ⟨rule.name resolution.name, rule.line resolution.line,
    rule.scopeName resolution.level resolution.scope, resolution.level⟩

/-- A record of a scope with other names. The scope around it is one level up. -/
def OpenedScope.relabel (opened : OpenedScope) : OpenedScope :=
  ⟨rule.scopeName opened.level opened.name, opened.level,
    opened.enclosing.map (rule.scopeName (opened.level - 1))⟩

/-- The records of a second analysis that saw other names. -/
structure Analysis.Retold (after after' : Analysis) : Prop where
  scopes : after'.scopes = after.scopes.map (OpenedScope.relabel rule)
  resolutions : after'.resolutions = after.resolutions.map (Resolution.relabel rule)

/-- The state of a second analysis that sees other names, while more than `k` scopes are open. -/
structure Analysis.Relabelled (k : Nat) (before before' : Analysis) : Prop
    extends Retold rule before before' where
  table : before'.table = before.table.relabel rule
  isStack : before.table.IsStack
  isOpen : k < before.table.depth

theorem Analysis.Relabelled.mono {rule : Relabelling} {k l : Nat} {before before' : Analysis}
    (h : Relabelled rule k before before') (hle : l ≤ k) : Relabelled rule l before before' :=
  { h with isOpen := hle.trans_lt h.isOpen }

end Records

namespace Analyzer

open Analysis (Relabelled Retold)

variable {rule : Relabelling} {k : Nat} {α β γ : Type}

/-- From states that are the same up to names two analyzers end in such states, with the same error
up to names or with values of which `g` makes the second one from the first. -/
abbrev Relabels (rule : Relabelling) (k : Nat) (g : α → β) (p : Analyzer α) (p' : Analyzer β) :
    Prop :=
  Parallel (Relabelled rule k) (fun error error' => error' = error.relabel rule)
    (fun a a' => a' = g a) p p'

namespace Relabels

variable {δ : Type} {g : α → β} {g' : γ → δ} {p : Analyzer α} {p' : Analyzer β}
  {q : α → Analyzer γ} {q' : β → Analyzer δ}

theorem pure (g : α → β) (a : α) : Relabels rule k g (pure a) (pure (g a)) := Parallel.pure rfl

theorem bind (hp : Relabels rule k g p p') (hq : ∀ a, Relabels rule k g' (q a) (q' (g a))) :
    Relabels rule k g' (p >>= q) (p' >>= q') :=
  Parallel.bind hp fun a _ ha => ha ▸ hq a

theorem discard (hp : Relabels rule k g p p') :
    Relabels rule k id (discard p) (discard p') :=
  Parallel.map hp fun _ _ _ => rfl

theorem fail (g : α → β) (violation : Violation) (line : Nat) :
    Relabels rule k g (fail violation line)
      (Analyzer.fail (violation.relabel rule) (rule.line line)) :=
  Parallel.throw rfl

theorem fail_bind (violation : Violation) (line : Nat) :
    Relabels rule k g' ((Analyzer.fail violation line : Analyzer α) >>= q)
      ((Analyzer.fail (violation.relabel rule) (rule.line line) : Analyzer β) >>= q') :=
  fun _ _ h => .error rfl h

end Relabels

/-! ## Steps -/

theorem lookup?_relabels (name : String) :
    Relabels rule k (Option.map (Symbol.relabel rule)) (lookup? name)
      (lookup? (rule.name name)) := fun before before' h =>
  .ok (show before'.table.lookup? _ = _ by rw [h.table, SymbolTable.lookup?_relabel]) h

theorem resolve?_relabels (name : String) :
    Relabels rule k (Option.map (Prod.map (Symbol.relabel rule) (Scope.relabel rule)))
      (resolve? name) (resolve? (rule.name name)) := fun before before' h =>
  .ok (show before'.table.resolve? _ = _ by rw [h.table, SymbolTable.resolve?_relabel]) h

theorem isTaken_relabels (name : String) :
    Relabels rule k id (isTaken name) (isTaken (rule.name name)) := fun before before' h =>
  .ok (show (before'.table.lookupHere? _).isSome = _ by
    rw [h.table, SymbolTable.lookupHere?_relabel, Option.isSome_map]
    rfl) h

theorem record_relabels (name : String) (line : Nat) (scope : Scope) :
    Relabels rule k id (record name line scope)
      (record (rule.name name) (rule.line line) (scope.relabel rule)) := fun before before' h =>
  .ok rfl { h with
    resolutions := by
      dsimp only
      rw [h.resolutions, Array.map_push]
      rfl }

theorem define_relabels (symbol : Symbol) :
    Relabels rule k id (define symbol) (define (symbol.relabel rule)) := by
  intro before before' h
  rw [define_apply, define_apply, h.table, SymbolTable.define?_relabel]
  cases hdefine : before.table.define? symbol with
  | none => exact .ok rfl h
  | some table =>
    have hisStack : table.IsStack := h.isStack.step (.define symbol) hdefine
    have hisOpen : k < table.depth := SymbolTable.depth_of_define? hdefine ▸ h.isOpen
    exact .ok rfl ⟨⟨h.scopes, h.resolutions⟩, rfl, hisStack, hisOpen⟩

theorem setEnclosingParams_relabels (name : String) (params : List TypedName) :
    Relabels rule k id (setEnclosingParams name params)
      (setEnclosingParams (rule.name name) (params.map (TypedName.relabel rule))) := by
  intro before before' h
  refine .ok rfl ⟨⟨h.scopes, h.resolutions⟩, ?_,
    h.isStack.step (.setEnclosingParams name params) rfl, ?_⟩
  · dsimp only
    rw [h.table, SymbolTable.setEnclosingParams_relabel]
  · rw [SymbolTable.depth_setEnclosingParams]
    exact h.isOpen

/-! ## Scopes -/

/-- Open a scope, take some steps in it, and close it again. -/
def inScope (name : String) (p : Analyzer Unit) : Analyzer Unit := do
  enter name
  p
  leave

theorem enter_relabelled {before before' : Analysis} (h : Relabelled rule k before before')
    (name : String) :
    ∃ inside inside', enter name before = .ok () inside ∧
      enter (rule.name name) before' = .ok () inside' ∧ Relabelled rule (k + 1) inside inside' := by
  have hopened : (⟨rule.name name, (before'.table.newScope (rule.name name)).level,
      before'.table.current?.map Scope.name⟩ : OpenedScope) =
        OpenedScope.relabel rule ⟨name, (before.table.newScope name).level,
          before.table.current?.map Scope.name⟩ := by
    have hisOpen := h.isOpen
    have hisStack := h.isStack
    rw [h.table]
    obtain ⟨⟨_ | ⟨scope, outer⟩⟩, _, _, _⟩ := before
    · cases hisOpen
    · exact congrArg (fun name => OpenedScope.mk name _ _)
        (rule.scopeName_succ hisStack.level_pos name).symm
  refine ⟨_, _, rfl, rfl, ⟨?_, h.resolutions⟩, ?_, h.isStack.step (.push name) rfl,
    Nat.succ_lt_succ h.isOpen⟩
  · dsimp only
    rw [h.scopes, Array.map_push, hopened]
  · dsimp only
    rw [h.table, SymbolTable.push_relabel rule _ h.isStack (Nat.zero_lt_of_lt h.isOpen)]

theorem leave_relabelled {inside inside' : Analysis} (h : Relabelled rule (k + 1) inside inside') :
    ∃ after after', leave inside = .ok () after ∧ leave inside' = .ok () after' ∧
      Relabelled rule k after after' := by
  obtain ⟨⟨_ | ⟨scope, outer⟩⟩, scopes, resolutions, events⟩ := inside
  · cases h.isOpen
  · obtain ⟨table', scopes', resolutions', events'⟩ := inside'
    obtain rfl : table' = SymbolTable.relabel rule ⟨scope :: outer⟩ := h.table
    exact ⟨_, _, rfl, rfl, ⟨h.scopes, h.resolutions⟩, rfl, h.isStack.step .pop rfl,
      Nat.lt_of_succ_lt_succ h.isOpen⟩

/-- **What is done in a scope** is done in a scope of another name. -/
theorem inScope_relabels {p p' : Analyzer Unit} (name : String)
    (hp : Relabels rule (k + 1) id p p') :
    Relabels rule k id (inScope name p) (inScope (rule.name name) p') := by
  intro before before' h
  obtain ⟨inside, inside', henter, henter', hinside⟩ := enter_relabelled h name
  have hends := hp hinside
  rw [inScope, inScope, bind_apply, henter, bind_apply, henter']
  dsimp only
  rw [bind_apply, bind_apply]
  generalize p inside = result at hends ⊢
  generalize p' inside' = result' at hends ⊢
  cases hends with
  | ok _ hstate =>
    obtain ⟨after, after', hleave, hleave', hafter⟩ := leave_relabelled hstate
    dsimp only
    rw [hleave, hleave']
    exact .ok rfl hafter
  | error herror hstate => exact .error herror (hstate.mono (Nat.le_succ k))

/-! ## References and calls -/

theorem reference_relabels (ident : Identifier) :
    Relabels rule k id (reference ident) (reference (ident.relabel rule)) := by
  refine (resolve?_relabels ident.name).bind fun found => ?_
  rcases found with _ | ⟨symbol, scope⟩
  · exact .fail _ _ _
  · exact record_relabels _ _ _

theorem matchArguments_relabels (c : Call) (args : List String) (params : List TypedName) :
    Relabels rule k id (matchArguments c args params)
      (matchArguments (c.relabel rule) (args.map rule.name)
        (params.map (TypedName.relabel rule))) := by
  induction args generalizing params with
  | nil => exact .pure id ()
  | cons argument args ih =>
    cases params with
    | nil => exact .pure id ()
    | cons param params =>
      refine (lookup?_relabels argument).bind fun found => ?_
      rcases found with _ | entry | _ | _ | _
      · exact .fail _ _ _
      · exact Parallel.ite (Relabels.fail_bind _ _) (ih params)
      all_goals exact .fail _ _ _

theorem matchSignature_relabels (c : Call) (params : List TypedName) :
    Relabels rule k id (matchSignature c params)
      (matchSignature (c.relabel rule) (params.map (TypedName.relabel rule))) := by
  have hmatch : Relabels rule k id (matchArguments c c.args params) _ :=
    matchArguments_relabels c c.args params
  rw [matchSignature, matchSignature, Call.relabel, List.length_map, List.length_map]
  exact Parallel.ite (Relabels.fail_bind _ _) hmatch

theorem call_relabels (strict : Bool) (c : Call) :
    Relabels rule k id (call strict c) (call strict (c.relabel rule)) := by
  refine (resolve?_relabels c.name).bind fun found => ?_
  rcases found with _ | ⟨symbol, scope⟩
  · exact .fail _ _ _
  · refine Parallel.ite ?_ (record_relabels _ _ _)
    cases symbol with
    | procedure name params =>
      exact (record_relabels _ _ _).bind fun _ => matchSignature_relabels c params
    | var | constant | type => exact Relabels.fail _ (.notProcedure c.name) c.line

theorem expression_relabels (x : Expression) :
    Relabels rule k id (expression x) (expression (x.relabel rule)) := by
  induction x with
  | binary left op right ihl ihr => exact ihl.bind fun _ => ihr
  | unary op operand ih => exact ih
  | number | boolean => exact .pure id ()
  | var ident => exact reference_relabels ident

/-! ## Commands -/

section Statement

variable (strict : Bool)

mutual

theorem statement_relabels (s : Statement) :
    Relabels rule k id (statement strict s) (statement strict (s.relabel rule)) := by
  match s with
  | .compound children =>
    rw [Statement.relabel, statement, statement]
    exact statements_relabels children
  | .assign target op value =>
    rw [Statement.relabel, statement, statement]
    exact (reference_relabels target).bind fun _ => expression_relabels value
  | .ifThen condition thenBranch =>
    rw [Statement.relabel, statement, statement]
    exact (expression_relabels condition).bind fun _ => statement_relabels thenBranch
  | .ifThenElse condition thenBranch elseBranch =>
    rw [Statement.relabel, statement, statement]
    exact (expression_relabels condition).bind fun _ =>
      (statement_relabels thenBranch).bind fun _ => statement_relabels elseBranch
  | .loop condition body =>
    rw [Statement.relabel, statement, statement]
    exact (expression_relabels condition).bind fun _ => statement_relabels body
  | .call c =>
    rw [Statement.relabel, statement, statement]
    exact call_relabels strict c
  | .empty =>
    rw [Statement.relabel, statement]
    exact .pure id ()

theorem statements_relabels (ss : List Statement) :
    Relabels rule k id (statements strict ss)
      (statements strict (Statement.relabelAll rule ss)) := by
  match ss with
  | [] => exact .pure id ()
  | s :: ss =>
    rw [Statement.relabelAll, statements, statements]
    exact (statement_relabels s).bind fun _ => statements_relabels ss

end

end Statement

/-! ## Declarations -/

/-- The word for a type is not changed, and stands for it under all names. -/
theorem typeNamed_relabels (type : TypeName) (line : Nat) :
    Relabels rule k id (typeNamed type line) (typeNamed type (rule.line line)) := by
  intro before before' h
  have hword (found : BaseType) : before'.table.lookup? type.name = some (.type found) ↔
      before.table.lookup? type.name = some (.type found) :=
    h.table ▸ SymbolTable.lookup?_relabel_eq_type_iff rule h.isStack
  have hmeets := typeNamed_meets type line before
  have hmeets' := typeNamed_meets type (rule.line line) before'
  rw [Meets] at hmeets hmeets'
  generalize typeNamed type line before = result at hmeets ⊢
  generalize typeNamed type (rule.line line) before' = result' at hmeets' ⊢
  cases result with
  | ok found after =>
    obtain ⟨rfl, hfound⟩ := hmeets
    cases result' with
    | ok found' after' =>
      obtain ⟨rfl, hfound'⟩ := hmeets'
      have hsame := hfound.symm.trans ((hword found').mp hfound')
      exact .ok (Symbol.type.inj (Option.some.inj hsame)).symm h
    | error error' stop' => exact absurd ((hword found).mpr hfound) (hmeets'.2.2 found)
  | error error stop =>
    obtain ⟨rfl, rfl, hnone⟩ := hmeets
    cases result' with
    | ok found' after' => exact absurd ((hword found').mp hmeets'.2) (hnone found')
    | error error' stop' =>
      obtain ⟨rfl, rfl, -⟩ := hmeets'
      exact .error rfl h

theorem declare_relabels (entry : TypedIdentifier) :
    Relabels rule k (TypedName.relabel rule) (declare entry) (declare (entry.relabel rule)) := by
  refine (typeNamed_relabels _ _).bind fun type => (isTaken_relabels _).bind fun taken => ?_
  refine Parallel.ite (Relabels.fail_bind _ _) ?_
  exact (define_relabels (.var ⟨entry.ident.name, type⟩)).bind fun _ => .pure _ _

theorem declareAll_relabels (entries : List TypedIdentifier) :
    Relabels rule k (List.map (TypedName.relabel rule)) (declareAll entries)
      (declareAll (entries.map (TypedIdentifier.relabel rule))) := by
  induction entries with
  | nil => exact .pure _ []
  | cons entry rest ih => exact (declare_relabels entry).bind fun _ => ih.bind fun _ => .pure _ _

/-- The name of a procedure is filed around its scope; all else is done in it. -/
theorem declaration_eq_inScope (strict : Bool) (heading : Heading) (inner : List Declaration)
    (body : List Statement) :
    declaration strict (.procedure heading inner body) = (do
      if ← isTaken heading.name then fail (.redeclaredProcedure heading.name) heading.line
      define (.procedure heading.name [])
      inScope heading.name (do
        let params ← declareAll heading.params
        setEnclosingParams heading.name params
        declarations strict inner
        statements strict body)) := by
  rw [declaration]
  simp only [inScope, bind_assoc]

section Declaration

variable (strict : Bool)

mutual

theorem declaration_relabels (k : Nat) (d : Declaration) :
    Relabels rule k id (declaration strict d) (declaration strict (d.relabel rule)) := by
  match d with
  | .var entry =>
    rw [Declaration.relabel, declaration, declaration]
    exact (declare_relabels entry).discard
  | .procedure heading inner body =>
    rw [Declaration.relabel, declaration_eq_inScope, declaration_eq_inScope]
    refine (isTaken_relabels _).bind fun taken => Parallel.ite (Relabels.fail_bind _ _) ?_
    refine (define_relabels (.procedure heading.name [])).bind fun _ => inScope_relabels _ ?_
    refine (declareAll_relabels heading.params).bind fun params => ?_
    refine (setEnclosingParams_relabels _ params).bind fun _ => ?_
    exact (declarations_relabels (k + 1) inner).bind fun _ => statements_relabels strict body

theorem declarations_relabels (k : Nat) (ds : List Declaration) :
    Relabels rule k id (declarations strict ds)
      (declarations strict (Declaration.relabelAll rule ds)) := by
  match ds with
  | [] => exact .pure id ()
  | d :: ds =>
    rw [Declaration.relabelAll, declarations, declarations]
    exact (declaration_relabels k d).bind fun _ => declarations_relabels k ds

end

theorem block_relabels (b : Block) :
    Relabels rule k id (block strict b) (block strict (b.relabel rule)) :=
  (declarations_relabels strict k b.declarations).bind fun _ => statements_relabels strict b.body

end Declaration

/-! ## Programs -/

theorem leave_retold {before before' : Analysis} (h : Retold rule before before') :
    ∃ after after', leave before = .ok () after ∧ leave before' = .ok () after' ∧
      Retold rule after after' := by
  obtain ⟨⟨_ | ⟨scope, outer⟩⟩, _, _, _⟩ := before <;>
    obtain ⟨⟨_ | ⟨scope', outer'⟩⟩, _, _, _⟩ := before' <;>
      exact ⟨_, _, rfl, rfl, h.scopes, h.resolutions⟩

variable (rule) in
theorem enter_global_relabelled :
    ∃ start, enter "global" .initial = .ok () start ∧ Relabelled rule 0 start start := by
  have hisStack : (SymbolTable.empty.push "global").IsStack :=
    SymbolTable.IsStack.empty.step (.push "global") rfl
  have htable : (SymbolTable.empty.push "global").relabel rule = SymbolTable.empty.push "global" :=
    congrArg (fun scope => SymbolTable.mk [scope]) (Scope.outermost_relabel rule)
  let start : Analysis :=
    ⟨SymbolTable.empty.push "global", #[⟨"global", 1, none⟩], #[], #[.entering "global" 1]⟩
  have hscopes : start.scopes.map (OpenedScope.relabel rule) = start.scopes := List.map_toArray ..
  exact ⟨start, rfl, ⟨hscopes.symm, Array.map_empty.symm⟩, htable.symm, hisStack, Nat.one_pos⟩

variable (rule) in
/-- **The analysis of a program under other names** takes the same steps. -/
theorem program_relabels (strict : Bool) (program : Program) (earlier earlier' : Analysis) :
    EndsAlike (Retold rule) (fun error error' => error' = error.relabel rule) (fun _ _ => True)
      (Analyzer.program strict program earlier)
      (Analyzer.program strict (program.relabel rule) earlier') := by
  obtain ⟨start, henter, hstart⟩ := enter_global_relabelled rule
  have hends := block_relabels strict program.block hstart
  rw [Program.program_apply henter, Program.program_apply henter, bind_apply, bind_apply,
    Program.relabel]
  generalize block strict program.block start = result at hends ⊢
  generalize block strict (program.block.relabel rule) start = result' at hends ⊢
  cases hends with
  | ok _ hstate =>
    obtain ⟨after, after', hleave, hleave', hafter⟩ := leave_retold hstate.toRetold
    dsimp only
    rw [hleave, hleave']
    exact .ok trivial hafter
  | error herror hstate => exact .error herror hstate.toRetold

end Analyzer

/-! ## Other lines alone -/

/-- An error on another line. -/
def SemanticError.reline (f : Nat → Nat) (error : SemanticError) : SemanticError :=
  ⟨error.violation, f error.line⟩

theorem SemanticError.relabel_ofLines (f : Nat → Nat) (error : SemanticError) :
    error.relabel (.ofLines f) = error.reline f := by
  obtain ⟨violation, line⟩ := error
  cases violation <;> rfl

/-- **The analysis of a program on other lines** ends as that of the program does, up to the line of
an error. -/
theorem Program.analyze_reline (f : Nat → Nat) (strict : Bool) (program : Program)
    (earlier : Analysis) :
    ((program.reline f).analyze strict earlier).1 =
      (program.analyze strict earlier).1.mapError (SemanticError.reline f) := by
  have hends := Analyzer.program_relabels (.ofLines f) strict program earlier earlier
  rw [relabel_ofLines] at hends
  rw [analyze, analyze]
  generalize Analyzer.program strict program earlier = result at hends ⊢
  generalize Analyzer.program strict (program.reline f) earlier = result' at hends ⊢
  cases hends with
  | ok => rfl
  | error herror =>
    rw [herror, SemanticError.relabel_ofLines]
    rfl

/-! ## Other names -/

/-- **The analysis of a program under other names** ends alike and records the same scopes and
references, up to the names. -/
theorem Program.analyze_relabel (rule : Relabelling) (strict : Bool) (program : Program)
    (earlier earlier' : Analysis) :
    let told := program.analyze strict earlier
    let retold := (program.relabel rule).analyze strict earlier'
    retold.1 = told.1.mapError (SemanticError.relabel rule) ∧
      retold.2.resolutions = told.2.resolutions.map (Resolution.relabel rule) ∧
      retold.2.scopes = told.2.scopes.map (OpenedScope.relabel rule) := by
  have hends := Analyzer.program_relabels rule strict program earlier earlier'
  rw [analyze, analyze]
  generalize Analyzer.program strict program earlier = result at hends ⊢
  generalize Analyzer.program strict (program.relabel rule) earlier' = result' at hends ⊢
  cases hends with
  | ok _ hstate => exact ⟨rfl, hstate.resolutions, hstate.scopes⟩
  | error herror hstate =>
    rw [herror]
    exact ⟨rfl, hstate.resolutions, hstate.scopes⟩

/-- A procedure called `global` gets another name, and the outermost scope keeps it. -/
theorem Program.analyze_relabel_global :
    let rule : Relabelling :=
      { name := Equiv.swap "global" "p", token := id, line := id,
        injective := (Equiv.swap "global" "p").injective,
        name_word := fun type => by cases type <;> decide }
    let program : Program := ⟨"q", [.procedure ⟨"global", [], 2⟩ [] []], [.call ⟨"global", [], 3⟩]⟩
    (program.analyze true .initial).2.scopes =
        #[⟨"global", 1, none⟩, ⟨"global", 2, some "global"⟩] ∧
      ((program.relabel rule).analyze true .initial).2.scopes =
        #[⟨"global", 1, none⟩, ⟨"p", 2, some "global"⟩] ∧
      ((program.relabel rule).analyze true .initial).2.resolutions = #[⟨"p", 3, "global", 1⟩] := by
  intro rule program
  obtain ⟨-, hresolutions, hscopes⟩ := program.analyze_relabel rule true .initial .initial
  refine ⟨by decide +kernel, ?_, ?_⟩
  · rw [hscopes]
    decide +kernel
  · rw [hresolutions]
    decide +kernel

end LusoPascal
