import LusoPascal.Proofs.Analysis.Simulation

/-!
# What an analysis does to its scopes

References and calls only look at the open scopes. A declaration files one name in the innermost of
them, or it is rejected before anything is filed.

* `Meets`: how an analyzer ends from one state, with rules for one analyzer after another;
* `Keeps`: an analyzer that leaves the open scopes alone and finds fault with no declaration;
* **`Inherited.statement`**: a property of the steps that commands are made of, and of commands;
* **`keeps_inherited`**: commands leave the open scopes alone;
* `declarations_append`, `declareAll_append`: some declarations after others;
* **`declare_meets`**, `openProcedure_meets`, `leave_meets`: the steps that change the scopes;
* `openProcedure`, `declareParams`, `declaration_procedure`: the parts of a procedure.
-/

namespace LusoPascal

/-- Whether a rule is about declarations: a name must be new in its scope, and a type known. -/
def Violation.isDeclaring : Violation → Bool
  | redeclaredProcedure _ | redeclaredVariable _ | unknownType _ => true
  | _ => false

namespace Analyzer

variable {α β : Type}

/-! ## How an analyzer ends -/

/-- From a state an analyzer ends with a result as it should, or stops at an error as it should. -/
def Meets (p : Analyzer α) (before : Analysis) (Done : α → Analysis → Prop)
    (Stopped : SemanticError → Analysis → Prop) : Prop :=
  match p before with
  | .ok a after => Done a after
  | .error error stop => Stopped error stop

namespace Meets

variable {p : Analyzer α} {q : α → Analyzer β} {before : Analysis}
  {Done Done' : α → Analysis → Prop} {Then : β → Analysis → Prop}
  {Stopped Stopped' : SemanticError → Analysis → Prop}

theorem mono (hp : Meets p before Done Stopped) (hdone : ∀ a after, Done a after → Done' a after)
    (hstopped : ∀ error stop, Stopped error stop → Stopped' error stop) :
    Meets p before Done' Stopped' := by
  rw [Meets] at hp ⊢
  cases hrun : p before with
  | ok a after => rw [hrun] at hp; exact hdone a after hp
  | error error stop => rw [hrun] at hp; exact hstopped error stop hp

/-- **One analyzer after another.** -/
theorem bind (hp : Meets p before Done Stopped)
    (hq : ∀ a between, Done a between → Meets (q a) between Then Stopped) :
    Meets (p >>= q) before Then Stopped := by
  rw [Meets] at hp ⊢
  rw [bind_apply]
  cases hrun : p before with
  | ok a between => rw [hrun] at hp; exact hq a between hp
  | error error stop => rw [hrun] at hp; exact hp

theorem pure {a : α} (h : Done a before) : Meets (pure a) before Done Stopped := h

theorem fail {violation : Violation} {line : Nat} (h : Stopped ⟨violation, line⟩ before) :
    Meets (fail violation line : Analyzer α) before Done Stopped := h

theorem fail_bind {violation : Violation} {line : Nat} (h : Stopped ⟨violation, line⟩ before) :
    Meets ((Analyzer.fail violation line : Analyzer α) >>= q) before Then Stopped := h

theorem lookup?_bind {name : String} {q : Option Symbol → Analyzer β}
    (hq : Meets (q (before.table.lookup? name)) before Then Stopped) :
    Meets (lookup? name >>= q) before Then Stopped := hq

theorem isTaken_bind {name : String} {q : Bool → Analyzer β}
    (hq : Meets (q (before.table.lookupHere? name).isSome) before Then Stopped) :
    Meets (isTaken name >>= q) before Then Stopped := hq

end Meets

theorem Meets.of_ok {p : Analyzer α} {before after : Analysis} {a : α}
    {Done : α → Analysis → Prop} {Stopped : SemanticError → Analysis → Prop}
    (hp : Meets p before Done Stopped) (hrun : p before = .ok a after) : Done a after := by
  rwa [Meets, hrun] at hp

theorem Meets.of_error {p : Analyzer α} {before stop : Analysis} {error : SemanticError}
    {Done : α → Analysis → Prop} {Stopped : SemanticError → Analysis → Prop}
    (hp : Meets p before Done Stopped) (hrun : p before = .error error stop) :
    Stopped error stop := by
  rwa [Meets, hrun] at hp

/-! ## References and calls -/

/-- An analyzer that leaves the open scopes alone, and finds fault with no declaration. -/
def Keeps (p : Analyzer α) : Prop :=
  ∀ before, Meets p before (fun _ after => after.table = before.table) fun error stop =>
    stop.table = before.table ∧ error.violation.isDeclaring = false

/-- A property that references, calls and commands inherit: it holds of the steps that they are made
of, of the errors that they find, and of one analyzer after another. -/
structure Inherited (P : {α : Type} → Analyzer α → Prop) : Prop where
  pure {α : Type} (a : α) : P (pure a)
  bind {α β : Type} {p : Analyzer α} {q : α → Analyzer β} (hp : P p) (hq : ∀ a, P (q a)) :
    P (p >>= q)
  fail {α : Type} {violation : Violation} (h : violation.isDeclaring = false) (line : Nat) :
    P (fail violation line : Analyzer α)
  lookup? (name : String) : P (lookup? name)
  resolve? (name : String) : P (resolve? name)
  record (name : String) (line : Nat) (scope : Scope) : P (record name line scope)

namespace Inherited

variable {P : {α : Type} → Analyzer α → Prop}

theorem reference (h : Inherited P) (ident : Identifier) : P (reference ident) := by
  refine h.bind (h.resolve? ident.name) fun found => ?_
  split
  · exact h.record _ _ _
  · exact h.fail rfl _

theorem matchArguments (h : Inherited P) (c : Call) (args : List String)
    (params : List TypedName) : P (matchArguments c args params) := by
  induction args generalizing params with
  | nil => exact h.pure ()
  | cons argument args ih =>
    cases params with
    | nil => exact h.pure ()
    | cons param params =>
      refine h.bind (h.lookup? argument) fun found => ?_
      split
      · split
        · exact h.bind (h.fail rfl _) fun _ => ih params
        · exact ih params
      · exact h.fail rfl _
      · exact h.fail rfl _

theorem matchSignature (h : Inherited P) (c : Call) (params : List TypedName) :
    P (matchSignature c params) := by
  rw [Analyzer.matchSignature]
  split
  · exact h.bind (h.fail rfl _) fun _ => h.matchArguments c _ _
  · exact h.matchArguments c _ _

theorem call (h : Inherited P) (strict : Bool) (c : Call) : P (call strict c) := by
  refine h.bind (h.resolve? c.name) fun found => ?_
  split
  · exact h.fail rfl _
  · split
    · split
      · exact h.bind (h.record _ _ _) fun _ => h.matchSignature c _
      · exact h.fail rfl _
    · exact h.record _ _ _

theorem expression (h : Inherited P) (x : Expression) : P (expression x) := by
  induction x with
  | binary left op right ihl ihr => exact h.bind ihl fun _ => ihr
  | unary op operand ih => exact ih
  | number | boolean => exact h.pure ()
  | var ident => exact h.reference ident

mutual

/-- **Commands inherit the property.** -/
theorem statement (h : Inherited P) (strict : Bool) (s : Statement) : P (statement strict s) := by
  match s with
  | .compound children => rw [Analyzer.statement]; exact h.statements strict children
  | .assign target op value =>
    rw [Analyzer.statement]
    exact h.bind (h.reference target) fun _ => h.expression value
  | .ifThen condition thenBranch =>
    rw [Analyzer.statement]
    exact h.bind (h.expression condition) fun _ => h.statement strict thenBranch
  | .ifThenElse condition thenBranch elseBranch =>
    rw [Analyzer.statement]
    refine h.bind (h.expression condition) fun _ => ?_
    exact h.bind (h.statement strict thenBranch) fun _ => h.statement strict elseBranch
  | .loop condition body =>
    rw [Analyzer.statement]
    exact h.bind (h.expression condition) fun _ => h.statement strict body
  | .call c => rw [Analyzer.statement]; exact h.call strict c
  | .empty => rw [Analyzer.statement]; exact h.pure ()

theorem statements (h : Inherited P) (strict : Bool) (ss : List Statement) :
    P (statements strict ss) := by
  match ss with
  | [] => exact h.pure ()
  | s :: ss => exact h.bind (h.statement strict s) fun _ => h.statements strict ss

end

end Inherited

/-- **Commands leave the open scopes alone**, whether they are accepted or not. -/
theorem keeps_inherited : Inherited Keeps where
  pure _ _ := rfl
  bind hp hq before := (hp before).bind fun a between hbetween => by
    have hrest := hq a between
    rwa [hbetween] at hrest
  fail h _ _ := ⟨rfl, h⟩
  lookup? _ _ := rfl
  resolve? _ _ := rfl
  record _ _ _ _ := rfl

/-! ## Declared names -/

theorem declarations_append (strict : Bool) (ds es : List Declaration) :
    declarations strict (ds ++ es) =
      declarations strict ds >>= fun _ => declarations strict es := by
  induction ds with
  | nil => rfl
  | cons d ds ih => rw [List.cons_append, declarations, declarations, ih, bind_assoc]

theorem declareAll_append (entries more : List TypedIdentifier) :
    declareAll (entries ++ more) = (do
      let params ← declareAll entries
      let others ← declareAll more
      return params ++ others) := by
  induction entries with
  | nil => exact (bind_pure _).symm
  | cons entry entries ih =>
    rw [List.cons_append, declareAll, declareAll, ih]
    simp only [bind_assoc, pure_bind, List.cons_append]

section Declared

variable {before : Analysis} {scope : Scope} {outer : List Scope}

theorem lookupHere?_cons (h : before.table = ⟨scope :: outer⟩) (name : String) :
    before.table.lookupHere? name = scope.get? name := by
  rw [h]
  rfl

theorem define_meets (symbol : Symbol) {Stopped : SemanticError → Analysis → Prop}
    (h : before.table = ⟨scope :: outer⟩) :
    Meets (define symbol) before (fun _ after => after.table = ⟨scope.define symbol :: outer⟩)
      Stopped := by
  obtain ⟨table, scopes, resolutions, events⟩ := before
  obtain rfl : table = ⟨scope :: outer⟩ := h
  rfl

theorem typeNamed_meets (type : TypeName) (line : Nat) (before : Analysis) :
    Meets (typeNamed type line) before
      (fun found after => after = before ∧ before.table.lookup? type.name = some (.type found))
      fun error stop => stop = before ∧ error = ⟨.unknownType type.name, line⟩ ∧
        ∀ found, before.table.lookup? type.name ≠ some (.type found) := by
  refine .lookup?_bind ?_
  split
  · next hlookup => exact .pure ⟨rfl, hlookup⟩
  · next hlookup => exact .fail ⟨rfl, rfl, hlookup⟩

/-- **To declare a name** is to file it with its type in the current scope, unless the type is not
known or the name is taken. -/
theorem declare_meets (entry : TypedIdentifier) (h : before.table = ⟨scope :: outer⟩) :
    Meets (declare entry) before
      (fun typed after => typed.name = entry.ident.name ∧
        before.table.lookup? entry.type.name = some (.type typed.type) ∧
        scope.get? entry.ident.name = none ∧ after.table = ⟨scope.define (.var typed) :: outer⟩)
      fun error stop => stop = before ∧
        (error = ⟨.unknownType entry.type.name, entry.ident.line⟩ ∧
            (∀ type, before.table.lookup? entry.type.name ≠ some (.type type)) ∨
          error = ⟨.redeclaredVariable entry.ident.name, entry.ident.line⟩ ∧
            (scope.get? entry.ident.name).isSome = true) := by
  have htype := typeNamed_meets entry.type entry.ident.line before
  refine (htype.mono (fun _ _ => id) fun error stop => And.imp_right .inl).bind ?_
  rintro type _ ⟨rfl, hlookup⟩
  refine .isTaken_bind ?_
  rw [lookupHere?_cons h]
  split
  · next htaken => exact .fail_bind ⟨rfl, .inr ⟨rfl, htaken⟩⟩
  · next hfree =>
    refine (define_meets _ h).bind fun _ after hafter => ?_
    exact .pure ⟨rfl, hlookup, by simpa using hfree, hafter⟩

/-! ## The parts of a procedure -/

/-- File the name of a procedure, without its parameters, and open its scope. -/
def openProcedure (heading : Heading) : Analyzer Unit := do
  if ← isTaken heading.name then fail (.redeclaredProcedure heading.name) heading.line
  define (.procedure heading.name [])
  enter heading.name

/-- Declare the parameters of a procedure and complete its symbol. -/
def declareParams (heading : Heading) : Analyzer Unit := do
  let params ← declareAll heading.params
  setEnclosingParams heading.name params

theorem declaration_procedure (strict : Bool) (heading : Heading) (inner : List Declaration)
    (body : List Statement) :
    declaration strict (.procedure heading inner body) = (do
      openProcedure heading
      declareParams heading
      declarations strict inner
      statements strict body
      leave) := by
  rw [declaration, openProcedure, declareParams]
  simp only [bind_assoc]
  refine bind_congr fun taken => ?_
  cases taken with
  | true => rfl
  | false => simp [bind_assoc]

theorem openProcedure_meets (heading : Heading) (h : before.table = ⟨scope :: outer⟩) :
    Meets (openProcedure heading) before
      (fun _ after => scope.get? heading.name = none ∧ after.table =
        ⟨scope.inside heading.name :: scope.define (.procedure heading.name []) :: outer⟩)
      fun error stop => stop = before ∧
        error = ⟨.redeclaredProcedure heading.name, heading.line⟩ ∧
          (scope.get? heading.name).isSome = true := by
  refine .isTaken_bind ?_
  rw [lookupHere?_cons h]
  split
  · next htaken => exact .fail_bind ⟨rfl, rfl, htaken⟩
  · next hfree =>
    refine (define_meets _ h).bind fun _ between hbetween => ?_
    refine ⟨by simpa using hfree, ?_⟩
    change between.table.push heading.name = _
    rw [hbetween]
    rfl

theorem setEnclosingParams_meets (name : String) (params : List TypedName) {inside : Scope}
    {Stopped : SemanticError → Analysis → Prop} (h : before.table = ⟨inside :: scope :: outer⟩) :
    Meets (setEnclosingParams name params) before
      (fun _ after => after.table = ⟨inside :: scope.setParams name params :: outer⟩) Stopped := by
  obtain ⟨table, scopes, resolutions, events⟩ := before
  obtain rfl : table = ⟨inside :: scope :: outer⟩ := h
  rfl

theorem leave_meets {Stopped : SemanticError → Analysis → Prop}
    (h : before.table = ⟨scope :: outer⟩) :
    Meets leave before (fun _ after => after.table = ⟨outer⟩) Stopped := by
  obtain ⟨table, scopes, resolutions, events⟩ := before
  obtain rfl : table = ⟨scope :: outer⟩ := h
  rfl

end Declared

end Analyzer

theorem Program.program_apply {strict : Bool} {program : Program} {start : Analysis}
    (h : Analyzer.enter "global" .initial = .ok () start) (earlier : Analysis) :
    Analyzer.program strict program earlier =
      (Analyzer.block strict program.block >>= fun _ => Analyzer.leave) start := by
  change (Analyzer.enter "global" >>= fun _ => Analyzer.block strict program.block >>= fun _ =>
    Analyzer.leave) Analysis.initial = _
  rw [Analyzer.bind_apply, h]

end LusoPascal
