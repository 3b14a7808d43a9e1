import LusoPascal.Proofs.Analysis.Reference

/-!
# References and call sites

Every place of a program that refers to a name, in the order in which the places are visited, and
every call together with what the names mean where it stands. What they mean is read off the
declarations around the call alone, so no table is kept up to date.

* `Reference`, `Program.references`: the variables and calls of a program, in order;
* `Frame.after`: the names that a declaration leaves behind in its scope;
* `CallSite`, `Program.callSites`: the calls of a program with their environments;
* `CallSite.Fits`: a call of a procedure whose parameters have the types of the arguments;
* `CallSite.error?`, **`CallSite.error?_eq_none_iff`**: what is wrong with a call that does not fit.
-/

namespace LusoPascal

/-! ## References -/

/-- A place that refers to a name. -/
inductive Reference where
  | ident (ident : Identifier)
  | call (call : Call)
deriving DecidableEq

/-- The call at a place, if it is one. -/
def Reference.call? : Reference → Option Call
  | ident _ => none
  | call c => some c

def Expression.references : Expression → List Reference
  | binary left _ right => left.references ++ right.references
  | unary _ operand => operand.references
  | number _ | boolean _ => []
  | var ident => [.ident ident]

theorem Expression.call?_references (x : Expression) :
    x.references.filterMap Reference.call? = [] := by
  induction x with
  | binary left op right ihl ihr => rw [references, List.filterMap_append, ihl, ihr, List.nil_append]
  | unary op operand ih => exact ih
  | number | boolean => rfl
  | var ident => rfl

namespace Statement

mutual

def references : Statement → List Reference
  | compound children => allReferences children
  | assign target _ value => .ident target :: value.references
  | ifThen condition thenBranch => condition.references ++ thenBranch.references
  | ifThenElse condition thenBranch elseBranch =>
    condition.references ++ (thenBranch.references ++ elseBranch.references)
  | loop condition body => condition.references ++ body.references
  | call c => [.call c]
  | empty => []

def allReferences : List Statement → List Reference
  | [] => []
  | s :: ss => s.references ++ allReferences ss

end

end Statement

namespace Declaration

mutual

def references : Declaration → List Reference
  | var _ => []
  | procedure _ inner body => allReferences inner ++ Statement.allReferences body

def allReferences : List Declaration → List Reference
  | [] => []
  | d :: ds => d.references ++ allReferences ds

end

end Declaration

def Program.references (program : Program) : List Reference :=
  Declaration.allReferences program.block.declarations ++
    Statement.allReferences program.block.body

/-! ## What declarations leave behind -/

/-- The type that a variable or a parameter is declared with. -/
def TypedIdentifier.baseType? (entry : TypedIdentifier) : Option BaseType :=
  BaseType.ofWord? entry.type.name

namespace Frame

/-- The frame behind the declaration of a variable or a parameter. -/
def declareEntry (frame : Frame) (entry : TypedIdentifier) : Frame :=
  match entry.baseType? with
  | some type => frame.declare entry.ident.name (.var type)
  | none => frame

/-- The frame behind a declaration. Nothing of what a procedure declares inside is left behind. -/
def after (frame : Frame) : Declaration → Frame
  | .var entry => frame.declareEntry entry
  | .procedure heading _ _ => frame.declare heading.name (.procedure heading)

/-- The frame in which the declarations of a procedure stand: it holds the parameters. -/
def ofHeading (around : Frame) (heading : Heading) : Frame :=
  heading.params.foldl declareEntry (around.inside heading.name)

end Frame

/-! ## Call sites -/

/-- A call and what the names mean where it stands. -/
structure CallSite where
  env : Environment
  call : Call

namespace Environment

/-- The calls among references that stand in one environment. -/
def callSites (env : Environment) (references : List Reference) : List CallSite :=
  (references.filterMap Reference.call?).map (CallSite.mk env)

theorem callSites_append (env : Environment) (first second : List Reference) :
    env.callSites (first ++ second) = env.callSites first ++ env.callSites second := by
  rw [callSites, List.filterMap_append, List.map_append]
  rfl

theorem callSites_expression (env : Environment) (x : Expression) :
    env.callSites x.references = [] := by
  rw [callSites, x.call?_references, List.map_nil]

end Environment

namespace Declaration

mutual

/-- The calls in a declaration that stands in a frame inside others. The procedure itself is already
known there, and the parameters are declared in the frame of its block. -/
def callSites (outer : Environment) (frame : Frame) : Declaration → List CallSite
  | var _ => []
  | procedure heading inner body =>
    let around := frame.declare heading.name (.procedure heading)
    let inside := around.ofHeading heading
    allCallSites (around :: outer) inside inner ++
      Environment.callSites (inner.foldl Frame.after inside :: around :: outer)
        (Statement.allReferences body)

def allCallSites (outer : Environment) (frame : Frame) : List Declaration → List CallSite
  | [] => []
  | d :: ds => d.callSites outer frame ++ allCallSites outer (frame.after d) ds

end

end Declaration

/-- The calls in a program. -/
def Program.callSites (program : Program) : List CallSite :=
  Declaration.allCallSites [] .global program.block.declarations ++
    Environment.callSites [program.block.declarations.foldl Frame.after .global]
      (Statement.allReferences program.block.body)

namespace CallSite

/-- The name called means a procedure, there are as many arguments as it has parameters, and each
argument means a variable of the type that its parameter is declared with. -/
def Fits (site : CallSite) : Prop :=
  ∃ heading frame, site.env.meaning? site.call.name = some (.procedure heading, frame) ∧
    site.call.args.length = heading.params.length ∧
    ∀ (i : Nat) (argument : String) (param : TypedIdentifier), site.call.args[i]? = some argument →
      heading.params[i]? = some param → ∃ type frame, site.env.meaning? argument = some (.var type, frame) ∧
        param.baseType? = some type

/-- What is wrong with an argument in place of a parameter. -/
def misfit? (site : CallSite) (argument : String) (param : TypedIdentifier) : Option Violation :=
  match site.env.meaning? argument, param.baseType? with
  | some (.var found, _), some expected =>
    if found = expected then none
    else some (.argumentType site.call.name argument expected found)
  | some _, _ => some (.argumentNotVariable site.call.name argument)
  | none, _ => some (.unknownVariable argument)

/-- What is wrong with the arguments in place of the parameters, if their number is right. -/
def misfits? (site : CallSite) (params : List TypedIdentifier) : Option Violation :=
  (site.call.args.zip params).findSome? fun pair => site.misfit? pair.1 pair.2

/-- What is wrong with a call. -/
def violation? (site : CallSite) : Option Violation :=
  match site.env.meaning? site.call.name with
  | some (.procedure heading, _) =>
    if site.call.args.length = heading.params.length then site.misfits? heading.params
    else some (.argumentCount site.call.name heading.params.length site.call.args.length)
  | _ => some (.notProcedure site.call.name)

/-- The error at a call that does not fit. -/
def error? (site : CallSite) : Option SemanticError :=
  site.violation?.map fun violation => ⟨violation, site.call.line⟩

variable {site : CallSite}

theorem misfit?_eq_none_iff {argument : String} {param : TypedIdentifier} :
    site.misfit? argument param = none ↔
      ∃ type frame, site.env.meaning? argument = some (.var type, frame) ∧
        param.baseType? = some type := by
  rw [misfit?]
  split
  · next found frame expected hfound hexpected => simp [hfound, hexpected, eq_comm]
  · next found hfound hne =>
    simp only [reduceCtorEq, false_iff]
    rintro ⟨type, frame, hargument, hparam⟩
    exact hne type frame type hparam (Option.some.inj (hfound.symm.trans hargument))
  · next hfound => simp [hfound]

theorem misfits?_eq_none_iff {params : List TypedIdentifier} :
    site.misfits? params = none ↔
      ∀ (i : Nat) (argument : String) (param : TypedIdentifier),
        site.call.args[i]? = some argument → params[i]? = some param →
          ∃ type frame, site.env.meaning? argument = some (.var type, frame) ∧
            param.baseType? = some type := by
  rw [misfits?, List.findSome?_eq_none_iff]
  constructor
  · intro h i argument param hargument hparam
    have hpair : (argument, param) ∈ site.call.args.zip params :=
      List.mem_of_getElem? (List.getElem?_zip_eq_some.mpr ⟨hargument, hparam⟩)
    exact misfit?_eq_none_iff.mp (h _ hpair)
  · rintro h ⟨argument, param⟩ hpair
    obtain ⟨i, hi⟩ := List.getElem?_of_mem hpair
    obtain ⟨hargument, hparam⟩ := List.getElem?_zip_eq_some.mp hi
    exact misfit?_eq_none_iff.mpr (h i argument param hargument hparam)

/-- **Nothing is wrong with a call if and only if it fits.** -/
theorem error?_eq_none_iff : site.error? = none ↔ site.Fits := by
  rw [error?, Option.map_eq_none_iff, violation?]
  split
  · next heading frame hcallee =>
    split
    · next hlength =>
      rw [misfits?_eq_none_iff]
      constructor
      · intro h
        exact ⟨heading, frame, hcallee, hlength, h⟩
      · rintro ⟨heading', frame', hcallee', -, h⟩
        cases hcallee.symm.trans hcallee'
        exact h
    · next hlength =>
      simp only [reduceCtorEq, false_iff]
      rintro ⟨heading', frame', hcallee', hlength', -⟩
      cases hcallee.symm.trans hcallee'
      exact hlength hlength'
  · next hcallee =>
    simp only [reduceCtorEq, false_iff]
    rintro ⟨heading, frame, hcallee', -⟩
    exact hcallee heading frame hcallee'

end CallSite

end LusoPascal
