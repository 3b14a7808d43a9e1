import LusoPascal.Analysis.Basic
import LusoPascal.Tree.Basic

/-!
# A program visited without state

What a program means to an analysis, said without a stack that changes: every part is visited in an
environment, and a declaration gives the frame in which the next part is visited. A procedure gives
the frame around it, so nothing that its parts declare is left behind.

* `Meaning`, `Frame`, `Environment`: what names mean, scope by scope;
* `Visit`: the scopes opened and the references resolved by a visit, and how it ends;
* `Mention`, `Statement.mentions`: the names that a command refers to, in the order of its text;
* `declareVariable`, `Declaration.visit`, **`Program.visit`**: the visit itself.
-/

namespace LusoPascal

/-! ## Environments -/

/-- What a name can mean. A procedure is known by the heading that declares it. -/
inductive Meaning where
  | type (type : BaseType)
  | var (type : BaseType)
  | procedure (heading : Heading)
deriving DecidableEq

/-- A scope: its name, its level, and what the names declared in it mean. -/
structure Frame where
  name : String
  level : Nat
  meanings : List (String × Meaning)
deriving DecidableEq

namespace Frame

/-- What a name means in a frame. -/
def meaning? (frame : Frame) (name : String) : Option Meaning := frame.meanings.lookup name

/-- A frame with one more name. -/
def declare (frame : Frame) (name : String) (meaning : Meaning) : Frame :=
  { frame with meanings := (name, meaning) :: frame.meanings }

/-- The frame of a program, which holds the types. -/
def global : Frame := ⟨"global", 1, BaseType.all.map fun type => (type.word, .type type)⟩

/-- The frame of a procedure, one level further in. -/
def inside (enclosing : Frame) (name : String) : Frame := ⟨name, enclosing.level + 1, []⟩

end Frame

/-- Nested frames, innermost first. -/
abbrev Environment := List Frame

namespace Environment

/-- What a name means, and the innermost frame that says so. -/
def meaning? (name : String) : Environment → Option (Meaning × Frame)
  | [] => none
  | frame :: outer =>
    match frame.meaning? name with
    | some meaning => some (meaning, frame)
    | none => meaning? name outer

end Environment

/-! ## Visits -/

/-- What a visit leaves behind: the scopes opened and the references resolved, both in order, and
a result or the first violation. -/
structure Visit (α : Type) where
  opened : List OpenedScope
  resolved : List Resolution
  outcome : Except SemanticError α

namespace Visit

variable {α β : Type}

/-- A visit that ends at a violation. -/
def violates (violation : Violation) (line : Nat) : Visit α := ⟨[], [], .error ⟨violation, line⟩⟩

/-- A scope is opened inside another one. -/
def opens (frame : Frame) (enclosing : Option String) : Visit Frame :=
  ⟨[⟨frame.name, frame.level, enclosing⟩], [], .ok frame⟩

/-- One visit and then another one; a violation in the first ends them both. -/
def andThen (first : Visit α) (next : α → Visit β) : Visit β :=
  match first.outcome with
  | .ok a =>
    let second := next a
    ⟨first.opened ++ second.opened, first.resolved ++ second.resolved, second.outcome⟩
  | .error error => ⟨first.opened, first.resolved, .error error⟩

instance : Monad Visit where
  pure a := ⟨[], [], .ok a⟩
  bind := andThen

variable {v : Visit α} {w : α → Visit β}

theorem bind_of_ok {a : α} (h : v.outcome = .ok a) :
    v >>= w = ⟨v.opened ++ (w a).opened, v.resolved ++ (w a).resolved, (w a).outcome⟩ := by
  change v.andThen w = _
  rw [andThen, h]

theorem bind_of_error {error : SemanticError} (h : v.outcome = .error error) :
    v >>= w = ⟨v.opened, v.resolved, .error error⟩ := by
  change v.andThen w = _
  rw [andThen, h]

theorem id_map (v : Visit α) : id <$> v = v := by
  obtain ⟨opened, resolved, error | a⟩ := v
  · rfl
  · change Visit.mk (opened ++ []) (resolved ++ []) _ = _
    rw [List.append_nil, List.append_nil]
    rfl

theorem bind_assoc {γ : Type} (v : Visit α) (w : α → Visit β) (x : β → Visit γ) :
    v >>= w >>= x = v >>= fun a => w a >>= x := by
  cases hv : v.outcome with
  | error error => rw [bind_of_error hv, bind_of_error hv, bind_of_error rfl]
  | ok a =>
    rw [bind_of_ok hv, bind_of_ok hv]
    cases hw : (w a).outcome with
    | error error => rw [bind_of_error hw, bind_of_error rfl]
    | ok b => rw [bind_of_ok hw, bind_of_ok rfl, List.append_assoc, List.append_assoc]

instance : LawfulMonad Visit := .mk' Visit id_map (fun _ _ => rfl) bind_assoc

end Visit

/-! ## References -/

/-- A name that is referred to, and the violation if it means nothing. -/
structure Mention where
  name : String
  line : Nat
  violation : Violation
deriving DecidableEq

/-- A reference to a variable. -/
def Identifier.mention (ident : Identifier) : Mention :=
  ⟨ident.name, ident.line, .unknownVariable ident.name⟩

/-- The call of a procedure refers to its name alone. -/
def Call.mention (call : Call) : Mention := ⟨call.name, call.line, .unknownProcedure call.name⟩

def Expression.mentions : Expression → List Mention
  | binary left _ right => left.mentions ++ right.mentions
  | unary _ operand => operand.mentions
  | number _ | boolean _ => []
  | var ident => [ident.mention]

namespace Statement

mutual

/-- The names in a command, in the order of its text. -/
def mentions : Statement → List Mention
  | compound children => allMentions children
  | assign target _ value => target.mention :: value.mentions
  | ifThen condition thenBranch => condition.mentions ++ thenBranch.mentions
  | ifThenElse condition thenBranch elseBranch =>
    condition.mentions ++ (thenBranch.mentions ++ elseBranch.mentions)
  | loop condition body => condition.mentions ++ body.mentions
  | call procedureCall => [procedureCall.mention]
  | empty => []

def allMentions : List Statement → List Mention
  | [] => []
  | s :: ss => s.mentions ++ allMentions ss

end

end Statement

namespace Environment

/-- A name that is referred to must mean something, whatever that is. -/
def resolve (env : Environment) (mention : Mention) : Visit Unit :=
  match env.meaning? mention.name with
  | some (_, frame) => ⟨[], [⟨mention.name, mention.line, frame.name, frame.level⟩], .ok ()⟩
  | none => .violates mention.violation mention.line

def resolveAll (env : Environment) : List Mention → Visit Unit
  | [] => pure ()
  | mention :: rest => do
    env.resolve mention
    env.resolveAll rest

theorem resolveAll_append (env : Environment) (ms ns : List Mention) :
    env.resolveAll (ms ++ ns) = env.resolveAll ms >>= fun _ => env.resolveAll ns := by
  induction ms with
  | nil => rfl
  | cons m ms ih => rw [List.cons_append, resolveAll, resolveAll, ih, bind_assoc]

end Environment

/-! ## Declarations -/

section Declarations

variable (outer : Environment)

/-- A variable or a parameter: its type must be a type, and then its name must be new. -/
def declareVariable (frame : Frame) (entry : TypedIdentifier) : Visit Frame :=
  match Environment.meaning? entry.type.name (frame :: outer) with
  | some (.type type, _) =>
    if frame.meaning? entry.ident.name = none then
      pure (frame.declare entry.ident.name (.var type))
    else .violates (.redeclaredVariable entry.ident.name) entry.ident.line
  | _ => .violates (.unknownType entry.type.name) entry.ident.line

def declareVariables (frame : Frame) : List TypedIdentifier → Visit Frame
  | [] => pure frame
  | entry :: rest => do
    let frame ← declareVariable outer frame entry
    declareVariables frame rest

end Declarations

namespace Declaration

mutual

/-- A declaration in a frame inside others gives the frame for what follows it. -/
def visit (outer : Environment) (frame : Frame) : Declaration → Visit Frame
  | var entry => declareVariable outer frame entry
  | procedure heading inner body =>
    if frame.meaning? heading.name = none then do
      let frame := frame.declare heading.name (.procedure heading)
      let inside ← Visit.opens (frame.inside heading.name) (some frame.name)
      let inside ← declareVariables (frame :: outer) inside heading.params
      let inside ← visitAll (frame :: outer) inside inner
      Environment.resolveAll (inside :: frame :: outer) (Statement.allMentions body)
      return frame
    else .violates (.redeclaredProcedure heading.name) heading.line

def visitAll (outer : Environment) (frame : Frame) : List Declaration → Visit Frame
  | [] => pure frame
  | d :: ds => do
    let frame ← visit outer frame d
    visitAll outer frame ds

end

end Declaration

/-- The visit of a program. -/
def Program.visit (program : Program) : Visit Unit := do
  let frame ← Visit.opens .global none
  let frame ← Declaration.visitAll [] frame program.block.declarations
  Environment.resolveAll [frame] (Statement.allMentions program.block.body)

end LusoPascal
