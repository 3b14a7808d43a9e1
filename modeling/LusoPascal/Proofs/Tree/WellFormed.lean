import LusoPascal.Proofs.Grammar.NearestElse

/-!
# Well-formed trees

The trees that a text can hold, and trees without regard to their lines.

* `Identifier.WellFormed`, `Expression.WellFormed`, `Statement.WellFormed`: names are names,
  operators are operators, numbers are in range, and no alternative passes over an open command;
* `Block.WellFormed`, `Program.WellFormed`: variables come before procedures, and no body is empty;
* `Program.onLine`: the tree with one line for all its places;
* `Program.wellFormed_onLine`: lines do not matter to whether a program is well-formed;
* **`Program.WellFormed.nearestElse`**: in a well-formed program every alternative belongs to the
  nearest conditional.
-/

namespace LusoPascal

/-- The token of one of some kinds that are always spelled the same. -/
def Token.IsSpelled (token : Token) (kinds : List TokenKind) : Prop :=
  token.kind ∈ kinds ∧ ∃ spelling, token.kind.spelling? = some spelling ∧
    token.lexeme = .text spelling

/-! ## Expressions -/

/-- The token of an identifier carries its name. -/
structure Identifier.WellFormed (ident : Identifier) : Prop where
  isName : IsName ident.name
  token : ident.token = ⟨.identifier, .text ident.name⟩

namespace Expression

/-- No truth value, only numbers in range, and only operators in place of operators. -/
def WellFormed : Expression → Prop
  | binary left op right =>
    op.IsSpelled [.equal, .notEqual, .greater, .greaterEqual, .less, .lessEqual, .plus, .minus,
      .ou, .times, .div, .e] ∧ left.WellFormed ∧ right.WellFormed
  | unary op operand => op.IsSpelled [.plus, .minus, .nao] ∧ operand.WellFormed
  | number value => 0 ≤ value ∧ value ≤ maxInteger
  | boolean _ => False
  | var ident => ident.WellFormed

/-- A truth value by itself, or an expression without truth values. -/
def WellFormedValue : Expression → Prop
  | boolean _ => True
  | x => x.WellFormed

end Expression

/-! ## Commands -/

namespace Statement

mutual

/-- Commands of well-formed parts. There is something between `inicio` and `fim`, and no command
before an alternative is open. -/
def WellFormed : Statement → Prop
  | compound children => children ≠ [] ∧ AllWellFormed children
  | assign target op value =>
    target.WellFormed ∧ op = ⟨.assign, .text ":="⟩ ∧ value.WellFormedValue
  | ifThen condition thenBranch => condition.WellFormed ∧ thenBranch.WellFormed
  | ifThenElse condition thenBranch elseBranch =>
    condition.WellFormed ∧ thenBranch.WellFormed ∧ thenBranch.isOpen = false ∧
      elseBranch.WellFormed
  | loop condition body => condition.WellFormed ∧ body.WellFormed
  | call procedureCall => IsName procedureCall.name ∧ ∀ name ∈ procedureCall.args, IsName name
  | empty => True

def AllWellFormed : List Statement → Prop
  | [] => True
  | s :: ss => s.WellFormed ∧ AllWellFormed ss

end

end Statement

/-! ## Declarations -/

/-- A name and one of the two words for types. -/
structure TypedIdentifier.WellFormed (entry : TypedIdentifier) : Prop where
  ident : entry.ident.WellFormed
  type : entry.type.token.IsSpelled [.inteiro, .logico]

namespace Declaration

/-- Whether variables are declared. -/
def isVariable : Declaration → Bool
  | var _ => true
  | procedure _ _ _ => false

/-- No variables behind a procedure. -/
def VariablesFirst (ds : List Declaration) : Prop :=
  ds.Pairwise fun earlier later => later.isVariable = true → earlier.isVariable = true

mutual

/-- Declarations of well-formed parts; that of a procedure holds a well-formed block. -/
def WellFormed : Declaration → Prop
  | var entry => entry.WellFormed
  | procedure heading declarations body =>
    (IsName heading.name ∧ ∀ param ∈ heading.params, param.WellFormed) ∧
      (VariablesFirst declarations ∧ AllWellFormed declarations) ∧
      body ≠ [] ∧ Statement.AllWellFormed body

def AllWellFormed : List Declaration → Prop
  | [] => True
  | d :: ds => d.WellFormed ∧ AllWellFormed ds

end

end Declaration

/-- Well-formed declarations, variables first, and a well-formed body that is not empty. -/
def Block.WellFormed (block : Block) : Prop :=
  (Declaration.VariablesFirst block.declarations ∧
    Declaration.AllWellFormed block.declarations) ∧
    block.body ≠ [] ∧ Statement.AllWellFormed block.body

/-- A name and a well-formed block. -/
structure Program.WellFormed (program : Program) : Prop where
  name : IsName program.name
  block : program.block.WellFormed

/-! ## Lines -/

section Lines

variable (line : Nat)

/-- An identifier moved to a line. -/
def Identifier.onLine (ident : Identifier) : Identifier := { ident with line }

def Expression.onLine : Expression → Expression
  | binary left op right => binary left.onLine op right.onLine
  | unary op operand => unary op operand.onLine
  | number value => number value
  | boolean value => boolean value
  | var ident => var (ident.onLine line)

namespace Statement

mutual

def onLine : Statement → Statement
  | compound children => compound (allOnLine children)
  | assign target op value => assign (target.onLine line) op (value.onLine line)
  | ifThen condition thenBranch => ifThen (condition.onLine line) thenBranch.onLine
  | ifThenElse condition thenBranch elseBranch =>
    ifThenElse (condition.onLine line) thenBranch.onLine elseBranch.onLine
  | loop condition body => loop (condition.onLine line) body.onLine
  | call procedureCall => call { procedureCall with line }
  | empty => empty

def allOnLine : List Statement → List Statement
  | [] => []
  | s :: ss => s.onLine :: allOnLine ss

end

end Statement

def TypedIdentifier.onLine (entry : TypedIdentifier) : TypedIdentifier :=
  { entry with ident := entry.ident.onLine line }

namespace Declaration

mutual

def onLine : Declaration → Declaration
  | var entry => var (entry.onLine line)
  | procedure heading declarations body =>
    procedure ⟨heading.name, heading.params.map (TypedIdentifier.onLine line), line⟩
      (allOnLine declarations) (Statement.allOnLine line body)

def allOnLine : List Declaration → List Declaration
  | [] => []
  | d :: ds => d.onLine :: allOnLine ds

end

end Declaration

def Block.onLine (block : Block) : Block :=
  ⟨Declaration.allOnLine line block.declarations, Statement.allOnLine line block.body⟩

/-- A program with all its places on one line. -/
def Program.onLine (program : Program) : Program := ⟨program.name, program.block.onLine line⟩

/-! ### Once moved -/

@[simp] theorem Expression.onLine_onLine (x : Expression) :
    (x.onLine line).onLine line = x.onLine line := by
  induction x <;> simp_all [onLine, Identifier.onLine]

@[simp] theorem TypedIdentifier.onLine_onLine (entry : TypedIdentifier) :
    (entry.onLine line).onLine line = entry.onLine line := rfl

namespace Statement

mutual

@[simp] theorem onLine_onLine (s : Statement) : (s.onLine line).onLine line = s.onLine line := by
  match s with
  | compound children => simp [onLine, allOnLine_allOnLine children]
  | assign _ _ _ => simp [onLine, Identifier.onLine]
  | ifThen _ thenBranch => simp [onLine, onLine_onLine thenBranch]
  | ifThenElse _ thenBranch elseBranch =>
    simp [onLine, onLine_onLine thenBranch, onLine_onLine elseBranch]
  | loop _ body => simp [onLine, onLine_onLine body]
  | call _ | empty => simp [onLine]

@[simp] theorem allOnLine_allOnLine (ss : List Statement) :
    allOnLine line (allOnLine line ss) = allOnLine line ss := by
  match ss with
  | [] => rfl
  | s :: ss => simp [allOnLine, onLine_onLine s, allOnLine_allOnLine ss]

end

end Statement

namespace Declaration

mutual

@[simp] theorem onLine_onLine (d : Declaration) : (d.onLine line).onLine line = d.onLine line := by
  match d with
  | var _ => simp [onLine]
  | procedure _ declarations _ => simp [onLine, allOnLine_allOnLine declarations]

@[simp] theorem allOnLine_allOnLine (ds : List Declaration) :
    allOnLine line (allOnLine line ds) = allOnLine line ds := by
  match ds with
  | [] => rfl
  | d :: ds => simp [allOnLine, onLine_onLine d, allOnLine_allOnLine ds]

end

end Declaration

@[simp] theorem Program.onLine_onLine (program : Program) :
    (program.onLine line).onLine line = program.onLine line := by
  simp [onLine, Block.onLine]

/-! ### Well-formed all the same -/

theorem Identifier.wellFormed_onLine {ident : Identifier} :
    (ident.onLine line).WellFormed ↔ ident.WellFormed :=
  ⟨fun ⟨hname, htoken⟩ => ⟨hname, htoken⟩, fun ⟨hname, htoken⟩ => ⟨hname, htoken⟩⟩

theorem Expression.wellFormed_onLine {x : Expression} :
    (x.onLine line).WellFormed ↔ x.WellFormed := by
  induction x <;> simp_all [onLine, WellFormed, Identifier.wellFormed_onLine]

theorem Expression.wellFormedValue_onLine {x : Expression} :
    (x.onLine line).WellFormedValue ↔ x.WellFormedValue := by
  cases x with
  | boolean value => rfl
  | _ => exact wellFormed_onLine line

theorem Statement.isOpen_onLine (s : Statement) : (s.onLine line).isOpen = s.isOpen := by
  match s with
  | .ifThenElse _ _ elseBranch => exact elseBranch.isOpen_onLine
  | .loop _ body => exact body.isOpen_onLine
  | .compound _ | .assign _ _ _ | .ifThen _ _ | .call _ | .empty => simp [onLine, isOpen]

namespace Statement

theorem allOnLine_eq_nil_iff {ss : List Statement} : allOnLine line ss = [] ↔ ss = [] := by
  cases ss <;> simp [allOnLine]

theorem allOnLine_eq_map (ss : List Statement) : allOnLine line ss = ss.map (onLine line) := by
  induction ss with
  | nil => rfl
  | cons s ss ih => rw [allOnLine, ih, List.map_cons]

mutual

theorem wellFormed_onLine (s : Statement) : (s.onLine line).WellFormed ↔ s.WellFormed := by
  match s with
  | compound children =>
    simp [onLine, WellFormed, allOnLine_eq_nil_iff, allWellFormed_onLine children]
  | assign _ _ _ =>
    simp [onLine, WellFormed, Identifier.wellFormed_onLine, Expression.wellFormedValue_onLine]
  | ifThen _ thenBranch =>
    simp [onLine, WellFormed, Expression.wellFormed_onLine, wellFormed_onLine thenBranch]
  | ifThenElse _ thenBranch elseBranch =>
    simp [onLine, WellFormed, Expression.wellFormed_onLine, isOpen_onLine,
      wellFormed_onLine thenBranch, wellFormed_onLine elseBranch]
  | loop _ body =>
    simp [onLine, WellFormed, Expression.wellFormed_onLine, wellFormed_onLine body]
  | call _ | empty => simp [onLine, WellFormed]

theorem allWellFormed_onLine (ss : List Statement) :
    AllWellFormed (allOnLine line ss) ↔ AllWellFormed ss := by
  match ss with
  | [] => rfl
  | s :: ss => simp [allOnLine, AllWellFormed, wellFormed_onLine s, allWellFormed_onLine ss]

end

end Statement

theorem TypedIdentifier.wellFormed_onLine {entry : TypedIdentifier} :
    (entry.onLine line).WellFormed ↔ entry.WellFormed :=
  ⟨fun ⟨hident, htype⟩ => ⟨(Identifier.wellFormed_onLine line).mp hident, htype⟩,
    fun ⟨hident, htype⟩ => ⟨(Identifier.wellFormed_onLine line).mpr hident, htype⟩⟩

namespace Declaration

theorem allOnLine_eq_map (ds : List Declaration) : allOnLine line ds = ds.map (onLine line) := by
  induction ds with
  | nil => rfl
  | cons d ds ih => rw [allOnLine, ih, List.map_cons]

theorem isVariable_onLine (d : Declaration) : (d.onLine line).isVariable = d.isVariable := by
  cases d <;> simp [onLine, isVariable]

theorem variablesFirst_onLine {ds : List Declaration} :
    VariablesFirst (allOnLine line ds) ↔ VariablesFirst ds := by
  simp only [VariablesFirst, allOnLine_eq_map, List.pairwise_map, isVariable_onLine]

mutual

theorem wellFormed_onLine (d : Declaration) : (d.onLine line).WellFormed ↔ d.WellFormed := by
  match d with
  | var _ => simp [onLine, WellFormed, TypedIdentifier.wellFormed_onLine]
  | procedure _ declarations body =>
    simp [onLine, WellFormed, TypedIdentifier.wellFormed_onLine, variablesFirst_onLine,
      Statement.allOnLine_eq_nil_iff, Statement.allWellFormed_onLine,
      allWellFormed_onLine declarations]

theorem allWellFormed_onLine (ds : List Declaration) :
    AllWellFormed (allOnLine line ds) ↔ AllWellFormed ds := by
  match ds with
  | [] => rfl
  | d :: ds => simp [allOnLine, AllWellFormed, wellFormed_onLine d, allWellFormed_onLine ds]

end

end Declaration

theorem Program.wellFormed_onLine {program : Program} :
    (program.onLine line).WellFormed ↔ program.WellFormed := by
  have hblock : (program.block.onLine line).WellFormed ↔ program.block.WellFormed := by
    simp [Block.onLine, Block.WellFormed, Declaration.variablesFirst_onLine,
      Declaration.allWellFormed_onLine, Statement.allOnLine_eq_nil_iff,
      Statement.allWellFormed_onLine]
  exact ⟨fun h => ⟨h.name, hblock.mp h.block⟩, fun h => ⟨h.name, hblock.mpr h.block⟩⟩

end Lines

/-! ## Alternatives -/

namespace Statement

mutual

theorem WellFormed.nearestElse (s : Statement) (h : s.WellFormed) : s.NearestElse := by
  match s with
  | compound children =>
    rw [WellFormed] at h
    rw [NearestElse]
    exact AllWellFormed.nearestElse children h.2
  | ifThen condition thenBranch =>
    rw [WellFormed] at h
    rw [NearestElse]
    exact WellFormed.nearestElse thenBranch h.2
  | ifThenElse condition thenBranch elseBranch =>
    rw [WellFormed] at h
    rw [NearestElse]
    obtain ⟨-, hs, hclosed, hs'⟩ := h
    exact ⟨hclosed, WellFormed.nearestElse thenBranch hs, WellFormed.nearestElse elseBranch hs'⟩
  | loop condition body =>
    rw [WellFormed] at h
    rw [NearestElse]
    exact WellFormed.nearestElse body h.2
  | assign _ _ _ | call _ | empty => simp [NearestElse]

theorem AllWellFormed.nearestElse (ss : List Statement) (h : AllWellFormed ss) :
    AllNearestElse ss := by
  match ss with
  | [] => trivial
  | s :: ss => exact ⟨WellFormed.nearestElse s h.1, AllWellFormed.nearestElse ss h.2⟩

end

end Statement

namespace Declaration

mutual

theorem WellFormed.nearestElse (d : Declaration) (h : d.WellFormed) : d.NearestElse := by
  match d with
  | var entry => simp [NearestElse]
  | procedure heading declarations body =>
    rw [WellFormed] at h
    rw [NearestElse]
    obtain ⟨-, ⟨-, hds⟩, -, hbody⟩ := h
    exact ⟨AllWellFormed.nearestElse declarations hds, hbody.nearestElse⟩

theorem AllWellFormed.nearestElse (ds : List Declaration) (h : AllWellFormed ds) :
    AllNearestElse ds := by
  match ds with
  | [] => trivial
  | d :: ds => exact ⟨WellFormed.nearestElse d h.1, AllWellFormed.nearestElse ds h.2⟩

end

end Declaration

/-- **Every alternative of a well-formed program belongs to the nearest conditional.** -/
theorem Program.WellFormed.nearestElse {program : Program} (h : program.WellFormed) :
    program.NearestElse :=
  ⟨h.block.1.2.nearestElse, h.block.2.2.nearestElse⟩

end LusoPascal
