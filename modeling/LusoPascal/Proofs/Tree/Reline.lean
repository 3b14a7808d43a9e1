import LusoPascal.Proofs.Tree.WellFormed

/-!
# Trees with other lines

A tree keeps its shape, its names and its tokens if all its lines are changed by one rule.

* `Expression.reline`, `Statement.reline`, `Declaration.reline`, `Program.reline`: these trees;
* **`Program.reline_const`**: to put all places on one line is one such change.
-/

namespace LusoPascal

section Reline

variable (f : Nat → Nat)

/-- An identifier with its line changed. -/
def Identifier.reline (ident : Identifier) : Identifier := { ident with line := f ident.line }

def Expression.reline : Expression → Expression
  | binary left op right => binary left.reline op right.reline
  | unary op operand => unary op operand.reline
  | number value => number value
  | boolean value => boolean value
  | var ident => var (ident.reline f)

def Call.reline (call : Call) : Call := { call with line := f call.line }

namespace Statement

mutual

def reline : Statement → Statement
  | compound children => compound (relineAll children)
  | assign target op value => assign (target.reline f) op (value.reline f)
  | ifThen condition thenBranch => ifThen (condition.reline f) thenBranch.reline
  | ifThenElse condition thenBranch elseBranch =>
    ifThenElse (condition.reline f) thenBranch.reline elseBranch.reline
  | loop condition body => loop (condition.reline f) body.reline
  | call c => call (c.reline f)
  | empty => empty

def relineAll : List Statement → List Statement
  | [] => []
  | s :: ss => s.reline :: relineAll ss

end

theorem relineAll_eq_map (ss : List Statement) : relineAll f ss = ss.map (reline f) := by
  induction ss with
  | nil => rfl
  | cons s ss ih => rw [relineAll, ih, List.map_cons]

end Statement

def TypedIdentifier.reline (entry : TypedIdentifier) : TypedIdentifier :=
  { entry with ident := entry.ident.reline f }

def Heading.reline (heading : Heading) : Heading :=
  ⟨heading.name, heading.params.map (TypedIdentifier.reline f), f heading.line⟩

namespace Declaration

mutual

def reline : Declaration → Declaration
  | var entry => var (entry.reline f)
  | procedure heading inner body =>
    procedure (heading.reline f) (relineAll inner) (Statement.relineAll f body)

def relineAll : List Declaration → List Declaration
  | [] => []
  | d :: ds => d.reline :: relineAll ds

end

theorem relineAll_eq_map (ds : List Declaration) : relineAll f ds = ds.map (reline f) := by
  induction ds with
  | nil => rfl
  | cons d ds ih => rw [relineAll, ih, List.map_cons]

end Declaration

def Block.reline (block : Block) : Block :=
  ⟨Declaration.relineAll f block.declarations, Statement.relineAll f block.body⟩

/-- A program with its lines changed. -/
def Program.reline (program : Program) : Program := ⟨program.name, program.block.reline f⟩

end Reline

/-! ## One line for all places -/

section Constant

variable (line : Nat)

theorem Expression.reline_const (x : Expression) : x.reline (fun _ => line) = x.onLine line := by
  induction x with
  | binary left op right ihl ihr => rw [reline, onLine, ihl, ihr]
  | unary op operand ih => rw [reline, onLine, ih]
  | number | boolean | var => rfl

namespace Statement

mutual

theorem reline_const (s : Statement) : s.reline (fun _ => line) = s.onLine line := by
  match s with
  | compound children => rw [reline, onLine, relineAll_const children]
  | assign target op value => rw [reline, onLine, value.reline_const]; rfl
  | ifThen condition thenBranch =>
    rw [reline, onLine, condition.reline_const, reline_const thenBranch]
  | ifThenElse condition thenBranch elseBranch =>
    rw [reline, onLine, condition.reline_const, reline_const thenBranch, reline_const elseBranch]
  | loop condition body => rw [reline, onLine, condition.reline_const, reline_const body]
  | call _ | empty => rfl

theorem relineAll_const (ss : List Statement) :
    relineAll (fun _ => line) ss = allOnLine line ss := by
  match ss with
  | [] => rfl
  | s :: ss => rw [relineAll, allOnLine, reline_const s, relineAll_const ss]

end

end Statement

namespace Declaration

mutual

theorem reline_const (d : Declaration) : d.reline (fun _ => line) = d.onLine line := by
  match d with
  | var _ => rfl
  | procedure heading inner body =>
    rw [reline, onLine, relineAll_const inner, Statement.relineAll_const]
    rfl

theorem relineAll_const (ds : List Declaration) :
    relineAll (fun _ => line) ds = allOnLine line ds := by
  match ds with
  | [] => rfl
  | d :: ds => rw [relineAll, allOnLine, reline_const d, relineAll_const ds]

end

end Declaration

/-- **To put all places on one line is to change every line to that one.** -/
theorem Program.reline_const (program : Program) :
    program.reline (fun _ => line) = program.onLine line := by
  rw [reline, onLine, Block.reline, Block.onLine, Declaration.relineAll_const,
    Statement.relineAll_const]

end Constant

end LusoPascal
