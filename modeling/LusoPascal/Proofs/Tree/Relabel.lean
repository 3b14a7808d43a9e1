import LusoPascal.Proofs.Tree.Reline

/-!
# Trees with other names

A program keeps its shape and its types if all that it declares and refers to is called by other
names, one for one. The words for types are no names of its own and have to stay.

* `Relabelling`: a rule for other names, and for the tokens and lines where they stand;
* `Expression.relabel`, `Statement.relabel`, `Declaration.relabel`, `Program.relabel`: these trees;
* `Relabelling.ofLines`, **`Program.relabel_ofLines`**: to change the lines alone is one such rule.
-/

namespace LusoPascal

/-- A rule for other names: no two names become one, and the words for types stay. The tokens of
identifiers and all lines are changed along with the names. -/
structure Relabelling where
  name : String → String
  token : Token → Token
  line : Nat → Nat
  injective : Function.Injective name
  name_word : ∀ type : BaseType, name type.word = type.word

section Relabel

variable (rule : Relabelling)

/-- An identifier with another name. -/
def Identifier.relabel (ident : Identifier) : Identifier :=
  ⟨rule.name ident.name, rule.token ident.token, rule.line ident.line⟩

def Expression.relabel : Expression → Expression
  | binary left op right => binary left.relabel op right.relabel
  | unary op operand => unary op operand.relabel
  | number value => number value
  | boolean value => boolean value
  | var ident => var (ident.relabel rule)

def Call.relabel (call : Call) : Call :=
  ⟨rule.name call.name, call.args.map rule.name, rule.line call.line⟩

namespace Statement

mutual

def relabel : Statement → Statement
  | compound children => compound (relabelAll children)
  | assign target op value => assign (target.relabel rule) op (value.relabel rule)
  | ifThen condition thenBranch => ifThen (condition.relabel rule) thenBranch.relabel
  | ifThenElse condition thenBranch elseBranch =>
    ifThenElse (condition.relabel rule) thenBranch.relabel elseBranch.relabel
  | loop condition body => loop (condition.relabel rule) body.relabel
  | call c => call (c.relabel rule)
  | empty => empty

def relabelAll : List Statement → List Statement
  | [] => []
  | s :: ss => s.relabel :: relabelAll ss

end

end Statement

/-- A declared name changed, and the token of its type kept. -/
def TypedIdentifier.relabel (entry : TypedIdentifier) : TypedIdentifier :=
  { entry with ident := entry.ident.relabel rule }

def Heading.relabel (heading : Heading) : Heading :=
  ⟨rule.name heading.name, heading.params.map (TypedIdentifier.relabel rule),
    rule.line heading.line⟩

namespace Declaration

mutual

def relabel : Declaration → Declaration
  | var entry => var (entry.relabel rule)
  | procedure heading inner body =>
    procedure (heading.relabel rule) (relabelAll inner) (Statement.relabelAll rule body)

def relabelAll : List Declaration → List Declaration
  | [] => []
  | d :: ds => d.relabel :: relabelAll ds

end

end Declaration

def Block.relabel (block : Block) : Block :=
  ⟨Declaration.relabelAll rule block.declarations, Statement.relabelAll rule block.body⟩

/-- A program with other names. Its own name is not declared anywhere and stays. -/
def Program.relabel (program : Program) : Program := ⟨program.name, program.block.relabel rule⟩

end Relabel

/-! ## Other lines alone -/

/-- The rule that changes nothing but lines. -/
def Relabelling.ofLines (f : Nat → Nat) : Relabelling where
  name := id
  token := id
  line := f
  injective := Function.injective_id
  name_word _ := rfl

section OfLines

variable (f : Nat → Nat)

theorem Expression.relabel_ofLines (x : Expression) : x.relabel (.ofLines f) = x.reline f := by
  induction x with
  | binary left op right ihl ihr => rw [relabel, reline, ihl, ihr]
  | unary op operand ih => rw [relabel, reline, ih]
  | number | boolean | var => rfl

theorem Call.relabel_ofLines (call : Call) : call.relabel (.ofLines f) = call.reline f := by
  rw [relabel, reline, Relabelling.ofLines, List.map_id]
  rfl

namespace Statement

mutual

theorem relabel_ofLines (s : Statement) : s.relabel (.ofLines f) = s.reline f := by
  match s with
  | compound children => rw [relabel, reline, relabelAll_ofLines children]
  | assign target op value => rw [relabel, reline, value.relabel_ofLines]; rfl
  | ifThen condition thenBranch =>
    rw [relabel, reline, condition.relabel_ofLines, relabel_ofLines thenBranch]
  | ifThenElse condition thenBranch elseBranch =>
    rw [relabel, reline, condition.relabel_ofLines, relabel_ofLines thenBranch,
      relabel_ofLines elseBranch]
  | loop condition body => rw [relabel, reline, condition.relabel_ofLines, relabel_ofLines body]
  | call c => rw [relabel, reline, c.relabel_ofLines]
  | empty => rfl

theorem relabelAll_ofLines (ss : List Statement) :
    relabelAll (.ofLines f) ss = relineAll f ss := by
  match ss with
  | [] => rfl
  | s :: ss => rw [relabelAll, relineAll, relabel_ofLines s, relabelAll_ofLines ss]

end

end Statement

namespace Declaration

mutual

theorem relabel_ofLines (d : Declaration) : d.relabel (.ofLines f) = d.reline f := by
  match d with
  | var _ => rfl
  | procedure heading inner body =>
    rw [relabel, reline, relabelAll_ofLines inner, Statement.relabelAll_ofLines]
    rfl

theorem relabelAll_ofLines (ds : List Declaration) :
    relabelAll (.ofLines f) ds = relineAll f ds := by
  match ds with
  | [] => rfl
  | d :: ds => rw [relabelAll, relineAll, relabel_ofLines d, relabelAll_ofLines ds]

end

end Declaration

/-- **To change the lines alone is one such rule.** -/
theorem Program.relabel_ofLines (program : Program) :
    program.relabel (.ofLines f) = program.reline f := by
  rw [relabel, reline, Block.relabel, Block.reline, Declaration.relabelAll_ofLines,
    Statement.relabelAll_ofLines]

end OfLines

end LusoPascal
