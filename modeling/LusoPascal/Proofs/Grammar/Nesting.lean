import Mathlib.Logic.Relation
import LusoPascal.Proofs.Grammar.Entering
import LusoPascal.Proofs.Grammar.Program

/-!
# How the rules nest

A block holds blocks and commands, a command holds commands, an expression holds factors, and a
factor holds factors and expressions. An expression holds no command, and a command no block, so no
rule comes back to itself in any other way, and none does without a token that is consumed on the
way.

* `factorOn`, `statementOn`, `blockOn`, `programOn`: the rules over those that they hold, left open;
* `Rule`, `Calls`: a rule at a reader calls another one at another reader;
* `Rule.rank`: an expression calls a factor before anything is consumed, and nothing else does so;
* **`Calls.exists_span`**, **`Calls.exists_span_of_nested`**: what lies between two calls;
* **`Calls.span_ne_nil_of_recursion`**: a rule that comes back to itself has consumed a token.
-/

namespace LusoPascal

namespace Production

open Delivery

/-! ## Rules over the rules that they hold -/

/-- A factor over the expressions and the factors inside it. -/
def factorOn (expression factor : Nat → Production Expression) : Nat → Production Expression
  | 0 => spent
  | budget + 1 => do
    let token ← ahead
    match token.lexeme, token.kind with
    | .integer value, _ =>
      discard (expect .integerLiteral)
      return .number value
    | _, .leftParen =>
      discard take
      let inner ← expression budget
      discard (expect .rightParen)
      return inner
    | _, .nao =>
      let op ← take
      return .unary op (← factor budget)
    | _, _ => return .var (← identifier)

/-- A command over the commands inside it. -/
def statementOn (statement : Nat → Production Statement) : Nat → Production Statement
  | 0 => spent
  | budget + 1 => do
    match (← ahead).kind with
    | .inicio => return .compound (← compound (statement budget) budget)
    | .identifier =>
      if ← assignAhead then assignment budget
      else return .call (← call budget)
    | .se => conditional (statement budget) budget
    | .enquanto => loop (statement budget) budget
    | _ => return .empty

/-- A block over the blocks and the commands inside it. -/
def blockOn (block : Nat → Production Block) (statement : Nat → Production Statement) :
    Nat → Production Block
  | 0 => spent
  | budget + 1 => do
    let declarations ← declarations (block budget) budget
    let body ← compound (statement budget) budget
    return ⟨declarations, body⟩

/-- A program over the block inside it. -/
def programOn (block : Nat → Production Block) (budget : Nat) : Production Program := do
  discard (expect .program)
  let name := (← identifier).name
  discard (expect .semicolon)
  let block ← block budget
  discard (expect .dot)
  return ⟨name, block⟩

theorem factorOn_factor : factorOn expression factor = factor := by
  funext budget
  cases budget <;> rfl

theorem statementOn_statement : statementOn statement = statement := by
  funext budget
  cases budget <;> rfl

theorem blockOn_block : blockOn block statement = block := by
  funext budget
  cases budget <;> rfl

theorem programOn_block : programOn block = program := rfl

theorem relation_factor (budget : Nat) : relation (factor budget) budget = expression budget := rfl

/-! ## What is consumed before -/

theorem factor_consumes (budget : Nat) : Consumes 0 (factor budget) :=
  (factor_sound budget).consumes_zero

theorem expression_consumes (budget : Nat) : Consumes 0 (expression budget) :=
  (expression_sound budget).consumes_zero

theorem statement_consumes (budget : Nat) : Consumes 0 (statement budget) :=
  fun d => (statement_sound budget d).mono fun _ _ _ _ => Nat.zero_le _

section Expressions

variable (budget : Nat)

theorem term_entersAfter :
    EntersAfter 0 (fun factor => term (factor budget) budget) factor := by
  unfold term
  refine .bind (factor_consumes budget) (.member budget) fun left => ?_
  exact .chain (.member budget) (factor_consumes budget) _ _ budget left

theorem simpleExpression_entersAfter :
    EntersAfter 0 (fun factor => simpleExpression (factor budget) budget) factor := by
  have hends : Consumes 0 (term (factor budget) budget) :=
    (term_sound (factor_sound budget) budget).consumes_zero
  have hterm := term_entersAfter budget
  have hrest (left : Expression) := hterm.chain hends TokenKind.isAdditive .binary budget left
  unfold simpleExpression
  refine .const_bind .ahead fun token => .ite ?_ ?_
  · exact .const_bind .take fun sign => .bind hends hterm fun left => hrest (.unary sign left)
  · exact .bind hends hterm hrest

theorem relation_entersAfter :
    EntersAfter 0 (fun factor => relation (factor budget) budget) factor := by
  have hends : Consumes 0 (simpleExpression (factor budget) budget) :=
    (simpleExpression_sound (factor_sound budget) budget).consumes_zero
  have hsimple := simpleExpression_entersAfter budget
  unfold relation
  refine .bind hends hsimple fun left => .const_bind .ahead fun token => .ite ?_ .const
  exact .const_bind .take fun op => .bind_const hsimple

theorem factorOn_entersAfter_expression (budget : Nat) :
    EntersAfter 1 (fun expression => factorOn expression factor budget) expression := by
  cases budget with
  | zero => exact .const
  | succ budget =>
    unfold factorOn
    refine .const_bind .ahead fun token => ?_
    -- the two runs differ in the member alone, so the token ahead chooses one branch for both
    rintro d log here ⟨q, hq, hne⟩
    split at hne
    · exact absurd rfl hne
    · exact (EntersAfter.succ_bind Consumes.take.discard fun _ =>
        .bind_const (.member budget)) ⟨q, hq, hne⟩
    · exact absurd rfl hne
    · exact absurd rfl hne

theorem factorOn_entersAfter_factor (budget : Nat) :
    EntersAfter 1 (fun factor => factorOn expression factor budget) factor := by
  cases budget with
  | zero => exact .const
  | succ budget =>
    unfold factorOn
    refine .const_bind .ahead fun token => ?_
    rintro d log here ⟨q, hq, hne⟩
    split at hne
    · exact absurd rfl hne
    · exact absurd rfl hne
    · exact (EntersAfter.succ_bind .take fun _ => .bind_const (.member budget)) ⟨q, hq, hne⟩
    · exact absurd rfl hne

end Expressions

section Commands

variable (budget : Nat)

theorem compound_entersAfter :
    EntersAfter 1 (fun statement => compound (statement budget) budget) statement := by
  unfold compound
  refine .succ_bind (Consumes.expect _).discard fun _ => .bind_const ?_
  exact .separated (.member budget) (statement_consumes budget) _ budget

theorem conditional_entersAfter :
    EntersAfter 1 (fun statement => conditional (statement budget) budget) statement := by
  unfold conditional
  refine .succ_bind (Consumes.expect _).discard fun _ => ?_
  refine .const_bind (expression_consumes budget) fun condition => ?_
  refine .const_bind (Consumes.expect _).discard fun _ => ?_
  refine .bind (statement_consumes budget) (.member budget) fun thenBranch => ?_
  refine .const_bind (.isAhead _) fun _ => .ite ?_ .const
  exact .const_bind Consumes.take.discard fun _ => .bind_const (.member budget)

theorem loop_entersAfter :
    EntersAfter 1 (fun statement => loop (statement budget) budget) statement := by
  unfold loop
  refine .succ_bind (Consumes.expect _).discard fun _ => ?_
  refine .const_bind (expression_consumes budget) fun condition => ?_
  exact .const_bind (Consumes.expect _).discard fun _ => .bind_const (.member budget)

theorem statementOn_entersAfter :
    EntersAfter 1 (fun statement => statementOn statement budget) statement := by
  cases budget with
  | zero => exact .const
  | succ budget =>
    unfold statementOn
    refine .const_bind .ahead fun token => ?_
    rintro d log here ⟨q, hq, hne⟩
    split at hne
    · exact (compound_entersAfter budget).bind_const ⟨q, hq, hne⟩
    · exact absurd rfl hne
    · exact conditional_entersAfter budget ⟨q, hq, hne⟩
    · exact loop_entersAfter budget ⟨q, hq, hne⟩
    · exact absurd rfl hne

end Commands

section Blocks

variable (budget : Nat)

theorem procedure_entersAfter :
    EntersAfter 1 (fun block => procedure (block budget) budget) block := by
  simp only [procedure_eq]
  refine .const_bind .line fun line => .succ_bind (Consumes.expect _).discard fun _ => ?_
  refine .const_bind (.expect _) fun name => ?_
  refine .const_bind (parameters_sound budget).consumes_zero fun params => ?_
  exact .const_bind (Consumes.expect _).discard fun _ => .bind_const (.member budget)

theorem blockOn_entersAfter_block :
    EntersAfter 1 (fun block => blockOn block statement budget) block := by
  cases budget with
  | zero => exact .const
  | succ budget =>
    have hends : Consumes 0 (procedure (block budget) budget) :=
      (procedure_sound (block_sound budget) budget).consumes_zero
    unfold blockOn declarations
    refine .bind_const (.const_bind (whileAhead_sound (variableGroup_sound budget) _).consumes_zero
      fun groups => .bind_const ?_)
    exact (procedure_entersAfter budget).whileAhead hends _ budget

theorem blockOn_entersAfter_statement :
    EntersAfter 1 (fun statement => blockOn block statement budget) statement := by
  cases budget with
  | zero => exact .const
  | succ budget =>
    unfold blockOn
    refine .const_bind (declarations_sound (block_sound budget) budget).consumes_zero fun ds => ?_
    exact .bind_const (compound_entersAfter budget)

theorem programOn_entersAfter :
    EntersAfter 1 (fun block => programOn block budget) block := by
  unfold programOn
  refine .succ_bind (Consumes.expect _).discard fun _ => ?_
  refine .const_bind identifier_sound.consumes_zero fun name => ?_
  exact .const_bind (Consumes.expect _).discard fun _ => .bind_const (.member budget)

end Blocks

end Production

/-! ## Calls -/

open Production

/-- The rules that hold other ones, or are held. -/
inductive Rule where
  | program
  | block
  | statement
  | expression
  | factor
deriving DecidableEq

/-- The order of the rules that call one another before anything is consumed. -/
def Rule.rank : Rule → Nat
  | factor => 1
  | program | block | statement | expression => 0

/-- A rule at a reader calls another one at another reader, on whatever budget. -/
inductive Calls : Rule × Reader → Rule × Reader → Prop
  | programBlock {reader here : Reader} {budget : Nat}
      (h : Enters (fun block => programOn block budget) block reader here) :
      Calls (.program, reader) (.block, here)
  | blockBlock {reader here : Reader} {budget : Nat}
      (h : Enters (fun block => blockOn block statement budget) block reader here) :
      Calls (.block, reader) (.block, here)
  | blockStatement {reader here : Reader} {budget : Nat}
      (h : Enters (fun statement => blockOn block statement budget) statement reader here) :
      Calls (.block, reader) (.statement, here)
  | statementStatement {reader here : Reader} {budget : Nat}
      (h : Enters (fun statement => statementOn statement budget) statement reader here) :
      Calls (.statement, reader) (.statement, here)
  | expressionFactor {reader here : Reader} {budget : Nat}
      (h : Enters (fun factor => relation (factor budget) budget) factor reader here) :
      Calls (.expression, reader) (.factor, here)
  | factorFactor {reader here : Reader} {budget : Nat}
      (h : Enters (fun factor => factorOn expression factor budget) factor reader here) :
      Calls (.factor, reader) (.factor, here)
  | factorExpression {reader here : Reader} {budget : Nat}
      (h : Enters (fun expression => factorOn expression factor budget) expression reader here) :
      Calls (.factor, reader) (.expression, here)

namespace Calls

open Delivery

variable {d : Delivery} {log : Array Located} {outer inner : Rule} {here : Reader}

/-- **What lies between two calls**: some deliveries, or none between an expression and a factor. -/
theorem exists_span (h : Calls (outer, d.reader log) (inner, here)) :
    ∃ w e, here = e.reader (logged log w) ∧ Span d w e ∧ (w ≠ [] ∨ outer.rank < inner.rank) := by
  have hstrict {ι α β : Type} {rule : (ι → Production α) → Production β} {p : ι → Production α}
      (hrule : EntersAfter 1 rule p) (henters : Enters rule p (d.reader log) here) :
      ∃ w e, here = e.reader (logged log w) ∧ Span d w e ∧ (w ≠ [] ∨ outer.rank < inner.rank) := by
    obtain ⟨w, e, hhere, hspan, hw⟩ := hrule.exists_span henters
    exact ⟨w, e, hhere, hspan, .inl hw⟩
  cases h with
  | programBlock h => exact hstrict (programOn_entersAfter _) h
  | blockBlock h => exact hstrict (blockOn_entersAfter_block _) h
  | blockStatement h => exact hstrict (blockOn_entersAfter_statement _) h
  | statementStatement h => exact hstrict (statementOn_entersAfter _) h
  | expressionFactor h =>
    obtain ⟨w, e, hhere, hspan, -⟩ := relation_entersAfter _ h
    exact ⟨w, e, hhere, hspan, .inr Nat.zero_lt_one⟩
  | factorFactor h => exact hstrict (factorOn_entersAfter_factor _) h
  | factorExpression h => exact hstrict (factorOn_entersAfter_expression _) h

/-- **What lies between calls inside one another.** -/
theorem exists_span_of_nested (h : Relation.TransGen Calls (outer, d.reader log) (inner, here)) :
    ∃ w e, here = e.reader (logged log w) ∧ Span d w e ∧ (w ≠ [] ∨ outer.rank < inner.rank) := by
  generalize hcall : (inner, here) = call at h
  induction h generalizing inner here with
  | single h =>
    subst hcall
    exact exists_span h
  | @tail between _ _ h ih =>
    subst hcall
    obtain ⟨v, e, hbetween, hv, hfirst⟩ := ih rfl
    obtain ⟨middle, reader⟩ := between
    dsimp only at hbetween
    subst hbetween
    obtain ⟨w, f, rfl, hw, hlast⟩ := exists_span h
    refine ⟨v ++ w, f, by rw [logged_append], hv.append hw, ?_⟩
    rcases hfirst with hv | hfirst
    · exact .inl (List.append_ne_nil_of_left_ne_nil hv w)
    · rcases hlast with hw | hlast
      · exact .inl (List.append_ne_nil_of_right_ne_nil v hw)
      · exact .inr (hfirst.trans hlast)

/-- **A rule that comes back to itself has consumed a token.** -/
theorem span_ne_nil_of_recursion (h : Relation.TransGen Calls (outer, d.reader log) (outer, here)) :
    ∃ w e, here = e.reader (logged log w) ∧ Span d w e ∧ w ≠ [] := by
  obtain ⟨w, e, hhere, hspan, hw⟩ := exists_span_of_nested h
  exact ⟨w, e, hhere, hspan, hw.resolve_right (lt_irrefl _)⟩

end Calls

end LusoPascal
