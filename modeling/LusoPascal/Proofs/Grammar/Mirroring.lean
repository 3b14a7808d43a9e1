import LusoPascal.Proofs.Grammar.Lockstep
import LusoPascal.Proofs.Grammar.Program

/-!
# Every production runs alike on alike deliveries

The grammar looks at tokens and, behind an identifier that begins a command, at one raw character. So
two runs of a production on alike deliveries end alike, on any two budgets that are not spent, with
trees that are the same up to lines.

* `expression_mirrors`, `statement_mirrors`, `block_mirrors`: the productions;
* **`program_mirrors`**: whole programs.
-/

namespace LusoPascal

namespace Production

open Delivery

/-! ## Expressions -/

theorem identifier_mirrors : Mirrors identifier identifier (Identifier.onLine 1) :=
  Mirrors.line.bind fun _ _ _ => (Mirrors.expect .identifier).bind_eq fun _ => .pure rfl

theorem binary_onLine {l l' r r' : Expression} (op : Token) (hl : l.onLine 1 = l'.onLine 1)
    (hr : r.onLine 1 = r'.onLine 1) :
    (Expression.binary l op r).onLine 1 = (Expression.binary l' op r').onLine 1 := by
  rw [Expression.onLine, Expression.onLine, hl, hr]

theorem unary_onLine {x x' : Expression} (op : Token) (hx : x.onLine 1 = x'.onLine 1) :
    (Expression.unary op x).onLine 1 = (Expression.unary op x').onLine 1 := by
  rw [Expression.onLine, Expression.onLine, hx]

section Levels

variable {factor factor' : Production Expression}
  (hfactor : Mirrors factor factor' (Expression.onLine 1)) (budget budget' : Nat)

include hfactor

theorem term_mirrors : Mirrors (term factor budget) (term factor' budget') (Expression.onLine 1) :=
  hfactor.bind fun _ _ h => hfactor.chain binary_onLine budget budget' h

theorem simpleExpression_mirrors :
    Mirrors (simpleExpression factor budget) (simpleExpression factor' budget')
      (Expression.onLine 1) := by
  have hterm := term_mirrors hfactor budget budget'
  refine Mirrors.ahead.bind_eq fun token => ?_
  split
  · refine Mirrors.take.bind_eq fun sign => hterm.bind fun x x' hx => ?_
    rw [pure_bind, pure_bind]
    exact hterm.chain binary_onLine budget budget' (unary_onLine sign hx)
  · exact hterm.bind fun _ _ h => hterm.chain binary_onLine budget budget' h

theorem relation_mirrors :
    Mirrors (relation factor budget) (relation factor' budget') (Expression.onLine 1) := by
  have hsimple := simpleExpression_mirrors hfactor budget budget'
  refine hsimple.bind fun l l' hl => Mirrors.ahead.bind_eq fun token => .ite ?_ (.pure hl)
  exact Mirrors.take.bind_eq fun op => hsimple.bind fun r r' hr => .pure (binary_onLine op hl hr)

end Levels

theorem factor_mirrors : ∀ budget budget',
    Mirrors (factor budget) (factor budget') (Expression.onLine 1)
  | 0, _ => .spent_left
  | budget + 1, budget' => by
    refine .of_succ rfl (fun budget' => ?_) budget'
    have ih := factor_mirrors budget budget'
    refine Mirrors.ahead.bind_eq fun token => ?_
    split
    · exact (Mirrors.expect _).discard.bind_eq fun _ => .pure rfl
    · refine Mirrors.take.discard.bind_eq fun _ => ?_
      refine (relation_mirrors ih budget budget').bind fun x x' hx => ?_
      exact (Mirrors.expect _).discard.bind_eq fun _ => .pure hx
    · exact Mirrors.take.bind_eq fun op => ih.bind fun x x' hx => .pure (unary_onLine op hx)
    · exact identifier_mirrors.bind fun _ _ h => .pure (congrArg Expression.var h)

theorem expression_mirrors (budget budget' : Nat) :
    Mirrors (expression budget) (expression budget') (Expression.onLine 1) :=
  relation_mirrors (factor_mirrors budget budget') budget budget'

/-! ## Commands -/

theorem name_mirrors :
    Mirrors (Token.text <$> expect .identifier) (Token.text <$> expect .identifier) id :=
  (Mirrors.expect .identifier).map fun _ _ h => congrArg Token.text h

theorem assignedValue_mirrors (budget budget' : Nat) :
    Mirrors (assignedValue budget) (assignedValue budget') (Expression.onLine 1) :=
  (Mirrors.isAhead _).bind_eq fun _ =>
    .ite (Mirrors.take.bind_eq fun _ => .pure rfl) (expression_mirrors budget budget')

theorem assignment_mirrors (budget budget' : Nat) :
    Mirrors (assignment budget) (assignment budget') (Statement.onLine 1) := by
  refine identifier_mirrors.bind fun target target' htarget => ?_
  refine (Mirrors.expect _).bind_eq fun op => ?_
  refine (assignedValue_mirrors budget budget').bind fun x x' hx => .pure ?_
  rw [Statement.onLine, Statement.onLine, htarget, hx]

theorem arguments_mirrors (budget budget' : Nat) :
    Mirrors (arguments budget) (arguments budget') id := by
  have hnames : Mirrors (separated .comma (Token.text <$> expect .identifier) budget)
      (separated .comma (Token.text <$> expect .identifier) budget') id :=
    (name_mirrors.separated budget budget').mono fun as bs h => by
      rwa [List.map_id, List.map_id] at h
  rw [arguments_eq, arguments_eq]
  refine (Mirrors.expect _).discard.bind_eq fun _ => hnames.ifAhead.bind_eq fun names => ?_
  exact (Mirrors.expect _).discard.bind_eq fun _ => .pure rfl

theorem call_mirrors (budget budget' : Nat) :
    Mirrors (call budget) (call budget') fun call => { call with line := 1 } := by
  rw [call_eq, call_eq]
  refine Mirrors.line.bind fun line line' _ => (Mirrors.expect _).bind_eq fun name => ?_
  exact (arguments_mirrors budget budget').ifAhead.bind_eq fun args => .pure rfl

section Nested

variable {item item' : Production Statement}
  (hitem : Mirrors item item' (Statement.onLine 1)) (budget budget' : Nat)

include hitem

theorem compound_mirrors :
    Mirrors (compound item budget) (compound item' budget') (Statement.allOnLine 1) := by
  refine (Mirrors.expect _).discard.bind_eq fun _ => ?_
  refine (hitem.separated budget budget').bind fun ss ss' hss => ?_
  have hclose : Mirrors (do discard (expect .fim); return ss) (do discard (expect .fim); return ss')
      (Statement.allOnLine 1) := by
    refine (Mirrors.expect _).discard.bind_eq fun _ => .pure ?_
    rwa [Statement.allOnLine_eq_map, Statement.allOnLine_eq_map]
  exact (Mirrors.isAhead _).bind_eq fun _ =>
    .ite (Mirrors.reject.bind_eq fun _ => hclose) hclose

theorem conditional_mirrors :
    Mirrors (conditional item budget) (conditional item' budget') (Statement.onLine 1) := by
  refine (Mirrors.expect _).discard.bind_eq fun _ => ?_
  refine (expression_mirrors budget budget').bind fun c c' hc => ?_
  refine (Mirrors.expect _).discard.bind_eq fun _ => hitem.bind fun s s' hs => ?_
  refine (Mirrors.isAhead _).bind_eq fun _ => .ite ?_ (.pure ?_)
  · refine Mirrors.take.discard.bind_eq fun _ => hitem.bind fun t t' ht => .pure ?_
    rw [Statement.onLine, Statement.onLine, hc, hs, ht]
  · rw [Statement.onLine, Statement.onLine, hc, hs]

theorem loop_mirrors :
    Mirrors (loop item budget) (loop item' budget') (Statement.onLine 1) := by
  refine (Mirrors.expect _).discard.bind_eq fun _ => ?_
  refine (expression_mirrors budget budget').bind fun c c' hc => ?_
  refine (Mirrors.expect _).discard.bind_eq fun _ => hitem.bind fun s s' hs => .pure ?_
  rw [Statement.onLine, Statement.onLine, hc, hs]

end Nested

/-- A command that begins with an identifier. -/
def named (budget : Nat) : Production Statement := do
  if ← assignAhead then assignment budget
  else return .call (← call budget)

theorem named_takes (budget : Nat) : Takes .identifier (named budget) := by
  have hassignment : Takes .identifier (assignment budget) := by
    have hidentifier : Takes .identifier identifier :=
      .line_bind fun _ => Takes.expect.bind fun _ => .pure _
    refine hidentifier.bind fun _ => (Grows.expect _).bind fun _ => ?_
    exact (assignedValue_mirrors budget budget).grows.bind fun _ => .pure _
  have hcall : Takes .identifier (call budget) := by
    rw [call_eq]
    refine .line_bind fun _ => Takes.expect.bind fun _ => ?_
    exact (arguments_mirrors budget budget).ifAhead.grows.bind fun _ => .pure _
  intro d log hd
  change _ < (reached (if d.rawAssign = true then _ else _) (d.reader log)).consumed.size
  split
  · exact hassignment log hd
  · exact hcall.bind (fun _ => .pure _) log hd

theorem named_grows (budget : Nat) : Grows (named budget) := by
  refine Grows.bind (fun _ => le_rfl) fun yes => ?_
  split
  · exact (assignment_mirrors budget budget).grows
  · exact (call_mirrors budget budget).grows.bind fun _ => .pure _

/-- Where no token may be consumed the raw characters may differ, but whichever command is read, its
identifier is consumed. -/
theorem named_runAlike (budget budget' : Nat) {n : Nat} {d d' : Delivery} (hd : Alike n d d')
    (hkind : d.kind = .identifier) :
    RunAlike (named budget) (named budget') (Statement.onLine 1) n d d' := by
  intro log log' hsize
  cases n with
  | zero => exact absurd hsize (Nat.not_le.mpr (named_takes budget log hkind))
  | succ n =>
    have hcall : Mirrors (do return .call (← call budget)) (do return .call (← call budget'))
        (Statement.onLine 1) :=
      (call_mirrors budget budget').bind fun _ _ h => .pure (congrArg Statement.call h)
    have hboth : Mirrors (if d.rawAssign = true then assignment budget else _)
        (if d.rawAssign = true then assignment budget' else _) (Statement.onLine 1) :=
      (assignment_mirrors budget budget').ite hcall
    have hrun := hboth.runs hd log log' hsize
    rw [hd.rawAssign hkind] at hrun
    rw [named, named, assignAhead_bind, assignAhead_bind, hd.rawAssign hkind]
    exact hrun

theorem statement_mirrors : ∀ budget budget',
    Mirrors (statement budget) (statement budget') (Statement.onLine 1)
  | 0, _ => .spent_left
  | budget + 1, budget' => by
    refine .of_succ rfl (fun budget' => ?_) budget'
    have ih := statement_mirrors budget budget'
    have hcompound : Mirrors (do return .compound (← compound (statement budget) budget))
        (do return .compound (← compound (statement budget') budget')) (Statement.onLine 1) :=
      (compound_mirrors ih budget budget').bind fun _ _ h => .pure (congrArg Statement.compound h)
    refine ⟨Grows.bind (fun _ => le_rfl) fun token => ?_, fun {n d d'} hd => .ahead_bind hd ?_⟩
    · split
      · exact hcompound.grows
      · exact named_grows budget
      · exact (conditional_mirrors ih budget budget').grows
      · exact (loop_mirrors ih budget budget').grows
      · exact .pure _
    · split
      · exact hcompound.runs hd
      · next hkind => exact named_runAlike budget budget' hd hkind
      · exact (conditional_mirrors ih budget budget').runs hd
      · exact (loop_mirrors ih budget budget').runs hd
      · exact (Mirrors.pure rfl).runs hd

/-! ## Declarations -/

theorem typeName_mirrors : Mirrors typeName typeName id := by
  refine Mirrors.ahead.bind_eq fun token => .ite ?_ .reject
  exact Mirrors.take.bind_eq fun token => .pure rfl

theorem marker_mirrors : Mirrors marker marker id := Mirrors.take.discard.ifAhead

theorem declarator_mirrors (budget budget' : Nat) :
    Mirrors (declarator budget) (declarator budget') (Identifier.onLine 1) := by
  have hvalue := (expression_mirrors budget budget').discard
  rw [declarator_eq, declarator_eq]
  refine identifier_mirrors.bind fun ident ident' h => ?_
  have hinitializer : Mirrors (initializer budget) (initializer budget') id :=
    (Mirrors.take.discard.bind_eq fun _ => hvalue).ifAhead
  exact hinitializer.bind_eq fun _ => .pure h

theorem map_onLine_eq {α β : Type} {view : α → β} {make : Identifier → α}
    (hmake : ∀ ident, view (make ident) = view (make (ident.onLine 1))) {is js : List Identifier}
    (h : is.map (Identifier.onLine 1) = js.map (Identifier.onLine 1)) :
    (is.map make).map view = (js.map make).map view := by
  have hview (ks : List Identifier) :
      (ks.map make).map view = (ks.map (Identifier.onLine 1)).map (view ∘ make) := by
    rw [List.map_map, List.map_map]
    exact List.map_congr_left fun ident _ => hmake ident
  rw [hview, hview, h]

theorem variableGroup_mirrors (budget budget' : Nat) :
    Mirrors (variableGroup budget) (variableGroup budget') (List.map (Declaration.onLine 1)) := by
  rw [variableGroup_eq, variableGroup_eq]
  refine marker_mirrors.bind_eq fun _ => typeName_mirrors.bind_eq fun type => ?_
  refine ((declarator_mirrors budget budget').separated budget budget').bind fun is js h => ?_
  refine (Mirrors.expect _).discard.bind_eq fun _ => .pure ?_
  exact map_onLine_eq (fun _ => rfl) h

theorem parameterGroup_mirrors (budget budget' : Nat) :
    Mirrors (parameterGroup budget) (parameterGroup budget')
      (List.map (TypedIdentifier.onLine 1)) := by
  rw [parameterGroup_eq, parameterGroup_eq]
  refine marker_mirrors.bind_eq fun _ => ?_
  refine (identifier_mirrors.separated budget budget').bind fun is js h => ?_
  refine (Mirrors.expect _).discard.bind_eq fun _ => typeName_mirrors.bind_eq fun type => .pure ?_
  exact map_onLine_eq (fun _ => rfl) h

theorem parameters_mirrors (budget budget' : Nat) :
    Mirrors (parameters budget) (parameters budget') (List.map (TypedIdentifier.onLine 1)) := by
  refine (Mirrors.expect _).discard.bind_eq fun _ => ?_
  refine ((parameterGroup_mirrors budget budget').separated budget budget').bind fun gs hs h => ?_
  refine (Mirrors.expect _).discard.bind_eq fun _ => .pure ?_
  rw [List.map_flatten, List.map_flatten, h]

section Nested

variable {block block' : Production Block} (hblock : Mirrors block block' (Block.onLine 1))
  (budget budget' : Nat)

include hblock

theorem procedure_mirrors :
    Mirrors (procedure block budget) (procedure block' budget') (Declaration.onLine 1) := by
  rw [procedure_eq, procedure_eq]
  refine Mirrors.line.bind fun line line' _ => (Mirrors.expect _).discard.bind_eq fun _ => ?_
  refine (Mirrors.expect _).bind_eq fun name => ?_
  refine (parameters_mirrors budget budget').ifAhead.bind fun ps qs hparams => ?_
  refine (Mirrors.expect _).discard.bind_eq fun _ => hblock.bind fun b c hbody => ?_
  refine (Mirrors.expect _).discard.bind_eq fun _ => .pure ?_
  obtain ⟨hds, hss⟩ := Block.mk.inj hbody
  rw [Declaration.onLine, Declaration.onLine, hparams, hds, hss]

theorem declarations_mirrors :
    Mirrors (declarations block budget) (declarations block' budget')
      (Declaration.allOnLine 1) := by
  refine ((variableGroup_mirrors budget budget').whileAhead budget budget').bind
    fun gs hs hgroups => ?_
  refine ((procedure_mirrors hblock budget budget').whileAhead budget budget').bind
    fun ps qs hprocedures => .pure ?_
  rw [Declaration.allOnLine_eq_map, Declaration.allOnLine_eq_map, List.map_append, List.map_append,
    List.map_flatten, List.map_flatten, hgroups, hprocedures]

end Nested

theorem block_mirrors : ∀ budget budget', Mirrors (block budget) (block budget') (Block.onLine 1)
  | 0, _ => .spent_left
  | budget + 1, budget' => by
    refine .of_succ rfl (fun budget' => ?_) budget'
    refine (declarations_mirrors (block_mirrors budget budget') budget budget').bind
      fun ds ds' hds => ?_
    refine (compound_mirrors (statement_mirrors budget budget') budget budget').bind
      fun ss ss' hss => .pure ?_
    rw [Block.onLine, Block.onLine, hds, hss]

/-- **Programs are read alike from alike deliveries.** -/
theorem program_mirrors (budget budget' : Nat) :
    Mirrors (program budget) (program budget') (Program.onLine 1) := by
  refine (Mirrors.expect _).discard.bind_eq fun _ => identifier_mirrors.bind fun n n' hn => ?_
  refine (Mirrors.expect _).discard.bind_eq fun _ => ?_
  refine (block_mirrors budget budget').bind fun b b' hb => ?_
  refine (Mirrors.expect _).discard.bind_eq fun _ => .pure ?_
  have hname : n.name = n'.name := (Identifier.mk.inj hn).1
  rw [Program.onLine, Program.onLine, hname, hb]

end Production

end LusoPascal
