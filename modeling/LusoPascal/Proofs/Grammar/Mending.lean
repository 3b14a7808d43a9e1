import LusoPascal.Proofs.Grammar.Failing
import LusoPascal.Proofs.Grammar.Program

/-!
# Programs fail where they could be mended

Every rule of the grammar derives something, so whatever a production was still to read can be
supplied behind the token that it names.

* `exists_expression`, `exists_compound`, `exists_block`: something that each rule derives;
* **`expression_mendable`**, **`statement_mendable`**, **`block_mendable`**: the productions;
* **`program_fails`**: whole programs.
-/

namespace LusoPascal

/-! ## Something that each rule derives -/

theorem exists_expression (level : Level) : ∃ w x, DerivesExpression level w x := by
  obtain ⟨c, hc⟩ := TokenKind.identifier.exists_delivery (by decide)
  have hvar : DerivesExpression .factor [c] (.var c.identifier) := .var hc
  cases level with
  | relation => exact ⟨_, _, .ofSimple (.ofTerm (.ofFactor hvar))⟩
  | simple => exact ⟨_, _, .ofTerm (.ofFactor hvar)⟩
  | term => exact ⟨_, _, .ofFactor hvar⟩
  | factor => exact ⟨_, _, hvar⟩

theorem exists_compound : ∃ w ss leaders, DerivesCompound w ss leaders := by
  obtain ⟨b, hb⟩ := TokenKind.inicio.exists_delivery (by decide)
  obtain ⟨f, hf⟩ := TokenKind.fim.exists_delivery (by decide)
  exact ⟨_, _, _, .intro hb (.one .empty) hf⟩

theorem exists_block : ∃ w block leaders, DerivesBlock w block leaders := by
  obtain ⟨w, ss, leaders, hw⟩ := exists_compound
  exact ⟨_, _, _, .intro .nil .nil hw⟩

theorem exists_type : ∃ w type, DerivesType w type := by
  obtain ⟨c, hc⟩ := TokenKind.inteiro.exists_delivery (by decide)
  exact ⟨_, _, .intro (by rw [hc]; decide)⟩

/-! ## Rules without leaders -/

/-- A command, whichever identifiers begin one in it. -/
abbrev AnyStatement (w : List Delivery) (s : Statement) : Prop :=
  ∃ leaders, DerivesStatement w s leaders

/-- Commands between `inicio` and `fim`, whichever identifiers begin one in them. -/
abbrev AnyCompound (w : List Delivery) (ss : List Statement) : Prop :=
  ∃ leaders, DerivesCompound w ss leaders

theorem Separated.derivesStatements {w : List Delivery} {ss : List Statement}
    (h : Separated .semicolon AnyStatement w ss) : ∃ leaders, DerivesStatements w ss leaders := by
  induction h with
  | one hw =>
    obtain ⟨leaders, hw⟩ := hw
    exact ⟨_, .one hw⟩
  | more hv hs _ ih =>
    obtain ⟨l, hv⟩ := hv
    obtain ⟨m, hw⟩ := ih
    exact ⟨_, .more hv hs hw⟩

/-- A block, whichever identifiers begin a command in it. -/
abbrev AnyBlock (w : List Delivery) (block : Block) : Prop :=
  ∃ leaders, DerivesBlock w block leaders

/-- A procedure, whichever identifiers begin a command in it. -/
abbrev AnyProcedure (w : List Delivery) (procedure : Declaration) : Prop :=
  ∃ leaders, DerivesProcedure w procedure leaders

/-- Variables and procedures, whichever identifiers begin a command in these. -/
def AnyDeclarations (w : List Delivery) (ds : List Declaration) : Prop :=
  ∃ u v groups procedures leaders, w = u ++ v ∧ ds = groups.flatten ++ procedures ∧
    Repeated DerivesVariables u groups ∧ DerivesProcedures v procedures leaders

theorem Repeated.derivesProcedures {w : List Delivery} {procedures : List Declaration}
    (h : Repeated AnyProcedure w procedures) : ∃ leaders, DerivesProcedures w procedures leaders := by
  induction h with
  | nil => exact ⟨_, .nil⟩
  | cons hv _ ih =>
    obtain ⟨l, hv⟩ := hv
    obtain ⟨m, hw⟩ := ih
    exact ⟨_, .cons hv hw⟩

namespace Production

open Delivery

/-! ## Expressions -/

theorem identifier_mendable (budget : Nat) : Mendable identifier DerivesIdentifier budget where
  sound := identifier_sound
  inner h := by
    cases h with
    | intro hd => simp [hd, IsInner]
  fails _ := .line_bind (.expect_bind (by decide) (fun hc => ⟨[], _, .intro hc⟩) fun _ _ _ => .pure)

section Levels

variable {factor : Production Expression} {budget : Nat}
  (hfactor : Mendable factor (DerivesExpression .factor) budget)

include hfactor

theorem term_mendable : Mendable (term factor budget) (DerivesExpression .term) budget where
  sound := term_sound hfactor.sound budget
  inner := DerivesExpression.inner
  fails hd := by
    refine .bind hfactor hd (fun hu => Derivable.exists_append (.ofFactor hu))
      fun {u l e} hu hr => ?_
    refine chain_fails hfactor rfl (fun hv hop hw => ?_) le_rfl (.ofFactor hu) (by omega)
    exact .product hv (TokenKind.isMultiplicative_iff.mp hop) hw

theorem simpleExpression_mendable :
    Mendable (simpleExpression factor budget) (DerivesExpression .simple) budget where
  sound := simpleExpression_sound hfactor.sound budget
  inner := DerivesExpression.inner
  fails {d} hd := by
    have hterm := term_mendable hfactor
    have hchain {v : List Delivery} {l : Expression} (hv : DerivesExpression .simple v l)
        {e : Delivery} (he : e.remaining < budget) :
        Fails (chain TokenKind.isAdditive .binary (Production.term factor budget) budget l) e
          fun w => Derivable (DerivesExpression .simple) (v ++ w) :=
      chain_fails hterm rfl (fun hv hop hw => .sum hv (TokenKind.isAdditive_iff.mp hop) hw) le_rfl
        hv he
    refine .ahead_bind ?_
    dsimp only
    split
    · next hs =>
      have hs' := TokenKind.isSign_iff.mp hs
      refine .take_bind (ne_endOfInput_of_class hs rfl) fun {e} hr => ?_
      refine .bind hterm (by omega) (fun hu => Derivable.exists_append (DerivesExpression.signed hs' hu))
        fun {u x f} hu hr' => ?_
      rw [pure_bind]
      exact hchain (.signed hs' hu) (by omega)
    · exact .bind hterm hd (fun hu => Derivable.exists_append (.ofTerm hu))
        fun {u x f} hu hr => hchain (.ofTerm hu) (by omega)

theorem relation_mendable :
    Mendable (relation factor budget) (DerivesExpression .relation) budget where
  sound := relation_sound hfactor.sound budget
  inner := DerivesExpression.inner
  fails {d} hd := by
    have hsimple := simpleExpression_mendable hfactor
    refine .bind hsimple hd (fun hu => Derivable.exists_append (.ofSimple hu))
      fun {u l e} hu hr => .ahead_bind ?_
    split
    · next hop =>
      have hop' := TokenKind.isRelational_iff.mp hop
      refine .take_bind (ne_endOfInput_of_class hop rfl) fun {f} hr' => .bind_pure ?_
      refine (hsimple.fails (by omega)).mono fun ⟨r, hw⟩ => ?_
      exact ⟨_, .comparison hu hop' hw⟩
    · exact .pure

end Levels

theorem factor_mendable : ∀ budget, Mendable (factor budget) (DerivesExpression .factor) budget
  | 0 => ⟨factor_sound 0, DerivesExpression.inner, fun hd => absurd hd (Nat.not_lt_zero _)⟩
  | budget + 1 => by
    have ih := factor_mendable budget
    refine ⟨factor_sound _, DerivesExpression.inner, fun {d} hd => .ahead_bind ?_⟩
    obtain ⟨close, hclose⟩ := TokenKind.rightParen.exists_delivery (by decide)
    split
    · exact .discard_bind
        (.expect_bind (by decide) (fun hc => ⟨[], _, .number hc⟩) fun _ _ _ => .pure)
    · next hkind _ =>
      have hne : d.kind ≠ .endOfInput := by
        rw [show d.kind = .leftParen from hkind]
        decide
      refine .discard_bind (.take_bind hne fun {e} hr => ?_)
      refine .bind (relation_mendable ih) (by omega)
        (fun hu => ⟨[close], _, .parens hkind hu hclose⟩) fun {u x f} hu hr' => ?_
      exact .discard_bind
        (.expect_bind (by decide) (fun hc => ⟨[], _, .parens hkind hu hc⟩) fun _ _ _ => .pure)
    · next hkind _ =>
      have hne : d.kind ≠ .endOfInput := by
        rw [show d.kind = .nao from hkind]
        decide
      refine .take_bind hne fun {e} hr => .bind_pure ?_
      exact (ih.fails (by omega)).mono fun ⟨x, hu⟩ => ⟨_, .negation hkind hu⟩
    · refine .bind_pure (((identifier_mendable _).fails hd).mono fun ⟨ident, hu⟩ => ?_)
      cases hu with
      | intro hc => exact ⟨_, .var hc⟩

theorem expression_mendable (budget : Nat) :
    Mendable (expression budget) (DerivesExpression .relation) budget :=
  relation_mendable (factor_mendable budget)

/-! ## Commands -/

theorem name_mendable (budget : Nat) :
    Mendable (Token.text <$> expect .identifier) DerivesName budget where
  sound := name_sound
  inner h := by
    cases h with
    | intro hd => simp [hd, IsInner]
  fails _ := by
    rw [map_eq_pure_bind]
    exact .expect_bind (by decide) (fun hc => ⟨[], _, .intro hc⟩) fun _ _ _ => .pure

theorem assignedValue_mendable (budget : Nat) :
    Mendable (assignedValue budget) DerivesValue budget where
  sound := assignedValue_sound budget
  inner := DerivesValue.inner
  fails {d} hd := by
    refine .isAhead_bind (fun hkind => ?_) fun _ => ?_
    · exact .take_bind (by rw [hkind]; decide) fun _ => .pure
    · exact ((expression_mendable budget).fails hd).mono fun ⟨x, hw⟩ => ⟨x, .expression hw⟩

theorem arguments_mendable (budget : Nat) :
    Mendable (arguments budget) DerivesArguments budget where
  sound := arguments_sound budget
  inner := DerivesArguments.inner
  fails {d} hd := by
    obtain ⟨close, hclose⟩ := TokenKind.rightParen.exists_delivery (by decide)
    rw [arguments_eq]
    refine .discard_bind (.expect_bind (by decide) (fun ho => ⟨[close], _, .empty ho hclose⟩)
      fun ho e hr => ?_)
    have hclosed {w : List Delivery} {names : List String} {c : Delivery}
        (hw : w = [] ∧ names = [] ∨ Separated .comma DerivesName w names)
        (hc : c.kind = .rightParen) : DerivesArguments (d :: (w ++ [c])) names := by
      rcases hw with ⟨rfl, rfl⟩ | hw
      · exact .empty ho hc
      · exact .names ho hw hc
    have hitems : Mendable (separated .comma (Token.text <$> expect .identifier) budget)
        (Separated .comma DerivesName) budget :=
      separated_mendable (name_mendable budget) (by decide) le_rfl
    refine .bind (ifAhead_mendable .identifier hitems []) (by omega)
      (fun hw => ⟨[close], _, hclosed hw hclose⟩) fun hw hr' => ?_
    exact .discard_bind
      (.expect_bind (by decide) (fun hc => ⟨[], _, hclosed hw hc⟩) fun _ _ _ => .pure)

theorem assignment_fails {budget : Nat} {d : Delivery} (hd : d.remaining ≤ budget) :
    Fails (assignment budget) d (Derivable AnyStatement) := by
  obtain ⟨a, ha⟩ := TokenKind.assign.exists_delivery (by decide)
  obtain ⟨v, x, hv⟩ := exists_expression .relation
  rw [assignment, identifier, bind_assoc]
  refine .line_bind ?_
  rw [bind_assoc]
  refine .expect_bind (by decide)
    (fun hc => ⟨a :: v, _, _, .assignment hc ha (.expression hv)⟩) fun hdk {e} hr => ?_
  rw [pure_bind]
  refine .expect_bind (by decide)
    (fun hc => ⟨v, _, _, .assignment hdk hc (.expression hv)⟩) fun he {f} hr' => .bind_pure ?_
  refine ((assignedValue_mendable budget).fails (by omega)).mono fun {w} h => ?_
  obtain ⟨_, hw⟩ := h
  exact ⟨_, _, .assignment hdk he hw⟩

theorem call_fails {budget : Nat} {d : Delivery} (hd : d.remaining ≤ budget) :
    Fails (call budget) d fun w => ∃ c, AnyStatement w (.call c) := by
  rw [call_eq]
  refine .line_bind (.expect_bind (by decide)
    (fun hc => ⟨[], _, _, .call hc .missing⟩) fun hdk {e} hr => .bind_pure (.ifAhead fun _ => ?_))
  exact ((arguments_mendable budget).fails (by omega)).mono fun ⟨_, hw⟩ => ⟨_, _, .call hdk hw⟩

section Nested

variable {item : Production Statement} {budget : Nat} (hitem : Mendable item AnyStatement budget)

include hitem

theorem compound_fails {d : Delivery} (hd : d.remaining ≤ budget) :
    Fails (compound item budget) d (Derivable AnyCompound) := by
  obtain ⟨f, hf⟩ := TokenKind.fim.exists_delivery (by decide)
  have hclosed {b c : Delivery} {w : List Delivery} {ss : List Statement} (hb : b.kind = .inicio)
      (hw : Separated .semicolon AnyStatement w ss) (hc : c.kind = .fim) :
      Derivable AnyCompound (b :: (w ++ [c])) := by
    obtain ⟨leaders, hw⟩ := hw.derivesStatements
    exact ⟨_, _, .intro hb hw hc⟩
  refine .discard_bind (.expect_bind (by decide)
    (fun hc => ⟨[f], hclosed hc (.one ⟨_, .empty⟩) hf⟩) fun hdk {e} hr => ?_)
  refine .bind (separated_mendable hitem (by decide) le_rfl) (by omega)
    (fun hw => ⟨[f], hclosed hdk hw hf⟩) fun hw hr' => ?_
  refine .isAhead_bind (fun _ => .reject_bind fun kind hkind => ?_) fun _ => ?_
  · obtain rfl := List.mem_singleton.mp hkind
    exact ⟨f, [], hf, hclosed hdk hw hf⟩
  · exact .discard_bind
      (.expect_bind (by decide) (fun hc => ⟨[], hclosed hdk hw hc⟩) fun _ _ _ => .pure)

theorem conditional_fails {d : Delivery} (hd : d.remaining ≤ budget) :
    Fails (conditional item budget) d (Derivable AnyStatement) := by
  obtain ⟨t, ht⟩ := TokenKind.entao.exists_delivery (by decide)
  obtain ⟨x, c, hx⟩ := exists_expression .relation
  refine .discard_bind (.expect_bind (by decide)
    (fun hc => ⟨x ++ [t], _, _, .ifThen hc hx ht .empty⟩) fun hdk {e} hr => ?_)
  refine .bind (expression_mendable budget) (by omega)
    (fun hv => ⟨[t], _, _, .ifThen hdk hv ht .empty⟩) fun hv hr' => ?_
  refine .discard_bind (.expect_bind (by decide)
    (fun hc => ⟨[], _, _, .ifThen hdk hv hc .empty⟩) fun he {f} hr'' => ?_)
  refine .bind hitem (by omega) (fun {w s} ⟨l, hw⟩ => ?_) fun {w s g} ⟨l, hw⟩ hr => ?_
  · exact ⟨[], _, _, by rw [List.append_nil]; exact .ifThen hdk hv he hw⟩
  · refine .isAhead_bind (fun hg => ?_) fun _ => .pure
    refine .discard_bind (.take_bind (by rw [hg]; decide) fun {h} hr => .bind_pure ?_)
    exact (hitem.fails (by omega)).mono
      fun ⟨_, _, hx⟩ => ⟨_, _, .ifThenElse hdk hv he hw hg hx⟩

theorem loop_fails {d : Delivery} (hd : d.remaining ≤ budget) :
    Fails (loop item budget) d (Derivable AnyStatement) := by
  obtain ⟨t, ht⟩ := TokenKind.faca.exists_delivery (by decide)
  obtain ⟨x, c, hx⟩ := exists_expression .relation
  refine .discard_bind (.expect_bind (by decide)
    (fun hc => ⟨x ++ [t], _, _, .loop hc hx ht .empty⟩) fun hdk {e} hr => ?_)
  refine .bind (expression_mendable budget) (by omega)
    (fun hv => ⟨[t], _, _, .loop hdk hv ht .empty⟩) fun hv hr' => ?_
  refine .discard_bind (.expect_bind (by decide)
    (fun hc => ⟨[], _, _, .loop hdk hv hc .empty⟩) fun he {f} hr'' => .bind_pure ?_)
  exact (hitem.fails (by omega)).mono fun ⟨_, _, hw⟩ => ⟨_, _, .loop hdk hv he hw⟩

end Nested

theorem statement_mendable : ∀ budget, Mendable (statement budget) AnyStatement budget
  | 0 => ⟨fun _ => .spent, fun ⟨_, h⟩ => h.inner, fun hd => absurd hd (Nat.not_lt_zero _)⟩
  | budget + 1 => by
    have ih := statement_mendable budget
    have hsound : Sound (statement (budget + 1)) AnyStatement := fun d =>
      (statement_sound (budget + 1) d).mono fun _ _ _ ⟨leaders, hw, _⟩ => ⟨leaders, hw⟩
    refine ⟨hsound, fun ⟨_, h⟩ => h.inner, fun {d} hd => .ahead_bind ?_⟩
    have hle : d.remaining ≤ budget := Nat.le_of_lt_succ hd
    split
    · exact .bind_pure ((compound_fails ih hle).mono fun ⟨_, _, hw⟩ => ⟨_, _, .compound hw⟩)
    · refine .assignAhead_bind ?_
      split
      · exact assignment_fails hle
      · exact .bind_pure ((call_fails hle).mono fun ⟨_, hw⟩ => ⟨_, hw⟩)
    · exact conditional_fails ih hle
    · exact loop_fails ih hle
    · exact .pure

/-! ## Declarations -/

theorem typeName_mendable (budget : Nat) : Mendable typeName DerivesType budget where
  sound := typeName_sound
  inner := DerivesType.inner
  fails {d} _ := by
    refine .ahead_bind ?_
    split
    · next hkind => exact .take_bind (ne_endOfInput_of_class hkind rfl) fun _ => .pure
    · rw [← bind_pure (reject _)]
      refine .reject_bind fun kind hkind => ?_
      have hne : kind ≠ .endOfInput := by
        rintro rfl
        simp [Defect.wanted] at hkind
      obtain ⟨c, rfl⟩ := kind.exists_delivery hne
      exact ⟨c, [], rfl, _, .intro hkind⟩

theorem marker_mendable (budget : Nat) : Mendable marker (fun w _ => DerivesMarker w) budget where
  sound := marker_sound
  inner := DerivesMarker.inner
  fails _ := by
    refine .ifAhead fun hkind => ?_
    rw [← bind_pure (discard take)]
    exact .discard_bind (.take_bind (by rw [hkind]; decide) fun _ => .pure)

theorem declarator_mendable (budget : Nat) :
    Mendable (declarator budget) DerivesDeclarator budget where
  sound := declarator_sound budget
  inner := DerivesDeclarator.inner
  fails {d} hd := by
    rw [declarator_eq]
    refine .bind (identifier_mendable budget) hd (fun hw => ?_) fun {w ident e} hw hr => ?_
    · cases hw with
      | intro hc => exact ⟨[], _, .plain hc⟩
    · refine .bind_pure (.ifAhead fun he => ?_)
      refine .discard_bind (.take_bind (by rw [he]; decide) fun hr' => ?_)
      rw [← bind_pure (discard _)]
      refine .discard_bind (.bind_pure (((expression_mendable budget).fails (by omega)).mono ?_))
      rintro v ⟨x, hv⟩
      cases hw with
      | intro hc => exact ⟨_, .assigned hc he hv⟩

theorem variableGroup_mendable (budget : Nat) :
    Mendable (variableGroup budget) DerivesVariables budget where
  sound := variableGroup_sound budget
  inner := DerivesVariables.inner
  fails {d} hd := by
    obtain ⟨p, hp⟩ := TokenKind.semicolon.exists_delivery (by decide)
    obtain ⟨c, hc⟩ := TokenKind.identifier.exists_delivery (by decide)
    obtain ⟨y, type, hy⟩ := exists_type
    have hidents : Separated .comma DerivesDeclarator [c] [c.identifier] := .one (.plain hc)
    rw [variableGroup_eq]
    refine .bind (marker_mendable budget) hd
      (fun hm => ⟨y ++ ([c] ++ [p]), _, .intro hm hy hidents hp⟩) fun hm hr => ?_
    refine .bind (typeName_mendable budget) (by omega)
      (fun ht => ⟨[c] ++ [p], _, .intro hm ht hidents hp⟩) fun ht hr' => ?_
    refine .bind (separated_mendable (declarator_mendable budget) (by decide) le_rfl) (by omega)
      (fun hw => ⟨[p], _, .intro hm ht hw hp⟩) fun hw _ => ?_
    exact .discard_bind
      (.expect_bind (by decide) (fun hc => ⟨[], _, .intro hm ht hw hc⟩) fun _ _ _ => .pure)

theorem parameterGroup_mendable (budget : Nat) :
    Mendable (parameterGroup budget) DerivesParameterGroup budget where
  sound := parameterGroup_sound budget
  inner := DerivesParameterGroup.inner
  fails {d} hd := by
    obtain ⟨p, hp⟩ := TokenKind.colon.exists_delivery (by decide)
    obtain ⟨c, hc⟩ := TokenKind.identifier.exists_delivery (by decide)
    obtain ⟨y, type, hy⟩ := exists_type
    have hidents : Separated .comma DerivesIdentifier [c] [c.identifier] := .one (.intro hc)
    rw [parameterGroup_eq]
    refine .bind (marker_mendable budget) hd
      (fun hm => ⟨[c] ++ p :: y, _, .intro hm hidents hp hy⟩) fun hm hr => ?_
    refine .bind (separated_mendable (identifier_mendable budget) (by decide) le_rfl) (by omega)
      (fun hw => ⟨p :: y, _, .intro hm hw hp hy⟩) fun hw hr' => ?_
    refine .discard_bind (.expect_bind (by decide)
      (fun hc => ⟨y, _, .intro hm hw hc hy⟩) fun he {f} hr'' => .bind_pure ?_)
    exact ((typeName_mendable budget).fails (by omega)).mono
      fun ⟨_, ht⟩ => ⟨_, .intro hm hw he ht⟩

theorem parameters_mendable (budget : Nat) :
    Mendable (ifAhead .leftParen (parameters budget) []) DerivesParameters budget where
  sound := parameters_sound budget
  inner := DerivesParameters.inner
  fails {d} hd := by
    obtain ⟨close, hclose⟩ := TokenKind.rightParen.exists_delivery (by decide)
    obtain ⟨p, hp⟩ := TokenKind.colon.exists_delivery (by decide)
    obtain ⟨c, hc⟩ := TokenKind.identifier.exists_delivery (by decide)
    obtain ⟨y, type, hy⟩ := exists_type
    have hgroup : DerivesParameterGroup ([] ++ ([c] ++ p :: y)) _ :=
      .intro .missing (.one (.intro hc)) hp hy
    refine .ifAhead fun _ => .discard_bind (.expect_bind (by decide)
      (fun ho => ⟨_ ++ [close], _, .groups ho (.one hgroup) hclose⟩) fun ho {e} hr => ?_)
    refine .bind (separated_mendable (parameterGroup_mendable budget) (by decide) le_rfl)
      (by omega) (fun hw => ⟨[close], _, .groups ho hw hclose⟩) fun hw hr' => ?_
    exact .discard_bind
      (.expect_bind (by decide) (fun hc => ⟨[], _, .groups ho hw hc⟩) fun _ _ _ => .pure)

section Nested

variable {block : Production Block} {budget : Nat} (hblock : Mendable block AnyBlock (budget - 1))

include hblock

theorem procedure_fails {d : Delivery} (hd : d.remaining < budget) :
    Fails (procedure block budget) d (Derivable AnyProcedure) := by
  obtain ⟨n, hn⟩ := TokenKind.identifier.exists_delivery (by decide)
  obtain ⟨s, hs⟩ := TokenKind.semicolon.exists_delivery (by decide)
  obtain ⟨w, body, leaders, hw⟩ := exists_block
  rw [procedure_eq]
  refine .line_bind (.discard_bind (.expect_bind (by decide)
    (fun hc => ⟨n :: ([] ++ s :: (w ++ [s])), _, _, .intro hc hn .missing hs hw hs⟩)
    fun hdk {e} hr => ?_))
  refine .expect_bind (by decide)
    (fun hc => ⟨[] ++ s :: (w ++ [s]), _, _, .intro hdk hc .missing hs hw hs⟩)
    fun he {f} hr => ?_
  refine .bind (parameters_mendable budget) (by omega)
    (fun hv => ⟨s :: (w ++ [s]), _, _, .intro hdk he hv hs hw hs⟩) fun hv hr => ?_
  refine .discard_bind (.expect_bind (by decide)
    (fun hc => ⟨w ++ [s], _, _, .intro hdk he hv hc hw hs⟩) fun hg {h} hr => ?_)
  refine .bind hblock (by omega) (fun ⟨_, hx⟩ => ⟨[s], _, _, .intro hdk he hv hg hx hs⟩)
    fun ⟨_, hx⟩ hr => ?_
  exact .discard_bind (.expect_bind (by decide)
    (fun hc => ⟨[], _, _, .intro hdk he hv hg hx hc⟩) fun _ _ _ => .pure)

/-- A procedure is mendable if its block is, which leaves some of the budget to the heading. -/
theorem procedure_mendable (hsound : Sound block AgreeingBlock) :
    Mendable (procedure block budget) AnyProcedure budget where
  sound d := (procedure_sound hsound budget d).mono fun _ _ _ ⟨leaders, h, _⟩ => ⟨leaders, h⟩
  inner := fun ⟨_, h⟩ => h.inner
  fails := procedure_fails hblock

theorem declarations_mendable (hsound : Sound block AgreeingBlock) :
    Mendable (declarations block budget) AnyDeclarations budget where
  sound d := (declarations_sound hsound budget d).mono
    fun _ _ _ ⟨u, v, groups, procedures, hw, hds, hu, leaders, hv, _⟩ =>
      ⟨u, v, groups, procedures, leaders, hw, hds, hu, hv⟩
  inner := by
    rintro _ _ ⟨u, v, groups, procedures, leaders, rfl, rfl, hu, hv⟩
    exact List.forall_mem_append.mpr ⟨hu.inner DerivesVariables.inner, hv.inner⟩
  fails {d} hd := by
    have hne {w : List Delivery} {ds : List Declaration} (h : DerivesVariables w ds) : w ≠ [] := by
      obtain ⟨c, v, rfl, -⟩ := h.head
      exact List.cons_ne_nil c v
    have hne' {w : List Delivery} {procedure : Declaration} (h : AnyProcedure w procedure) :
        w ≠ [] := by
      obtain ⟨leaders, h⟩ := h
      obtain ⟨c, v, rfl, -⟩ := h.head
      exact List.cons_ne_nil c v
    refine .bind (whileAhead_mendable (variableGroup_mendable budget) hne le_rfl) hd
      (fun {u groups} hu => ⟨[], _, u, [], groups, [], [], rfl, rfl, hu, .nil⟩)
      fun {u groups e} hu hr => .bind_pure ?_
    have hprocedures : Mendable (whileAhead (· == .procedimento) (procedure block budget) budget)
        (Repeated AnyProcedure) budget :=
      whileAhead_mendable (procedure_mendable hblock hsound) hne' le_rfl
    refine (hprocedures.fails (by omega)).mono fun {v} ⟨procedures, hv⟩ => ?_
    obtain ⟨leaders, hv⟩ := hv.derivesProcedures
    exact ⟨_, u, v, groups, procedures, leaders, rfl, rfl, hu, hv⟩

end Nested

/-- A block is mendable; one level of nesting is left to the loops that begin it. -/
theorem block_mendable : ∀ budget, Mendable (block budget) AnyBlock (budget - 1)
  | 0 => ⟨fun _ => .spent, fun ⟨_, h⟩ => h.inner, fun hd => absurd hd (Nat.not_lt_zero _)⟩
  | budget + 1 => by
    have hsound : Sound (block (budget + 1)) AnyBlock := fun d =>
      (block_sound (budget + 1) d).mono fun _ _ _ ⟨leaders, hw, _⟩ => ⟨leaders, hw⟩
    refine ⟨hsound, fun ⟨_, h⟩ => h.inner, fun {d} hd => ?_⟩
    obtain ⟨x, ss, leaders, hx⟩ := exists_compound
    have hblock {w x : List Delivery} {ds : List Declaration} {body : List Statement}
        (hw : AnyDeclarations w ds) (hx : AnyCompound x body) : Derivable AnyBlock (w ++ x) := by
      obtain ⟨u, v, groups, procedures, l, rfl, rfl, hu, hv⟩ := hw
      obtain ⟨m, hx⟩ := hx
      rw [List.append_assoc]
      exact ⟨_, _, .intro hu hv hx⟩
    refine .bind (declarations_mendable (block_mendable budget) (block_sound budget)) hd
      (fun hw => ⟨x, hblock hw ⟨leaders, hx⟩⟩) fun hw hr => .bind_pure ?_
    exact (compound_fails (statement_mendable budget) (by omega)).mono fun ⟨_, hx⟩ => hblock hw hx

/-- **A program fails in front of a token that breaks it or behind the last one before a fault**, and
each kind of token that is wanted instead begins some way to go on. -/
theorem program_fails {budget : Nat} {d : Delivery} (hd : d.remaining < budget) :
    Fails (program budget) d fun w => ∃ program leaders, DerivesProgram w program leaders := by
  obtain ⟨n, hn⟩ := TokenKind.identifier.exists_delivery (by decide)
  obtain ⟨s, hs⟩ := TokenKind.semicolon.exists_delivery (by decide)
  obtain ⟨t, ht⟩ := TokenKind.dot.exists_delivery (by decide)
  obtain ⟨x, block, leaders, hx⟩ := exists_block
  refine .discard_bind (.expect_bind (by decide)
    (fun hc => ⟨n :: s :: (x ++ [t]), _, _, .intro hc hn hs hx ht⟩) fun hdk {e} hr => ?_)
  refine .bind (identifier_mendable budget) (by omega) (fun hw => ?_) fun {w ident f} hw hr' => ?_
  · cases hw with
    | intro hc => exact ⟨s :: (x ++ [t]), _, _, .intro hdk hc hs hx ht⟩
  · cases hw with
    | @intro c hc =>
      refine .discard_bind (.expect_bind (by decide)
        (fun hf => ⟨x ++ [t], _, _, .intro hdk hc hf hx ht⟩) fun hf {g} hr => ?_)
      rw [List.length_singleton] at hr'
      refine .bind (block_mendable budget) (by omega)
        (fun ⟨_, hw⟩ => ⟨[t], _, _, .intro hdk hc hf hw ht⟩) fun ⟨_, hw⟩ hr => ?_
      exact .discard_bind (.expect_bind (by decide)
        (fun hh => ⟨[], _, _, .intro hdk hc hf hw hh⟩) fun _ _ _ => .pure)

end Production

end LusoPascal
