import LusoPascal.Grammar.Program
import LusoPascal.Proofs.Grammar.Statement

/-!
# Programs are read as derived

* `variableGroup_sound`, `parameters_sound`, and their converses: names that share a type;
* **`block_sound`**, **`block_complete`**: blocks, which nest through procedures;
* **`program_sound`**, **`program_complete`**: a program is read exactly as it is derived.
-/

namespace LusoPascal

/-! ## What begins a declaration -/

theorem TokenKind.isType_iff {kind : TokenKind} :
    kind.isType = true ↔ kind ∈ [TokenKind.inteiro, TokenKind.logico] := by
  cases kind <;> decide

theorem DerivesVariables.head {w : List Delivery} {declarations : List Declaration}
    (h : DerivesVariables w declarations) :
    ∃ c v, w = c :: v ∧ c.kind.beginsVariables = true := by
  cases h with
  | intro hm ht hw hp =>
    cases hm with
    | missing =>
      cases ht with
      | intro hd =>
        refine ⟨_, _, rfl, ?_⟩
        simp only [List.mem_cons, List.not_mem_nil, or_false] at hd
        rcases hd with hd | hd <;> rw [hd] <;> rfl
    | present hd => exact ⟨_, _, rfl, by rw [hd]; rfl⟩

theorem DerivesProcedure.head {w l : List Delivery} {procedure : Declaration}
    (h : DerivesProcedure w procedure l) :
    ∃ c v, w = c :: v ∧ (c.kind == .procedimento) = true := by
  cases h with
  | intro hp => exact ⟨_, _, rfl, by rw [hp]; rfl⟩

namespace Production

open Delivery

/-! ## The parts of a declaration that may be missing -/

/-- The word `var`, where it may stand or be missing. -/
def marker : Production Unit := ifAhead .var (discard take) ()

/-- A value that may be assigned to a declared name. -/
def initializer (budget : Nat) : Production Unit :=
  ifAhead .assign (do discard take; discard (expression budget)) ()

theorem declarator_eq (budget : Nat) :
    declarator budget = (do
      let ident ← identifier
      initializer budget
      return ident) := by
  rw [declarator]
  simp only [initializer, ← ifAhead_bind, bind_assoc]

theorem variableGroup_eq (budget : Nat) :
    variableGroup budget = (do
      marker
      let type ← typeName
      let idents ← separated .comma (declarator budget) budget
      discard (expect .semicolon)
      return idents.map fun ident => .var ⟨ident, type⟩) := by
  rw [variableGroup]
  simp only [marker, ← ifAhead_bind]

theorem parameterGroup_eq (budget : Nat) :
    parameterGroup budget = (do
      marker
      let idents ← separated .comma identifier budget
      discard (expect .colon)
      let type ← typeName
      return idents.map fun ident => ⟨ident, type⟩) := by
  rw [parameterGroup]
  simp only [marker, ← ifAhead_bind]

theorem procedure_eq (block : Production Block) (budget : Nat) :
    procedure block budget = (do
      let line ← line
      discard (expect .procedimento)
      let name ← expect .identifier
      let params ← ifAhead .leftParen (parameters budget) []
      discard (expect .semicolon)
      let body ← block
      discard (expect .semicolon)
      return .procedure ⟨name.text, params, line⟩ body.declarations body.body) := by
  rw [procedure]
  simp only [pure_bind, ifAhead_bind]

/-! ## Soundness -/

theorem typeName_sound : Sound typeName DerivesType := by
  intro d
  refine Ensures.ahead_bind ?_
  split
  · next hd =>
    exact Ensures.take_bind fun e _ => Ensures.pure (.intro (TokenKind.isType_iff.mp hd))
  · rw [← bind_pure (reject _)]
    exact Ensures.reject_bind

theorem marker_sound : Sound marker fun w _ => DerivesMarker w := by
  intro d
  refine Ensures.ifAhead (fun hd => ?_) fun _ => .missing
  rw [← bind_pure (discard take)]
  exact Ensures.discard_bind (Ensures.take_bind fun e _ => Ensures.pure (.present hd))

theorem initializer_sound (budget : Nat) :
    Sound (initializer budget) fun w _ => ∀ d : Delivery, d.kind = .identifier →
      DerivesDeclarator (d :: w) d.identifier := by
  intro d
  refine Ensures.ifAhead (fun hd => ?_) fun _ _ hc => .plain hc
  refine Ensures.discard_bind (Ensures.take_bind fun e _ => ?_)
  rw [← bind_pure (discard (expression budget))]
  refine Ensures.discard_bind ((expression_sound budget e).bind fun w x f hw => Ensures.pure ?_)
  rw [List.append_nil]
  exact fun c hc => .assigned hc hd hw

theorem declarator_sound (budget : Nat) : Sound (declarator budget) DerivesDeclarator := by
  intro d
  rw [declarator_eq]
  refine (identifier_sound d).bind fun u ident e hu => ?_
  refine (initializer_sound budget e).bind fun w _ f hw => Ensures.pure ?_
  rw [List.append_nil]
  cases hu with
  | intro hd => exact hw _ hd

theorem variableGroup_sound (budget : Nat) : Sound (variableGroup budget) DerivesVariables := by
  intro d
  rw [variableGroup_eq]
  refine (marker_sound d).bind fun m _ e hm => ?_
  refine (typeName_sound e).bind fun t type f ht => ?_
  refine (separated_sound (declarator_sound budget) budget f).bind fun w idents g hw => ?_
  refine Ensures.discard_bind (Ensures.expect_bind fun hg h _ => Ensures.pure ?_)
  exact .intro hm ht hw hg

theorem parameterGroup_sound (budget : Nat) :
    Sound (parameterGroup budget) DerivesParameterGroup := by
  intro d
  rw [parameterGroup_eq]
  refine (marker_sound d).bind fun m _ e hm => ?_
  refine (separated_sound identifier_sound budget e).bind fun w idents f hw => ?_
  refine Ensures.discard_bind (Ensures.expect_bind fun hf g _ => ?_)
  refine (typeName_sound g).bind fun t type h ht => Ensures.pure ?_
  rw [List.append_nil]
  exact .intro hm hw hf ht

theorem parameters_sound (budget : Nat) :
    Sound (ifAhead .leftParen (parameters budget) []) DerivesParameters := by
  intro d
  refine Ensures.ifAhead (fun hd => ?_) fun _ => .missing
  refine Ensures.discard_bind (Ensures.expect_bind fun _ e _ => ?_)
  refine (separated_sound (parameterGroup_sound budget) budget e).bind fun w groups f hw => ?_
  refine Ensures.discard_bind (Ensures.expect_bind fun hf g _ => Ensures.pure ?_)
  exact .groups hd hw hf

/-- The rule of a block, restricted to the derivations that are read. -/
abbrev AgreeingBlock : List Delivery → Block → Prop := Agreeing DerivesBlock Block.NearestElse

/-- The rule of a procedure, restricted to the derivations that are read. -/
abbrev AgreeingProcedure : List Delivery → Declaration → Prop :=
  Agreeing DerivesProcedure Declaration.NearestElse

theorem repeated_agreeing_iff {w : List Delivery} {procedures : List Declaration} :
    Repeated AgreeingProcedure w procedures ↔
      Agreeing DerivesProcedures Declaration.AllNearestElse w procedures := by
  constructor
  · intro h
    induction h with
    | nil => exact ⟨[], .nil, trivial, by simp⟩
    | cons hv _ ih =>
      obtain ⟨l, hp, hn, hl⟩ := hv
      obtain ⟨m, hps, hns, hm⟩ := ih
      exact ⟨l ++ m, .cons hp hps, ⟨hn, hns⟩, List.forall_mem_append.mpr ⟨hl, hm⟩⟩
  · rintro ⟨leaders, h, hn, hl⟩
    induction procedures generalizing w leaders with
    | nil => cases h; exact .nil
    | cons p ps ih =>
      cases h with
      | cons hv hw =>
        rw [List.forall_mem_append] at hl
        exact .cons ⟨_, hv, hn.1, hl.1⟩ (ih _ hw hn.2 hl.2)

section Nested

variable {block : Production Block} (hblock : Sound block AgreeingBlock)

include hblock

theorem procedure_sound (budget : Nat) : Sound (procedure block budget) AgreeingProcedure := by
  intro d
  rw [procedure_eq]
  refine Ensures.line_bind (Ensures.discard_bind (Ensures.expect_bind fun hd e _ => ?_))
  refine Ensures.expect_bind fun he f _ => ?_
  refine (parameters_sound budget f).bind fun v params g hv => ?_
  refine Ensures.discard_bind (Ensures.expect_bind fun hg h _ => ?_)
  refine (hblock h).bind fun w body i hw => ?_
  refine Ensures.discard_bind (Ensures.expect_bind fun hi j _ => Ensures.pure ?_)
  obtain ⟨leaders, hw, hn, hl⟩ := hw
  refine ⟨leaders, .intro hd he hv hg hw hi, ?_, hl⟩
  rwa [Declaration.NearestElse]

theorem declarations_sound (budget : Nat) :
    Sound (declarations block budget) fun w ds => ∃ u v groups procedures, w = u ++ v ∧
      ds = groups.flatten ++ procedures ∧ Repeated DerivesVariables u groups ∧
      Agreeing DerivesProcedures Declaration.AllNearestElse v procedures := by
  intro d
  refine (whileAhead_sound (variableGroup_sound budget) budget d).bind fun u groups e hu => ?_
  refine (whileAhead_sound (procedure_sound hblock budget) budget e).bind fun v ps f hv => ?_
  refine Ensures.pure ?_
  rw [List.append_nil]
  exact ⟨u, v, groups, ps, rfl, rfl, hu, repeated_agreeing_iff.mp hv⟩

end Nested

/-- **A block that is read is derived.** -/
theorem block_sound : ∀ budget, Sound (block budget) AgreeingBlock
  | 0, _ => .spent
  | budget + 1, d => by
    refine (declarations_sound (block_sound budget) budget d).bind fun w ds e hw => ?_
    obtain ⟨u, v, groups, ps, rfl, rfl, hu, l, hv, hn, hl⟩ := hw
    refine (compound_sound (statement_sound budget) budget e).bind fun x body f hx => ?_
    refine Ensures.pure ?_
    obtain ⟨m, hx, hn', hm⟩ := hx
    rw [List.append_nil, List.append_assoc]
    exact ⟨l ++ m, .intro hu hv hx, ⟨Declaration.allNearestElse_append.mpr ⟨hu.nearestElse, hn⟩,
      hn'⟩, List.forall_mem_append.mpr ⟨hl, hm⟩⟩

/-- **A program that is read is derived**, its alternatives belong to the nearest conditionals, and
the raw character agrees at its leaders. -/
theorem program_sound (budget : Nat) :
    Sound (program budget) (Agreeing DerivesProgram Program.NearestElse) := by
  intro d
  refine Ensures.discard_bind (Ensures.expect_bind fun hd e _ => ?_)
  refine (identifier_sound e).bind fun n ident f hn => ?_
  refine Ensures.discard_bind (Ensures.expect_bind fun hf g _ => ?_)
  refine (block_sound budget g).bind fun w block h hw => ?_
  refine Ensures.discard_bind (Ensures.expect_bind fun hh i _ => Ensures.pure ?_)
  obtain ⟨leaders, hw, hne, hl⟩ := hw
  cases hn with
  | intro hn => exact ⟨leaders, .intro hd hn hf hw hh, hne, hl⟩

/-! ## Completeness -/

section Complete

variable {budget size : Nat}

theorem typeName_complete : Complete typeName DerivesType (fun _ => True) size := by
  intro d e w type h _ hspan _
  cases h with
  | intro hd =>
    obtain ⟨rfl, -⟩ := Span.cons_iff.mp hspan
    exact .ahead_pos (TokenKind.isType_iff.mpr hd) ((Reads.take hspan).bind_nil (.pure _ _))

theorem marker_reads {d e : Delivery} {w : List Delivery} (h : DerivesMarker w)
    (hspan : Span d w e) (he : e.kind ≠ .var) : Reads marker d w () e := by
  cases h with
  | missing =>
    obtain rfl := Span.nil_iff.mp hspan
    exact .ifAhead_missing he
  | present hd =>
    obtain ⟨rfl, -⟩ := Span.cons_iff.mp hspan
    exact .ifAhead hd (Reads.take hspan).discard

theorem identifier_complete : Complete identifier DerivesIdentifier (fun _ => True) size := by
  intro d e w ident h _ hspan _
  cases h with
  | intro hd =>
    obtain ⟨rfl, -⟩ := Span.cons_iff.mp hspan
    exact identifier_reads hd hspan

theorem declarator_complete : Complete (declarator budget) DerivesDeclarator
    (fun kind => kind = .comma ∨ kind = .semicolon) budget := by
  intro d e w ident h hb hspan he
  rw [declarator_eq]
  cases h with
  | plain hd =>
    obtain ⟨rfl, -⟩ := Span.cons_iff.mp hspan
    have hnone : e.kind ≠ .assign := by rcases he with he | he <;> rw [he] <;> decide
    exact (identifier_reads hd hspan).bind_nil
      ((Reads.ifAhead_missing hnone).bind_nil (.pure _ _))
  | @assigned _ a w x hd ha hw =>
    simp only [List.length_cons] at hb
    obtain ⟨rfl, b, hlink, hspan⟩ := Span.cons_iff.mp hspan
    obtain ⟨rfl, c, hlink', hspan⟩ := Span.cons_iff.mp hspan
    have hends : EndsExpression e.kind := by
      rcases he with he | he <;> rw [he] <;> exact ⟨rfl, rfl, rfl⟩
    have hvalue : Reads (discard (expression budget)) c w () e :=
      (expression_complete hw (by omega) hspan hends).discard
    have hinit : Reads (initializer budget) a (a :: w) () e :=
      .ifAhead ha ((Reads.take (.single hlink')).discard.bind hvalue)
    exact (identifier_reads hd (.single hlink)).bind (hinit.bind_nil (.pure _ _))

theorem variableGroup_complete :
    Complete (variableGroup budget) DerivesVariables (fun _ => True) budget := by
  intro d e w ds h hb hspan _
  rw [variableGroup_eq]
  cases h with
  | @intro m t w p type idents hm ht hw hp =>
    simp only [List.length_append, List.length_cons, List.length_nil] at hb
    obtain ⟨c, hspanm, hspan⟩ := Span.append_iff.mp hspan
    obtain ⟨f, hspant, hspan⟩ := Span.append_iff.mp hspan
    obtain ⟨g, hspanw, hspanp⟩ := Span.append_iff.mp hspan
    obtain ⟨rfl, -⟩ := Span.cons_iff.mp hspanp
    have hc : c.kind ≠ .var := by
      cases ht with
      | intro hd =>
        obtain ⟨rfl, -⟩ := Span.cons_iff.mp hspant
        rintro hvar
        simp [hvar] at hd
    have hidents : Reads (separated .comma (declarator budget) budget) f w idents p :=
      separated_complete declarator_complete (.inl rfl) hw (by omega) (by omega) hspanw (.inr hp)
        (by rw [hp]; decide)
    have htype := typeName_complete ht le_rfl hspant trivial
    exact (marker_reads hm hspanm hc).bind (htype.bind (hidents.bind
      ((Reads.expect hp hspanp).discard.bind_nil (.pure _ _))))

theorem parameterGroup_complete :
    Complete (parameterGroup budget) DerivesParameterGroup (fun _ => True) budget := by
  intro d e w params h hb hspan _
  rw [parameterGroup_eq]
  cases h with
  | @intro m w t p type idents hm hw hp ht =>
    simp only [List.length_append, List.length_cons] at hb
    obtain ⟨c, hspanm, hspan⟩ := Span.append_iff.mp hspan
    obtain ⟨f, hspanw, hspan⟩ := Span.append_iff.mp hspan
    obtain ⟨rfl, g, hlink, hspant⟩ := Span.cons_iff.mp hspan
    obtain ⟨v, u, rfl, hv⟩ := hw.head fun h => by cases h with | intro hd => exact ⟨_, _, rfl, hd⟩
    have hc : c.kind ≠ .var := by
      obtain ⟨rfl, -⟩ := Span.cons_iff.mp hspanw
      rw [hv]
      decide
    have hidents : Reads (separated .comma identifier budget) c (v :: u) idents p :=
      separated_complete identifier_complete trivial hw (le_refl _) (by omega) hspanw trivial
        (by rw [hp]; decide)
    have htype := typeName_complete ht le_rfl hspant trivial
    exact (marker_reads hm hspanm hc).bind (hidents.bind
      ((Reads.expect hp (.single hlink)).discard.bind (htype.bind_nil (.pure _ _))))

theorem parameters_complete : Complete (ifAhead .leftParen (parameters budget) [])
    DerivesParameters (fun kind => kind ≠ .leftParen) budget := by
  intro d e w params h hb hspan he
  cases h with
  | missing =>
    obtain rfl := Span.nil_iff.mp hspan
    exact .ifAhead_missing he
  | @groups o c w groups ho hw hc =>
    simp only [List.length_cons, List.length_append, List.length_nil] at hb
    obtain ⟨rfl, b, hlink, hspan⟩ := Span.cons_iff.mp hspan
    obtain ⟨f, hspanw, hspanc⟩ := Span.append_iff.mp hspan
    obtain ⟨rfl, -⟩ := Span.cons_iff.mp hspanc
    have hgroups : Reads (separated .semicolon (parameterGroup budget) budget) b w groups c :=
      separated_complete parameterGroup_complete trivial hw (by omega) (by omega) hspanw trivial
        (by rw [hc]; decide)
    have hclose := (Reads.expect hc hspanc).discard
    exact .ifAhead ho ((Reads.expect ho (.single hlink)).discard.bind
      (hgroups.bind (hclose.bind_nil (.pure _ _))))

section Nested

variable {block : Production Block} (hblock : Complete block AgreeingBlock (fun _ => True) size)

include hblock

theorem procedure_complete (hb : size ≤ budget) :
    Complete (procedure block budget) AgreeingProcedure (fun _ => True) (size + 1) := by
  rintro d e w procedure ⟨leaders, h, hn, hl⟩ hlen hspan -
  rw [procedure_eq]
  cases h with
  | @intro p n s t v w _ params body hp hid hv hs hw ht =>
    simp only [List.length_append, List.length_cons, List.length_nil] at hlen
    obtain ⟨rfl, n, hlink, hspan⟩ := Span.cons_iff.mp hspan
    obtain ⟨rfl, c, hlink', hspan⟩ := Span.cons_iff.mp hspan
    obtain ⟨s, hspanv, hspan⟩ := Span.append_iff.mp hspan
    obtain ⟨rfl, f, hlink'', hspan⟩ := Span.cons_iff.mp hspan
    obtain ⟨t, hspanw, hspant⟩ := Span.append_iff.mp hspan
    obtain ⟨rfl, -⟩ := Span.cons_iff.mp hspant
    have hparams : Reads (ifAhead .leftParen (parameters budget) []) c v params s :=
      parameters_complete hv (by omega) hspanv (by rw [hs]; decide)
    have hbody := hblock ⟨leaders, hw, by rwa [Declaration.NearestElse] at hn, hl⟩ (by omega)
      hspanw trivial
    exact .line ((Reads.expect hp (.single hlink)).discard.bind
      ((Reads.expect hid (.single hlink')).bind (hparams.bind
        ((Reads.expect hs (.single hlink'')).discard.bind (hbody.bind
          ((Reads.expect ht hspant).discard.bind_nil (.pure _ _)))))))

theorem declarations_reads (hb : size < budget) {d e f : Delivery} {u v : List Delivery}
    {groups : List (List Declaration)} {procedures : List Declaration}
    (hu : Repeated DerivesVariables u groups) (hv : Repeated AgreeingProcedure v procedures)
    (hlen : u.length + v.length ≤ size) (hspanu : Span d u e) (hspanv : Span e v f)
    (hf : f.kind = .inicio) :
    Reads (declarations block budget) d (u ++ v) (groups.flatten ++ procedures) f := by
  -- behind the variables stands `procedimento` or `inicio`
  have he : e.kind.beginsVariables = false := by
    cases hv with
    | nil => rw [Span.nil_iff.mp hspanv, hf]; rfl
    | cons hp _ =>
      obtain ⟨l, hp, -⟩ := hp
      obtain ⟨c, x, rfl, hc⟩ := hp.head
      obtain ⟨rfl, -⟩ := Span.cons_iff.mp hspanv
      rw [beq_iff_eq.mp hc]
      rfl
  have hgroups : Reads (whileAhead TokenKind.beginsVariables (variableGroup budget) budget)
      d u groups e :=
    whileAhead_complete variableGroup_complete (fun _ _ => trivial) DerivesVariables.head hu
      (by omega) (by omega) hspanu trivial he
  have hprocedures : Reads (whileAhead (· == .procedimento) (procedure block budget) budget)
      e v procedures f :=
    whileAhead_complete (procedure_complete hblock hb.le) (fun _ _ => trivial)
      (fun ⟨_, h, _⟩ => h.head) hv (by omega) (by omega) hspanv trivial (by rw [hf]; rfl)
  exact hgroups.bind (hprocedures.bind_nil (.pure _ _))

end Nested

end Complete

/-- **A derived block is read** if its alternatives belong to the nearest conditionals and the raw
character agrees at its leaders. -/
theorem block_complete (budget : Nat) :
    Complete (block (budget + 1)) AgreeingBlock (fun _ => True) budget := by
  induction budget with
  | zero =>
    rintro d e w block ⟨leaders, h, -⟩ hlen - -
    cases h with
    | intro _ _ hw => cases hw; simp at hlen
  | succ budget ih =>
    rintro d e w block ⟨leaders, h, ⟨hnd, hnb⟩, hl⟩ hlen hspan -
    cases h with
    | @intro u v w l m groups procedures body hu hv hw =>
      rw [Declaration.allNearestElse_append] at hnd
      rw [List.forall_mem_append] at hl
      simp only [List.length_append] at hlen
      obtain ⟨c, hspanu, hspan⟩ := Span.append_iff.mp hspan
      obtain ⟨f, hspanv, hspanw⟩ := Span.append_iff.mp hspan
      have hbody := compound_reads (statement_complete (budget + 1)) hw hnb hl.2 (by omega) hspanw
      have hprocedures := repeated_agreeing_iff.mpr ⟨l, hv, hnd.2, hl.1⟩
      cases hw with
      | intro hb _ _ =>
        simp only [List.length_cons, List.length_append] at hlen
        obtain ⟨rfl, -⟩ := Span.cons_iff.mp hspanw
        have hdeclarations := declarations_reads ih (Nat.lt_add_one budget) hu hprocedures
          (by omega) hspanu hspanv hb
        rw [← List.append_assoc]
        exact hdeclarations.bind (hbody.bind_nil (.pure _ _))

/-- **A derived program is read** if its alternatives belong to the nearest conditionals and the raw
character agrees at its leaders, on a budget of its length. -/
theorem program_complete {budget : Nat} {d e : Delivery} {w : List Delivery} {program : Program}
    (h : Agreeing DerivesProgram Program.NearestElse w program) (hb : w.length ≤ budget)
    (hspan : Span d w e) : Reads (Production.program budget) d w program e := by
  obtain ⟨leaders, h, hn, hl⟩ := h
  cases h with
  | @intro p n s t w _ block hp hid hs hw ht =>
    simp only [List.length_cons, List.length_append, List.length_nil] at hb
    obtain ⟨budget, rfl⟩ : ∃ n, budget = n + 1 := ⟨budget - 1, by omega⟩
    obtain ⟨rfl, n, hlink, hspan⟩ := Span.cons_iff.mp hspan
    obtain ⟨rfl, s, hlink', hspan⟩ := Span.cons_iff.mp hspan
    obtain ⟨rfl, c, hlink'', hspan⟩ := Span.cons_iff.mp hspan
    obtain ⟨t, hspanw, hspant⟩ := Span.append_iff.mp hspan
    obtain ⟨rfl, -⟩ := Span.cons_iff.mp hspant
    have hblock := block_complete budget ⟨leaders, hw, hn, hl⟩ (by omega) hspanw trivial
    exact (Reads.expect hp (.single hlink)).discard.bind
      ((identifier_reads hid (.single hlink')).bind
        ((Reads.expect hs (.single hlink'')).discard.bind (hblock.bind
          ((Reads.expect ht hspant).discard.bind_nil (.pure _ _)))))

end Production

end LusoPascal
