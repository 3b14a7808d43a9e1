import LusoPascal.Proofs.Tree.WellFormed

/-!
# Derived trees are well-formed

What a rule puts into a tree comes from tokens that were read, and these are genuine.

* `Delivery.identifier_wellFormed`, `Delivery.isSpelled`: what the tokens give;
* `DerivesExpression.wellFormed`, `DerivesStatement.wellFormed`, `DerivesBlock.wellFormed`: one
  rule after the other;
* **`DerivesProgram.wellFormed`**: the tree of a program whose alternatives belong to the nearest
  conditionals.
-/

namespace LusoPascal

namespace Delivery

variable {d : Delivery}

theorem isName (hd : d.kind = .identifier) : IsName d.token.text := by
  obtain ⟨name, hname, htoken⟩ := d.genuine.name_of_kind hd
  rw [htoken]
  exact hname

theorem identifier_wellFormed (hd : d.kind = .identifier) : d.identifier.WellFormed := by
  refine ⟨isName hd, ?_⟩
  obtain ⟨name, -, htoken⟩ := d.genuine.name_of_kind hd
  rw [identifier, htoken]
  rfl

theorem isSpelled {kinds : List TokenKind} (hd : d.kind ∈ kinds)
    (hkinds : ∀ kind ∈ kinds, kind.spelling?.isSome = true) : d.token.IsSpelled kinds := by
  obtain ⟨spelling, hs⟩ := Option.isSome_iff_exists.mp (hkinds _ hd)
  refine ⟨hd, spelling, hs, ?_⟩
  rw [token_of_kind rfl hs]

end Delivery

open Delivery

section WellFormed

variable {w : List Delivery}

theorem DerivesExpression.wellFormed {level : Level} {x : Expression}
    (h : DerivesExpression level w x) : x.WellFormed := by
  induction h with
  | @number d hd =>
    obtain ⟨value, hle, hlexeme⟩ := d.genuine.integer_of_kind hd
    have hvalue : d.token.value = value := by rw [Token.value, hlexeme]
    rw [Expression.WellFormed, hvalue]
    exact ⟨Int.natCast_nonneg value, Int.ofNat_le.mpr hle⟩
  | var hd => exact identifier_wellFormed hd
  | parens _ _ _ ih | ofFactor _ ih | ofTerm _ ih | ofSimple _ ih => exact ih
  | negation hn _ ih =>
    exact ⟨isSpelled (by rw [hn]; decide) (by decide), ih⟩
  | signed hs _ ih =>
    have hkind := List.mem_append_left [.nao] hs
    exact ⟨isSpelled hkind (by decide), ih⟩
  | product _ hop _ ihl ihr =>
    have hkind := List.mem_append_right [.equal, .notEqual, .greater, .greaterEqual, .less,
      .lessEqual, .plus, .minus, .ou] hop
    exact ⟨isSpelled hkind (by decide), ihl, ihr⟩
  | sum _ hop _ ihl ihr =>
    have hkind := List.mem_append_right [.equal, .notEqual, .greater, .greaterEqual, .less,
      .lessEqual] (List.mem_append_left [.times, .div, .e] hop)
    exact ⟨isSpelled hkind (by decide), ihl, ihr⟩
  | comparison _ hop _ ihl ihr =>
    have hkind := List.mem_append_left [.plus, .minus, .ou, .times, .div, .e] hop
    exact ⟨isSpelled hkind (by decide), ihl, ihr⟩

theorem DerivesValue.wellFormed {x : Expression} (h : DerivesValue w x) : x.WellFormedValue := by
  cases h with
  | boolean => trivial
  | expression hw =>
    have hx := hw.wellFormed
    cases x with
    | boolean => trivial
    | _ => exact hx

theorem Separated.forall {α : Type} {separator : TokenKind} {Item : List Delivery → α → Prop}
    {P : α → Prop} {as : List α} (h : Separated separator Item w as)
    (hitem : ∀ {v : List Delivery} {a : α}, Item v a → P a) : ∀ a ∈ as, P a := by
  induction h with
  | one hw => simpa using hitem hw
  | more hv _ _ ih => exact List.forall_mem_cons.mpr ⟨hitem hv, ih⟩

theorem DerivesName.isName {name : String} (h : DerivesName w name) : IsName name := by
  cases h with
  | intro hd => exact Delivery.isName hd

theorem DerivesArguments.isName {args : List String} (h : DerivesArguments w args) :
    ∀ name ∈ args, IsName name := by
  cases h with
  | missing | empty => simp
  | names _ hw _ => exact hw.forall DerivesName.isName

mutual

theorem DerivesStatement.wellFormed {w l : List Delivery} {s : Statement}
    (h : DerivesStatement w s l) (hn : s.NearestElse) : s.WellFormed := by
  match h with
  | .empty => trivial
  | .assignment hd ha hw =>
    rw [Statement.WellFormed]
    exact ⟨identifier_wellFormed hd, token_of_kind ha rfl, hw.wellFormed⟩
  | .call hd hw => exact ⟨Delivery.isName hd, hw.isName⟩
  | .compound hw =>
    rw [Statement.NearestElse] at hn
    rw [Statement.WellFormed]
    exact hw.wellFormed hn
  | .ifThen hi hv ht hw =>
    rw [Statement.NearestElse] at hn
    rw [Statement.WellFormed]
    exact ⟨hv.wellFormed, hw.wellFormed hn⟩
  | .ifThenElse hi hv ht hw he hx =>
    rw [Statement.NearestElse] at hn
    obtain ⟨hclosed, hs, hs'⟩ := hn
    rw [Statement.WellFormed]
    exact ⟨hv.wellFormed, hw.wellFormed hs, hclosed, hx.wellFormed hs'⟩
  | .loop hi hv hf hw =>
    rw [Statement.NearestElse] at hn
    rw [Statement.WellFormed]
    exact ⟨hv.wellFormed, hw.wellFormed hn⟩

theorem DerivesCompound.wellFormed {w l : List Delivery} {ss : List Statement}
    (h : DerivesCompound w ss l) (hn : Statement.AllNearestElse ss) :
    ss ≠ [] ∧ Statement.AllWellFormed ss := by
  match h with
  | .intro hb hw hf => exact hw.wellFormed hn

theorem DerivesStatements.wellFormed {w l : List Delivery} {ss : List Statement}
    (h : DerivesStatements w ss l) (hn : Statement.AllNearestElse ss) :
    ss ≠ [] ∧ Statement.AllWellFormed ss := by
  match h with
  | .one hw => exact ⟨List.cons_ne_nil _ _, hw.wellFormed hn.1, trivial⟩
  | .more hv hp hw =>
    exact ⟨List.cons_ne_nil _ _, hv.wellFormed hn.1, (hw.wellFormed hn.2).2⟩

end

theorem DerivesType.isSpelled {type : TypeName} (h : DerivesType w type) :
    type.token.IsSpelled [.inteiro, .logico] := by
  cases h with
  | intro hd => exact Delivery.isSpelled hd (by decide)

theorem DerivesDeclarator.wellFormed {ident : Identifier} (h : DerivesDeclarator w ident) :
    ident.WellFormed := by
  cases h with
  | plain hd | assigned hd => exact identifier_wellFormed hd

theorem DerivesVariables.wellFormed {declarations : List Declaration}
    (h : DerivesVariables w declarations) :
    ∀ d ∈ declarations, d.isVariable = true ∧ d.WellFormed := by
  cases h with
  | intro hm ht hw hp =>
    intro d hd
    obtain ⟨ident, hident, rfl⟩ := List.mem_map.mp hd
    rw [Declaration.WellFormed]
    exact ⟨rfl, hw.forall DerivesDeclarator.wellFormed ident hident, ht.isSpelled⟩

theorem Repeated.wellFormed {groups : List (List Declaration)}
    (h : Repeated DerivesVariables w groups) :
    ∀ d ∈ groups.flatten, d.isVariable = true ∧ d.WellFormed := by
  induction h with
  | nil => simp
  | cons hv _ ih =>
    rw [List.flatten_cons, List.forall_mem_append]
    exact ⟨hv.wellFormed, ih⟩

theorem DerivesParameterGroup.wellFormed {params : List TypedIdentifier}
    (h : DerivesParameterGroup w params) : ∀ param ∈ params, param.WellFormed := by
  cases h with
  | intro hm hw hc ht =>
    intro param hparam
    obtain ⟨ident, hident, rfl⟩ := List.mem_map.mp hparam
    have hidents := hw.forall (P := Identifier.WellFormed) fun h => by
      cases h with
      | intro hd => exact identifier_wellFormed hd
    exact ⟨hidents ident hident, ht.isSpelled⟩

theorem DerivesParameters.wellFormed {params : List TypedIdentifier}
    (h : DerivesParameters w params) : ∀ param ∈ params, param.WellFormed := by
  cases h with
  | missing => simp
  | groups ho hw hc =>
    intro param hparam
    obtain ⟨group, hgroup, hparam⟩ := List.mem_flatten.mp hparam
    exact hw.forall DerivesParameterGroup.wellFormed group hgroup param hparam

namespace Declaration

theorem allWellFormed_iff {ds : List Declaration} :
    AllWellFormed ds ↔ ∀ d ∈ ds, d.WellFormed := by
  induction ds with
  | nil => simp [AllWellFormed]
  | cons d ds ih => rw [AllWellFormed, ih, List.forall_mem_cons]

end Declaration

theorem DerivesProcedures.isVariable {w l : List Delivery} {procedures : List Declaration}
    (h : DerivesProcedures w procedures l) : ∀ d ∈ procedures, d.isVariable = false := by
  cases h with
  | nil => simp
  | cons hv hw =>
    rw [List.forall_mem_cons]
    refine ⟨?_, hw.isVariable⟩
    cases hv with
    | intro => rfl

theorem Declaration.variablesFirst_append {vars procedures : List Declaration}
    (hvars : ∀ d ∈ vars, d.isVariable = true) (hprocs : ∀ d ∈ procedures, d.isVariable = false) :
    VariablesFirst (vars ++ procedures) := by
  refine List.pairwise_append.mpr ⟨?_, ?_, fun d hd e _ _ => hvars d hd⟩
  · exact List.pairwise_of_forall_mem_list fun d hd e _ _ => hvars d hd
  · exact List.pairwise_of_forall_mem_list fun d _ e he h => by
      rw [hprocs e he] at h
      cases h

mutual

theorem DerivesBlock.wellFormed {w l : List Delivery} {block : Block}
    (h : DerivesBlock w block l) (hn : block.NearestElse) : block.WellFormed := by
  match h with
  | .intro hu hv hw =>
    obtain ⟨hnd, hnb⟩ := hn
    rw [Declaration.allNearestElse_append] at hnd
    have hvars := hu.wellFormed
    refine ⟨⟨?_, ?_⟩, hw.wellFormed hnb⟩
    · exact Declaration.variablesFirst_append (fun d hd => (hvars d hd).1) hv.isVariable
    · rw [Declaration.allWellFormed_iff, List.forall_mem_append]
      exact ⟨fun d hd => (hvars d hd).2,
        Declaration.allWellFormed_iff.mp (hv.wellFormed hnd.2)⟩

theorem DerivesProcedure.wellFormed {w l : List Delivery} {procedure : Declaration}
    (h : DerivesProcedure w procedure l) (hn : procedure.NearestElse) :
    procedure.WellFormed := by
  match h with
  | .intro hp hname hv hs hw ht =>
    rw [Declaration.NearestElse] at hn
    rw [Declaration.WellFormed]
    exact ⟨⟨Delivery.isName hname, hv.wellFormed⟩, hw.wellFormed hn⟩

theorem DerivesProcedures.wellFormed {w l : List Delivery} {procedures : List Declaration}
    (h : DerivesProcedures w procedures l) (hn : Declaration.AllNearestElse procedures) :
    Declaration.AllWellFormed procedures := by
  match h with
  | .nil => trivial
  | .cons hv hw => exact ⟨hv.wellFormed hn.1, hw.wellFormed hn.2⟩

end

/-- **A derived program is well-formed** if its alternatives belong to the nearest conditionals. -/
theorem DerivesProgram.wellFormed {l : List Delivery} {program : Program}
    (h : DerivesProgram w program l) (hn : program.NearestElse) : program.WellFormed := by
  cases h with
  | intro hp hname hs hw ht => exact ⟨Delivery.isName hname, hw.wellFormed hn⟩

end WellFormed

end LusoPascal
