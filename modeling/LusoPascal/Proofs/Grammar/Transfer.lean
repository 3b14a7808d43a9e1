import LusoPascal.Proofs.Grammar.Derivation

/-!
# The grammar looks at tokens and lines alone

A derivation does not see where in which text its tokens stand. If each delivery gives way to one of
the same token on the same line, the same tree is derived.

* `Delivery.Renews`: such a change of deliveries;
* `DerivesExpression.map`, `DerivesStatement.map`, `DerivesBlock.map`: the rules;
* **`DerivesProgram.map`**: whole programs, and where their leaders go.
-/

set_option linter.unusedSectionVars false

namespace LusoPascal

namespace Delivery

/-- Each delivery gives way to one of the same token on the same line. -/
def Renews (f : Delivery → Delivery) : Prop := ∀ d, (f d).located = d.located

namespace Renews

variable {f : Delivery → Delivery} {kind : TokenKind} {kinds : List TokenKind}

theorem token (hf : Renews f) (d : Delivery) : (f d).token = d.token := by
  rw [Delivery.token, hf]
  rfl

theorem line (hf : Renews f) (d : Delivery) : (f d).line = d.line := by
  rw [Delivery.line, hf]
  rfl

theorem identifier (hf : Renews f) (d : Delivery) : (f d).identifier = d.identifier := by
  rw [Delivery.identifier, hf.token, hf.line]
  rfl

theorem kind_eq (hf : Renews f) {d : Delivery} (hd : d.kind = kind) : (f d).kind = kind := by
  rw [Delivery.kind, hf.token]
  exact hd

theorem kind_mem (hf : Renews f) {d : Delivery} (hd : d.kind ∈ kinds) : (f d).kind ∈ kinds := by
  rw [hf.kind_eq rfl]
  exact hd

end Renews

end Delivery

open Delivery

section Map

variable {f : Delivery → Delivery} (hf : Renews f) {w l : List Delivery}

/-! ## Expressions and lists -/

include hf

theorem DerivesExpression.map {level : Level} {x : Expression} (h : DerivesExpression level w x) :
    DerivesExpression level (w.map f) x := by
  induction h with
  | @number d hd =>
    rw [← hf.token]
    exact .number (hf.kind_eq hd)
  | @var d hd =>
    rw [← hf.identifier]
    exact .var (hf.kind_eq hd)
  | parens ho _ hc ih =>
    rw [List.map_cons, List.map_append]
    exact .parens (hf.kind_eq ho) ih (hf.kind_eq hc)
  | @negation n _ _ hn _ ih =>
    rw [List.map_cons, ← hf.token]
    exact .negation (hf.kind_eq hn) ih
  | ofFactor _ ih => exact .ofFactor ih
  | @product _ _ op _ _ _ hop _ ihl ihr =>
    rw [List.map_append, List.map_cons, ← hf.token]
    exact .product ihl (hf.kind_mem hop) ihr
  | ofTerm _ ih => exact .ofTerm ih
  | @signed s _ _ hs _ ih =>
    rw [List.map_cons, ← hf.token]
    exact .signed (hf.kind_mem hs) ih
  | @sum _ _ op _ _ _ hop _ ihl ihr =>
    rw [List.map_append, List.map_cons, ← hf.token]
    exact .sum ihl (hf.kind_mem hop) ihr
  | ofSimple _ ih => exact .ofSimple ih
  | @comparison _ _ op _ _ _ hop _ ihl ihr =>
    rw [List.map_append, List.map_cons, ← hf.token]
    exact .comparison ihl (hf.kind_mem hop) ihr

theorem Separated.map {α : Type} {Item : List Delivery → α → Prop} {separator : TokenKind}
    {as : List α} (hitem : ∀ {v : List Delivery} {a : α}, Item v a → Item (v.map f) a)
    (h : Separated separator Item w as) : Separated separator Item (w.map f) as := by
  induction h with
  | one hw => exact .one (hitem hw)
  | more hv hs _ ih =>
    rw [List.map_append, List.map_cons]
    exact .more (hitem hv) (hf.kind_eq hs) ih

omit hf in
theorem Repeated.map {α : Type} {Item : List Delivery → α → Prop} {as : List α}
    (hitem : ∀ {v : List Delivery} {a : α}, Item v a → Item (v.map f) a)
    (h : Repeated Item w as) : Repeated Item (w.map f) as := by
  induction h with
  | nil => exact .nil
  | cons hv _ ih =>
    rw [List.map_append]
    exact .cons (hitem hv) ih

theorem DerivesIdentifier.map {ident : Identifier} (h : DerivesIdentifier w ident) :
    DerivesIdentifier (w.map f) ident := by
  cases h with
  | @intro d hd =>
    rw [← hf.identifier]
    exact .intro (hf.kind_eq hd)

theorem DerivesName.map {name : String} (h : DerivesName w name) :
    DerivesName (w.map f) name := by
  cases h with
  | @intro d hd =>
    rw [← hf.token]
    exact .intro (hf.kind_eq hd)

/-! ## Commands -/

theorem DerivesValue.map {x : Expression} (h : DerivesValue w x) : DerivesValue (w.map f) x := by
  cases h with
  | @boolean d hd =>
    rw [← hf.token]
    exact .boolean (hf.kind_eq hd)
  | expression hw => exact .expression (hw.map hf)

theorem DerivesArguments.map {args : List String} (h : DerivesArguments w args) :
    DerivesArguments (w.map f) args := by
  cases h with
  | missing => exact .missing
  | empty ho hc => exact .empty (hf.kind_eq ho) (hf.kind_eq hc)
  | names ho hw hc =>
    rw [List.map_cons, List.map_append]
    exact .names (hf.kind_eq ho) (hw.map hf (DerivesName.map hf)) (hf.kind_eq hc)

mutual

theorem DerivesStatement.map {w l : List Delivery} {s : Statement} (h : DerivesStatement w s l) :
    DerivesStatement (w.map f) s (l.map f) := by
  match h with
  | .empty => exact .empty
  | @DerivesStatement.assignment d a _ _ hd ha hw =>
    rw [List.map_cons, List.map_cons, ← hf.identifier, ← hf.token]
    exact .assignment (hf.kind_eq hd) (hf.kind_eq ha) (hw.map hf)
  | @DerivesStatement.call d _ _ hd hw =>
    rw [List.map_cons, ← hf.token, ← hf.line]
    exact .call (hf.kind_eq hd) (hw.map hf)
  | .compound hw => exact .compound hw.map
  | .ifThen hi hv ht hw =>
    rw [List.map_cons, List.map_append, List.map_cons]
    exact .ifThen (hf.kind_eq hi) (hv.map hf) (hf.kind_eq ht) hw.map
  | .ifThenElse hi hv ht hw he hx =>
    rw [List.map_cons, List.map_append, List.map_cons, List.map_append, List.map_cons,
      List.map_append]
    exact .ifThenElse (hf.kind_eq hi) (hv.map hf) (hf.kind_eq ht) hw.map (hf.kind_eq he) hx.map
  | .loop hi hv ht hw =>
    rw [List.map_cons, List.map_append, List.map_cons]
    exact .loop (hf.kind_eq hi) (hv.map hf) (hf.kind_eq ht) hw.map

theorem DerivesCompound.map {w l : List Delivery} {ss : List Statement}
    (h : DerivesCompound w ss l) : DerivesCompound (w.map f) ss (l.map f) := by
  match h with
  | .intro hb hw hclose =>
    rw [List.map_cons, List.map_append]
    exact .intro (hf.kind_eq hb) hw.map (hf.kind_eq hclose)

theorem DerivesStatements.map {w l : List Delivery} {ss : List Statement}
    (h : DerivesStatements w ss l) : DerivesStatements (w.map f) ss (l.map f) := by
  match h with
  | .one hw => exact .one hw.map
  | .more hv hp hw =>
    rw [List.map_append, List.map_append, List.map_cons]
    exact .more hv.map (hf.kind_eq hp) hw.map

end

/-! ## Declarations -/

theorem DerivesMarker.map (h : DerivesMarker w) : DerivesMarker (w.map f) := by
  cases h with
  | missing => exact .missing
  | present hd => exact .present (hf.kind_eq hd)

theorem DerivesType.map {type : TypeName} (h : DerivesType w type) :
    DerivesType (w.map f) type := by
  cases h with
  | @intro d hd =>
    rw [← hf.token]
    exact .intro (hf.kind_mem hd)

theorem DerivesDeclarator.map {ident : Identifier} (h : DerivesDeclarator w ident) :
    DerivesDeclarator (w.map f) ident := by
  cases h with
  | @plain d hd =>
    rw [← hf.identifier]
    exact .plain (hf.kind_eq hd)
  | @assigned d a _ _ hd ha hw =>
    rw [List.map_cons, List.map_cons, ← hf.identifier]
    exact .assigned (hf.kind_eq hd) (hf.kind_eq ha) (hw.map hf)

theorem DerivesVariables.map {declarations : List Declaration}
    (h : DerivesVariables w declarations) : DerivesVariables (w.map f) declarations := by
  cases h with
  | intro hm ht hw hp =>
    rw [List.map_append, List.map_append, List.map_append]
    exact .intro (hm.map hf) (ht.map hf) (hw.map hf (DerivesDeclarator.map hf)) (hf.kind_eq hp)

theorem DerivesParameterGroup.map {params : List TypedIdentifier}
    (h : DerivesParameterGroup w params) : DerivesParameterGroup (w.map f) params := by
  cases h with
  | intro hm hw hc ht =>
    rw [List.map_append, List.map_append, List.map_cons]
    exact .intro (hm.map hf) (hw.map hf (DerivesIdentifier.map hf)) (hf.kind_eq hc) (ht.map hf)

theorem DerivesParameters.map {params : List TypedIdentifier} (h : DerivesParameters w params) :
    DerivesParameters (w.map f) params := by
  cases h with
  | missing => exact .missing
  | groups ho hw hc =>
    rw [List.map_cons, List.map_append]
    exact .groups (hf.kind_eq ho) (hw.map hf (DerivesParameterGroup.map hf)) (hf.kind_eq hc)

mutual

theorem DerivesBlock.map {w l : List Delivery} {block : Block} (h : DerivesBlock w block l) :
    DerivesBlock (w.map f) block (l.map f) := by
  match h with
  | .intro hu hv hw =>
    rw [List.map_append, List.map_append, List.map_append]
    exact .intro (hu.map (DerivesVariables.map hf)) hv.map (hw.map hf)

theorem DerivesProcedure.map {w l : List Delivery} {procedure : Declaration}
    (h : DerivesProcedure w procedure l) : DerivesProcedure (w.map f) procedure (l.map f) := by
  match h with
  | @DerivesProcedure.intro p n _ _ _ _ _ _ _ hp hn hv hs hw ht =>
    rw [List.map_cons, List.map_cons, List.map_append, List.map_cons, List.map_append, ← hf.token,
      ← hf.line]
    exact .intro (hf.kind_eq hp) (hf.kind_eq hn) (hv.map hf) (hf.kind_eq hs) hw.map (hf.kind_eq ht)

theorem DerivesProcedures.map {w l : List Delivery} {procedures : List Declaration}
    (h : DerivesProcedures w procedures l) :
    DerivesProcedures (w.map f) procedures (l.map f) := by
  match h with
  | .nil => exact .nil
  | .cons hv hw =>
    rw [List.map_append, List.map_append]
    exact .cons hv.map hw.map

end

/-- **The same program is derived**, and what its leaders give way to are the leaders. -/
theorem DerivesProgram.map {program : Program} (h : DerivesProgram w program l) :
    DerivesProgram (w.map f) program (l.map f) := by
  cases h with
  | @intro p n s t _ _ _ hp hn hs hw ht =>
    rw [List.map_cons, List.map_cons, List.map_cons, List.map_append, ← hf.token]
    exact .intro (hf.kind_eq hp) (hf.kind_eq hn) (hf.kind_eq hs) (hw.map hf) (hf.kind_eq ht)

end Map

end LusoPascal
