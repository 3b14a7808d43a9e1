import LusoPascal.Proofs.Grammar.Derivation

/-!
# The grammar looks at kinds alone

Whether deliveries have a derivation depends on the kinds of their tokens only. The tree that is
derived also holds their texts, values and lines.

* `DerivesExpression.of_kinds`, `DerivesStatement.of_kinds`, `DerivesBlock.of_kinds`: the rules;
* **`DerivesProgram.of_kinds`**: whole programs.
-/

namespace LusoPascal

open Delivery

variable {w : List Delivery}

theorem exists_cons_of_kinds {c : Delivery} {v : List Delivery}
    (h : w.map kind = (c :: v).map kind) :
    ∃ c' v', w = c' :: v' ∧ c'.kind = c.kind ∧ v'.map kind = v.map kind :=
  List.map_eq_cons_iff.mp h

theorem exists_append_of_kinds {u v : List Delivery} (h : w.map kind = (u ++ v).map kind) :
    ∃ u' v', w = u' ++ v' ∧ u'.map kind = u.map kind ∧ v'.map kind = v.map kind := by
  rw [List.map_append] at h
  exact List.map_eq_append_iff.mp h

theorem exists_concat_of_kinds {c : Delivery} {v : List Delivery}
    (h : w.map kind = (v ++ [c]).map kind) :
    ∃ v' c', w = v' ++ [c'] ∧ v'.map kind = v.map kind ∧ c'.kind = c.kind := by
  obtain ⟨v', u', rfl, hv, hu⟩ := exists_append_of_kinds h
  obtain ⟨c', u'', rfl, hc, hnil⟩ := exists_cons_of_kinds hu
  obtain rfl := List.map_eq_nil_iff.mp hnil
  exact ⟨v', c', rfl, hv, hc⟩

theorem exists_singleton_of_kinds {c : Delivery} (h : w.map kind = [c].map kind) :
    ∃ c', w = [c'] ∧ c'.kind = c.kind :=
  List.map_eq_singleton_iff.mp h

/-! ## Expressions and lists -/

theorem DerivesExpression.of_kinds {level : Level} {v : List Delivery} {x : Expression}
    (h : DerivesExpression level v x) (hw : w.map kind = v.map kind) :
    ∃ x', DerivesExpression level w x' := by
  induction h generalizing w with
  | number hd =>
    obtain ⟨d', rfl, hd'⟩ := exists_singleton_of_kinds hw
    exact ⟨_, .number (hd'.trans hd)⟩
  | var hd =>
    obtain ⟨d', rfl, hd'⟩ := exists_singleton_of_kinds hw
    exact ⟨_, .var (hd'.trans hd)⟩
  | parens ho _ hc ih =>
    obtain ⟨o', u, rfl, ho', hu⟩ := exists_cons_of_kinds hw
    obtain ⟨v', c', rfl, hv', hc'⟩ := exists_concat_of_kinds hu
    obtain ⟨x', hx⟩ := ih hv'
    exact ⟨_, .parens (ho'.trans ho) hx (hc'.trans hc)⟩
  | negation hn _ ih =>
    obtain ⟨n', v', rfl, hn', hv'⟩ := exists_cons_of_kinds hw
    obtain ⟨x', hx⟩ := ih hv'
    exact ⟨_, .negation (hn'.trans hn) hx⟩
  | ofFactor _ ih =>
    obtain ⟨x', hx⟩ := ih hw
    exact ⟨_, .ofFactor hx⟩
  | product _ hop _ ihl ihr =>
    obtain ⟨u', v', rfl, hu', hv'⟩ := exists_append_of_kinds hw
    obtain ⟨op', v', rfl, hop', hv'⟩ := exists_cons_of_kinds hv'
    obtain ⟨l', hl⟩ := ihl hu'
    obtain ⟨r', hr⟩ := ihr hv'
    exact ⟨_, .product hl (hop' ▸ hop) hr⟩
  | ofTerm _ ih =>
    obtain ⟨x', hx⟩ := ih hw
    exact ⟨_, .ofTerm hx⟩
  | signed hs _ ih =>
    obtain ⟨s', v', rfl, hs', hv'⟩ := exists_cons_of_kinds hw
    obtain ⟨x', hx⟩ := ih hv'
    exact ⟨_, .signed (hs' ▸ hs) hx⟩
  | sum _ hop _ ihl ihr =>
    obtain ⟨u', v', rfl, hu', hv'⟩ := exists_append_of_kinds hw
    obtain ⟨op', v', rfl, hop', hv'⟩ := exists_cons_of_kinds hv'
    obtain ⟨l', hl⟩ := ihl hu'
    obtain ⟨r', hr⟩ := ihr hv'
    exact ⟨_, .sum hl (hop' ▸ hop) hr⟩
  | ofSimple _ ih =>
    obtain ⟨x', hx⟩ := ih hw
    exact ⟨_, .ofSimple hx⟩
  | comparison _ hop _ ihl ihr =>
    obtain ⟨u', v', rfl, hu', hv'⟩ := exists_append_of_kinds hw
    obtain ⟨op', v', rfl, hop', hv'⟩ := exists_cons_of_kinds hv'
    obtain ⟨l', hl⟩ := ihl hu'
    obtain ⟨r', hr⟩ := ihr hv'
    exact ⟨_, .comparison hl (hop' ▸ hop) hr⟩

section Lists

variable {α : Type} {Item : List Delivery → α → Prop}
  (hitem : ∀ {v w : List Delivery} {a : α}, Item v a → w.map kind = v.map kind → ∃ b, Item w b)

include hitem

theorem Separated.of_kinds {separator : TokenKind} {v : List Delivery} {as : List α}
    (h : Separated separator Item v as) (hw : w.map kind = v.map kind) :
    ∃ bs, Separated separator Item w bs := by
  induction h generalizing w with
  | one hv =>
    obtain ⟨b, hb⟩ := hitem hv hw
    exact ⟨_, .one hb⟩
  | more hv hs _ ih =>
    obtain ⟨u', v', rfl, hu', hv'⟩ := exists_append_of_kinds hw
    obtain ⟨s', v', rfl, hs', hv'⟩ := exists_cons_of_kinds hv'
    obtain ⟨b, hb⟩ := hitem hv hu'
    obtain ⟨bs, hbs⟩ := ih hv'
    exact ⟨_, .more hb (hs'.trans hs) hbs⟩

theorem Repeated.of_kinds {v : List Delivery} {as : List α} (h : Repeated Item v as)
    (hw : w.map kind = v.map kind) : ∃ bs, Repeated Item w bs := by
  induction h generalizing w with
  | nil =>
    obtain rfl := List.map_eq_nil_iff.mp hw
    exact ⟨_, .nil⟩
  | cons hv _ ih =>
    obtain ⟨u', v', rfl, hu', hv'⟩ := exists_append_of_kinds hw
    obtain ⟨b, hb⟩ := hitem hv hu'
    obtain ⟨bs, hbs⟩ := ih hv'
    exact ⟨_, .cons hb hbs⟩

end Lists

theorem DerivesIdentifier.of_kinds {v : List Delivery} {ident : Identifier}
    (h : DerivesIdentifier v ident) (hw : w.map kind = v.map kind) :
    ∃ ident', DerivesIdentifier w ident' := by
  cases h with
  | intro hd =>
    obtain ⟨d', rfl, hd'⟩ := exists_singleton_of_kinds hw
    exact ⟨_, .intro (hd'.trans hd)⟩

theorem DerivesName.of_kinds {v : List Delivery} {name : String} (h : DerivesName v name)
    (hw : w.map kind = v.map kind) : ∃ name', DerivesName w name' := by
  cases h with
  | intro hd =>
    obtain ⟨d', rfl, hd'⟩ := exists_singleton_of_kinds hw
    exact ⟨_, .intro (hd'.trans hd)⟩

/-! ## Commands -/

theorem DerivesValue.of_kinds {v : List Delivery} {x : Expression} (h : DerivesValue v x)
    (hw : w.map kind = v.map kind) : ∃ x', DerivesValue w x' := by
  cases h with
  | boolean hd =>
    obtain ⟨d', rfl, hd'⟩ := exists_singleton_of_kinds hw
    exact ⟨_, .boolean (hd'.trans hd)⟩
  | expression hv =>
    obtain ⟨x', hx⟩ := hv.of_kinds hw
    exact ⟨_, .expression hx⟩

theorem DerivesArguments.of_kinds {v : List Delivery} {args : List String}
    (h : DerivesArguments v args) (hw : w.map kind = v.map kind) :
    ∃ args', DerivesArguments w args' := by
  cases h with
  | missing =>
    obtain rfl := List.map_eq_nil_iff.mp hw
    exact ⟨_, .missing⟩
  | empty ho hc =>
    obtain ⟨o', u, rfl, ho', hu⟩ := exists_cons_of_kinds hw
    obtain ⟨c', rfl, hc'⟩ := exists_singleton_of_kinds hu
    exact ⟨_, .empty (ho'.trans ho) (hc'.trans hc)⟩
  | names ho hv hc =>
    obtain ⟨o', u, rfl, ho', hu⟩ := exists_cons_of_kinds hw
    obtain ⟨v', c', rfl, hv', hc'⟩ := exists_concat_of_kinds hu
    obtain ⟨names, hnames⟩ := hv.of_kinds DerivesName.of_kinds hv'
    exact ⟨_, .names (ho'.trans ho) hnames (hc'.trans hc)⟩

mutual

theorem DerivesStatement.of_kinds {v w l : List Delivery} {s : Statement}
    (h : DerivesStatement v s l) (hw : w.map kind = v.map kind) :
    ∃ s' l', DerivesStatement w s' l' := by
  match h with
  | .empty =>
    obtain rfl := List.map_eq_nil_iff.mp hw
    exact ⟨_, _, .empty⟩
  | .assignment hd ha hv =>
    obtain ⟨d', u, rfl, hd', hu⟩ := exists_cons_of_kinds hw
    obtain ⟨a', v', rfl, ha', hv'⟩ := exists_cons_of_kinds hu
    obtain ⟨x', hx⟩ := hv.of_kinds hv'
    exact ⟨_, _, .assignment (hd'.trans hd) (ha'.trans ha) hx⟩
  | .call hd hv =>
    obtain ⟨d', v', rfl, hd', hv'⟩ := exists_cons_of_kinds hw
    obtain ⟨args, hargs⟩ := hv.of_kinds hv'
    exact ⟨_, _, .call (hd'.trans hd) hargs⟩
  | .compound hv =>
    obtain ⟨ss, l', hss⟩ := hv.of_kinds hw
    exact ⟨_, _, .compound hss⟩
  | .ifThen hi hv ht hs =>
    obtain ⟨i', u, rfl, hi', hu⟩ := exists_cons_of_kinds hw
    obtain ⟨v', u, rfl, hv', hu⟩ := exists_append_of_kinds hu
    obtain ⟨t', s', rfl, ht', hs'⟩ := exists_cons_of_kinds hu
    obtain ⟨c, hc⟩ := hv.of_kinds hv'
    obtain ⟨s, l', hs⟩ := hs.of_kinds hs'
    exact ⟨_, _, .ifThen (hi'.trans hi) hc (ht'.trans ht) hs⟩
  | .ifThenElse hi hv ht hs he hx =>
    obtain ⟨i', u, rfl, hi', hu⟩ := exists_cons_of_kinds hw
    obtain ⟨v', u, rfl, hv', hu⟩ := exists_append_of_kinds hu
    obtain ⟨t', u, rfl, ht', hu⟩ := exists_cons_of_kinds hu
    obtain ⟨s', u, rfl, hs', hu⟩ := exists_append_of_kinds hu
    obtain ⟨e', x', rfl, he', hx'⟩ := exists_cons_of_kinds hu
    obtain ⟨c, hc⟩ := hv.of_kinds hv'
    obtain ⟨s, l', hs⟩ := hs.of_kinds hs'
    obtain ⟨x, m', hx⟩ := hx.of_kinds hx'
    exact ⟨_, _, .ifThenElse (hi'.trans hi) hc (ht'.trans ht) hs (he'.trans he) hx⟩
  | .loop hi hv hf hs =>
    obtain ⟨i', u, rfl, hi', hu⟩ := exists_cons_of_kinds hw
    obtain ⟨v', u, rfl, hv', hu⟩ := exists_append_of_kinds hu
    obtain ⟨f', s', rfl, hf', hs'⟩ := exists_cons_of_kinds hu
    obtain ⟨c, hc⟩ := hv.of_kinds hv'
    obtain ⟨s, l', hs⟩ := hs.of_kinds hs'
    exact ⟨_, _, .loop (hi'.trans hi) hc (hf'.trans hf) hs⟩

theorem DerivesCompound.of_kinds {v w l : List Delivery} {ss : List Statement}
    (h : DerivesCompound v ss l) (hw : w.map kind = v.map kind) :
    ∃ ss' l', DerivesCompound w ss' l' := by
  match h with
  | .intro hb hv hf =>
    obtain ⟨b', u, rfl, hb', hu⟩ := exists_cons_of_kinds hw
    obtain ⟨v', f', rfl, hv', hf'⟩ := exists_concat_of_kinds hu
    obtain ⟨ss, l', hss⟩ := hv.of_kinds hv'
    exact ⟨_, _, .intro (hb'.trans hb) hss (hf'.trans hf)⟩

theorem DerivesStatements.of_kinds {v w l : List Delivery} {ss : List Statement}
    (h : DerivesStatements v ss l) (hw : w.map kind = v.map kind) :
    ∃ ss' l', DerivesStatements w ss' l' := by
  match h with
  | .one hv =>
    obtain ⟨s, l', hs⟩ := hv.of_kinds hw
    exact ⟨_, _, .one hs⟩
  | .more hv hp hss =>
    obtain ⟨u', v', rfl, hu', hv'⟩ := exists_append_of_kinds hw
    obtain ⟨p', v', rfl, hp', hv'⟩ := exists_cons_of_kinds hv'
    obtain ⟨s, l', hs⟩ := hv.of_kinds hu'
    obtain ⟨ss, m', hss⟩ := hss.of_kinds hv'
    exact ⟨_, _, .more hs (hp'.trans hp) hss⟩

end

/-! ## Declarations -/

theorem DerivesMarker.of_kinds {v : List Delivery} (h : DerivesMarker v)
    (hw : w.map kind = v.map kind) : DerivesMarker w := by
  cases h with
  | missing =>
    obtain rfl := List.map_eq_nil_iff.mp hw
    exact .missing
  | present hd =>
    obtain ⟨d', rfl, hd'⟩ := exists_singleton_of_kinds hw
    exact .present (hd'.trans hd)

theorem DerivesType.of_kinds {v : List Delivery} {type : TypeName} (h : DerivesType v type)
    (hw : w.map kind = v.map kind) : ∃ type', DerivesType w type' := by
  cases h with
  | intro hd =>
    obtain ⟨d', rfl, hd'⟩ := exists_singleton_of_kinds hw
    exact ⟨_, .intro (hd' ▸ hd)⟩

theorem DerivesDeclarator.of_kinds {v : List Delivery} {ident : Identifier}
    (h : DerivesDeclarator v ident) (hw : w.map kind = v.map kind) :
    ∃ ident', DerivesDeclarator w ident' := by
  cases h with
  | plain hd =>
    obtain ⟨d', rfl, hd'⟩ := exists_singleton_of_kinds hw
    exact ⟨_, .plain (hd'.trans hd)⟩
  | assigned hd ha hv =>
    obtain ⟨d', u, rfl, hd', hu⟩ := exists_cons_of_kinds hw
    obtain ⟨a', v', rfl, ha', hv'⟩ := exists_cons_of_kinds hu
    obtain ⟨x', hx⟩ := hv.of_kinds hv'
    exact ⟨_, .assigned (hd'.trans hd) (ha'.trans ha) hx⟩

theorem DerivesVariables.of_kinds {v : List Delivery} {ds : List Declaration}
    (h : DerivesVariables v ds) (hw : w.map kind = v.map kind) :
    ∃ ds', DerivesVariables w ds' := by
  cases h with
  | intro hm ht hv hp =>
    obtain ⟨m', u, rfl, hm', hu⟩ := exists_append_of_kinds hw
    obtain ⟨t', u, rfl, ht', hu⟩ := exists_append_of_kinds hu
    obtain ⟨v', p', rfl, hv', hp'⟩ := exists_concat_of_kinds hu
    obtain ⟨type, ht⟩ := ht.of_kinds ht'
    obtain ⟨idents, hidents⟩ := hv.of_kinds DerivesDeclarator.of_kinds hv'
    exact ⟨_, .intro (hm.of_kinds hm') ht hidents (hp'.trans hp)⟩

theorem DerivesParameterGroup.of_kinds {v : List Delivery} {params : List TypedIdentifier}
    (h : DerivesParameterGroup v params) (hw : w.map kind = v.map kind) :
    ∃ params', DerivesParameterGroup w params' := by
  cases h with
  | intro hm hv hc ht =>
    obtain ⟨m', u, rfl, hm', hu⟩ := exists_append_of_kinds hw
    obtain ⟨v', u, rfl, hv', hu⟩ := exists_append_of_kinds hu
    obtain ⟨c', t', rfl, hc', ht'⟩ := exists_cons_of_kinds hu
    obtain ⟨type, ht⟩ := ht.of_kinds ht'
    obtain ⟨idents, hidents⟩ := hv.of_kinds DerivesIdentifier.of_kinds hv'
    exact ⟨_, .intro (hm.of_kinds hm') hidents (hc'.trans hc) ht⟩

theorem DerivesParameters.of_kinds {v : List Delivery} {params : List TypedIdentifier}
    (h : DerivesParameters v params) (hw : w.map kind = v.map kind) :
    ∃ params', DerivesParameters w params' := by
  cases h with
  | missing =>
    obtain rfl := List.map_eq_nil_iff.mp hw
    exact ⟨_, .missing⟩
  | groups ho hv hc =>
    obtain ⟨o', u, rfl, ho', hu⟩ := exists_cons_of_kinds hw
    obtain ⟨v', c', rfl, hv', hc'⟩ := exists_concat_of_kinds hu
    obtain ⟨groups, hgroups⟩ := hv.of_kinds DerivesParameterGroup.of_kinds hv'
    exact ⟨_, .groups (ho'.trans ho) hgroups (hc'.trans hc)⟩

mutual

theorem DerivesBlock.of_kinds {v w l : List Delivery} {block : Block} (h : DerivesBlock v block l)
    (hw : w.map kind = v.map kind) : ∃ block' l', DerivesBlock w block' l' := by
  match h with
  | .intro hgroups hprocedures hbody =>
    obtain ⟨g', u, rfl, hg', hu⟩ := exists_append_of_kinds hw
    obtain ⟨p', b', rfl, hp', hb'⟩ := exists_append_of_kinds hu
    obtain ⟨groups, hgroups⟩ := hgroups.of_kinds DerivesVariables.of_kinds hg'
    obtain ⟨procedures, l', hprocedures⟩ := hprocedures.of_kinds hp'
    obtain ⟨body, m', hbody⟩ := hbody.of_kinds hb'
    exact ⟨_, _, .intro hgroups hprocedures hbody⟩

theorem DerivesProcedure.of_kinds {v w l : List Delivery} {procedure : Declaration}
    (h : DerivesProcedure v procedure l) (hw : w.map kind = v.map kind) :
    ∃ procedure' l', DerivesProcedure w procedure' l' := by
  match h with
  | .intro hp hn hv hs hb ht =>
    obtain ⟨p', u, rfl, hp', hu⟩ := exists_cons_of_kinds hw
    obtain ⟨n', u, rfl, hn', hu⟩ := exists_cons_of_kinds hu
    obtain ⟨v', u, rfl, hv', hu⟩ := exists_append_of_kinds hu
    obtain ⟨s', u, rfl, hs', hu⟩ := exists_cons_of_kinds hu
    obtain ⟨b', t', rfl, hb', ht'⟩ := exists_concat_of_kinds hu
    obtain ⟨params, hparams⟩ := hv.of_kinds hv'
    obtain ⟨block, l', hblock⟩ := hb.of_kinds hb'
    exact ⟨_, _, .intro (hp'.trans hp) (hn'.trans hn) hparams (hs'.trans hs) hblock (ht'.trans ht)⟩

theorem DerivesProcedures.of_kinds {v w l : List Delivery} {procedures : List Declaration}
    (h : DerivesProcedures v procedures l) (hw : w.map kind = v.map kind) :
    ∃ procedures' l', DerivesProcedures w procedures' l' := by
  match h with
  | .nil =>
    obtain rfl := List.map_eq_nil_iff.mp hw
    exact ⟨_, _, .nil⟩
  | .cons hv hprocedures =>
    obtain ⟨u', v', rfl, hu', hv'⟩ := exists_append_of_kinds hw
    obtain ⟨procedure, l', hprocedure⟩ := hv.of_kinds hu'
    obtain ⟨procedures, m', hprocedures⟩ := hprocedures.of_kinds hv'
    exact ⟨_, _, .cons hprocedure hprocedures⟩

end

/-- **Deliveries of the same kinds have a derivation as well.** -/
theorem DerivesProgram.of_kinds {v l : List Delivery} {program : Program}
    (h : DerivesProgram v program l) (hw : w.map kind = v.map kind) :
    ∃ program' l', DerivesProgram w program' l' := by
  cases h with
  | intro hp hn hs hb ht =>
    obtain ⟨p', u, rfl, hp', hu⟩ := exists_cons_of_kinds hw
    obtain ⟨n', u, rfl, hn', hu⟩ := exists_cons_of_kinds hu
    obtain ⟨s', u, rfl, hs', hu⟩ := exists_cons_of_kinds hu
    obtain ⟨b', t', rfl, hb', ht'⟩ := exists_concat_of_kinds hu
    obtain ⟨block, l', hblock⟩ := hb.of_kinds hb'
    exact ⟨_, _, .intro (hp'.trans hp) (hn'.trans hn) (hs'.trans hs) hblock (ht'.trans ht)⟩

end LusoPascal
