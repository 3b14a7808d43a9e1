import LusoPascal.Proofs.Grammar.Derivation
import LusoPascal.Proofs.Tree.Rendering

/-!
# Rendered trees are derived

The deliveries of a rendered tree have a derivation, and its tree is the rendered one with all
places on the first line.

* `Delivery.Leads`, `Delivery.agrees_of_leads`: what stands behind a leader, and that the raw
  character of a written text then agrees;
* `Expression.WellFormed.derives`, `Statement.WellFormed.derives`,
  `Declaration.WellFormed.derives`: the trees, part by part;
* **`Program.WellFormed.derives`**: whole programs.
-/

namespace LusoPascal

open Delivery

namespace Delivery

variable {d : Delivery} {token : Token} {kind : TokenKind} {line : Nat}

theorem kind_of_located (h : d.located = ⟨token, line⟩) : d.kind = token.kind := by
  rw [Delivery.kind, Delivery.token, h]

theorem token_of_located (h : d.located = ⟨token, line⟩) : d.token = token := by
  rw [Delivery.token, h]

theorem line_of_located (h : d.located = ⟨token, line⟩) : d.line = line := by
  rw [Delivery.line, h]

theorem identifier_of_located {ident : Identifier} (hi : ident.WellFormed)
    (h : d.located = ⟨nameToken ident.name, line⟩) : d.identifier = ident.onLine line := by
  obtain ⟨name, token, _⟩ := ident
  have htoken : token = nameToken name := hi.token
  subst htoken
  rw [identifier, token_of_located h, line_of_located h]
  rfl

/-- A token that can stand behind an identifier that begins a command. -/
def Leads (d : Delivery) : Prop :=
  ∃ kind ∈ [TokenKind.assign, .leftParen, .semicolon, .fim, .senao], d.nextKind? = some kind

/-- Behind a leader of a written text stands one blank, and the raw character at index one is the
first one of the next token. -/
theorem agrees_of_leads {rest : List Token} (hbehind : d.behind = .onBlank rest)
    (hrest : AllWritable rest) (h : d.Leads) : d.Agrees := by
  obtain ⟨kind, hk, hnext⟩ := h
  have hon := Cursor.onBlank_onWritten rest
  cases rest with
  | nil =>
    rw [nextKind?, hbehind, hon.next_nil] at hnext
    obtain rfl := Option.some.inj hnext
    exact absurd hk (by decide)
  | cons token rest =>
    rw [allWritable_cons] at hrest
    have hkind : token.kind = kind := by
      rw [nextKind?, hbehind, hon.next hrest.1] at hnext
      exact Option.some.inj hnext
    have hraw : d.rawAssign = ((token.chars ++ ' ' :: written rest).head? == some ':' ||
        (token.chars ++ ' ' :: written rest).head? == some '=') := by
      rw [rawAssign, Cursor.peek?, hbehind, List.head?_eq_getElem?]
      rfl
    rw [Agrees, hnext, hraw]
    simp only [List.mem_cons, List.not_mem_nil, or_false] at hk
    have hspelled {spelling : String} (hs : kind.spelling? = some spelling) :
        token.chars = spelling.toList := by
      rw [hrest.1.1.eq_of_spelling? (by rw [hkind]; exact hs)]
      rfl
    rcases hk with rfl | rfl | rfl | rfl | rfl
    · rw [hspelled rfl]
      exact iff_of_true rfl rfl
    all_goals
      rw [hspelled rfl]
      exact iff_of_false (by decide) Bool.false_ne_true

end Delivery

/-! ## Lists and pairs of brackets -/

/-- Pieces that are rendered with a separator between each two are derived so. -/
theorem separated_of_joined {α β : Type} {separator : TokenKind} {tokens : α → List Token}
    {Item : List Delivery → β → Prop} {f : α → β} {as : List α} (hne : as ≠ [])
    (hitem : ∀ a ∈ as, ∀ {d e : Delivery} {w : List Delivery}, Spells d w (tokens a) e →
      Item w (f a))
    {d e : Delivery} {w : List Delivery} (hs : Spells d w (joined separator (as.map tokens)) e) :
    Separated separator Item w (as.map f) := by
  match as with
  | [] => exact absurd rfl hne
  | [a] => exact .one (hitem a (List.mem_singleton_self a) hs)
  | a :: b :: rest =>
    rw [List.forall_mem_cons] at hitem
    obtain ⟨u, v, c, rfl, hu, hv⟩ := Spells.append_iff.mp hs
    obtain ⟨v, f, rfl, hc, -, hv⟩ := Spells.cons_iff.mp hv
    exact .more (hitem.1 hu) (kind_of_located hc)
      (separated_of_joined (List.cons_ne_nil b rest) hitem.2 hv)

theorem exists_of_enclosed {opening closing : TokenKind} {tokens : List Token} {d e : Delivery}
    {w : List Delivery}
    (hs : Spells d w (opening.token :: (tokens ++ [closing.token])) e) :
    ∃ b v c, w = d :: (v ++ [c]) ∧ d.kind = opening ∧ c.kind = closing ∧ Spells b v tokens c := by
  obtain ⟨v, b, rfl, ho, -, hs⟩ := Spells.cons_iff.mp hs
  obtain ⟨v, u, c, rfl, hv, hu⟩ := Spells.append_iff.mp hs
  obtain ⟨u, f, rfl, hc, -, hu⟩ := Spells.cons_iff.mp hu
  obtain ⟨rfl, -⟩ := Spells.nil_iff.mp hu
  exact ⟨b, v, c, rfl, kind_of_located ho, kind_of_located hc, hv⟩

/-! ## Expressions -/

theorem DerivesExpression.loosen {own level : Level} {w : List Delivery} {x : Expression}
    (h : DerivesExpression own w x) (hle : level.tightness ≤ own.tightness) :
    DerivesExpression level w x := by
  cases own <;> cases level <;> simp only [Level.tightness, Nat.reduceLeDiff] at hle
  case relation.relation | simple.simple | term.term | factor.factor => exact h
  case simple.relation => exact .ofSimple h
  case term.relation => exact .ofSimple (.ofTerm h)
  case term.simple => exact .ofTerm h
  case factor.relation => exact .ofSimple (.ofTerm (.ofFactor h))
  case factor.simple => exact .ofTerm (.ofFactor h)
  case factor.term => exact .ofFactor h

theorem derives_wrapped {level own : Level} {tokens : List Token} {x : Expression}
    (h : ∀ {d : Delivery} {w : List Delivery} {e : Delivery}, Spells d w tokens e →
      DerivesExpression own w x)
    {d e : Delivery} {w : List Delivery} (hs : Spells d w (wrapped level own tokens) e) :
    DerivesExpression level w x := by
  rw [wrapped] at hs
  split at hs
  · obtain ⟨b, v, c, rfl, ho, hc, hv⟩ := exists_of_enclosed hs
    have hparens := DerivesExpression.parens ho ((h hv).loosen (Nat.zero_le _)) hc
    refine hparens.loosen ?_
    cases level <;> decide
  · next hle => exact (h hs).loosen (Nat.le_of_not_lt hle)

theorem Level.ofOperator_cases {kind : TokenKind} (h : kind ∈ [TokenKind.equal, .notEqual,
    .greater, .greaterEqual, .less, .lessEqual, .plus, .minus, .ou, .times, .div, .e]) :
    (ofOperator kind = relation ∧
      kind ∈ [TokenKind.equal, .notEqual, .greater, .greaterEqual, .less, .lessEqual]) ∨
    (ofOperator kind = simple ∧ kind ∈ [TokenKind.plus, .minus, .ou]) ∨
    (ofOperator kind = term ∧ kind ∈ [TokenKind.times, .div, .e]) := by
  revert h
  cases kind <;> decide

theorem Expression.WellFormed.derives {x : Expression} (h : x.WellFormed) :
    ∀ (level : Level) {d e : Delivery} {w : List Delivery}, Spells d w (x.tokens level) e →
      DerivesExpression level w (x.onLine 1) := by
  induction x with
  | binary left op right ihl ihr =>
    intro level d e w hs
    obtain ⟨⟨hop, -⟩, hl, hr⟩ := h
    refine derives_wrapped (fun {d w e} hs => ?_) hs
    obtain ⟨u, v, c, rfl, hu, hv⟩ := Spells.append_iff.mp hs
    obtain ⟨v, f, rfl, hc, -, hv⟩ := Spells.cons_iff.mp hv
    obtain rfl := token_of_located hc
    have hleft := ihl hl _ hu
    have hright := ihr hr _ hv
    rw [onLine]
    rcases Level.ofOperator_cases hop with ⟨hown, hop⟩ | ⟨hown, hop⟩ | ⟨hown, hop⟩ <;>
      rw [hown] at hleft hright ⊢
    · exact .comparison hleft hop hright
    · exact .sum hleft hop hright
    · exact .product hleft hop hright
  | unary op operand ih =>
    intro level d e w hs
    obtain ⟨⟨hop, -⟩, hx⟩ := h
    rw [tokens] at hs
    split at hs
    · next hnao =>
      obtain ⟨v, c, rfl, hd, -, hs⟩ := Spells.cons_iff.mp hs
      have hnegation := DerivesExpression.negation ((kind_of_located hd).trans hnao) (ih hx _ hs)
      rw [onLine, ← token_of_located hd]
      refine hnegation.loosen ?_
      cases level <;> decide
    · next hnao =>
      refine derives_wrapped (fun {d w e} hs => ?_) hs
      obtain ⟨v, c, rfl, hd, -, hs⟩ := Spells.cons_iff.mp hs
      rw [onLine, ← token_of_located hd]
      refine .signed ?_ (ih hx _ hs)
      rw [kind_of_located hd]
      simpa [hnao] using hop
  | number value =>
    intro level d e w hs
    obtain ⟨v, c, rfl, hd, -, hs⟩ := Spells.cons_iff.mp hs
    obtain ⟨rfl, -⟩ := Spells.nil_iff.mp hs
    have hnumber := DerivesExpression.number (kind_of_located hd)
    rw [token_of_located hd] at hnumber
    refine hnumber.loosen ?_
    cases level <;> decide
  | boolean => exact absurd h (by simp [WellFormed])
  | var ident =>
    intro level d e w hs
    obtain ⟨v, c, rfl, hd, -, hs⟩ := Spells.cons_iff.mp hs
    obtain ⟨rfl, -⟩ := Spells.nil_iff.mp hs
    have hvar := DerivesExpression.var (kind_of_located hd)
    rw [identifier_of_located h hd] at hvar
    refine hvar.loosen ?_
    cases level <;> decide

theorem Expression.WellFormedValue.derives {x : Expression} (h : x.WellFormedValue)
    {d e : Delivery} {w : List Delivery} (hs : Spells d w (x.tokens .relation) e) :
    DerivesValue w (x.onLine 1) := by
  cases x with
  | boolean value =>
    obtain ⟨v, c, rfl, hd, -, hs⟩ := Spells.cons_iff.mp hs
    obtain ⟨rfl, -⟩ := Spells.nil_iff.mp hs
    have hboolean := DerivesValue.boolean (kind_of_located hd)
    rw [token_of_located hd] at hboolean
    cases value <;> exact hboolean
  | _ => exact .expression (WellFormed.derives h _ hs)

/-! ## Commands -/

theorem derives_argumentTokens {names : List String} {d e : Delivery} {w : List Delivery}
    (hs : Spells d w (argumentTokens names) e) :
    DerivesArguments w names ∧ (d = e ∨ d.kind = .leftParen) := by
  match names with
  | [] =>
    obtain ⟨rfl, hd⟩ := Spells.nil_iff.mp hs
    exact ⟨.missing, .inl hd⟩
  | name :: names =>
    obtain ⟨b, v, c, rfl, ho, hc, hv⟩ := exists_of_enclosed hs
    have hnames : Separated .comma DerivesName v ((name :: names).map id) :=
      separated_of_joined (List.cons_ne_nil _ _) (fun name _ d e w hs => by
        obtain ⟨v, f, rfl, hd, -, hs⟩ := Spells.cons_iff.mp hs
        obtain ⟨rfl, -⟩ := Spells.nil_iff.mp hs
        have hname := DerivesName.intro (kind_of_located hd)
        rwa [token_of_located hd] at hname) hv
    rw [List.map_id] at hnames
    exact ⟨.names ho hnames hc, .inr ho⟩

namespace Statement

mutual

theorem WellFormed.derives (s : Statement) (h : s.WellFormed) {d e : Delivery}
    {w : List Delivery} (hs : Spells d w s.tokens e)
    (he : e.kind ∈ [TokenKind.semicolon, .fim, .senao]) :
    ∃ leaders, DerivesStatement w (s.onLine 1) leaders ∧ ∀ c ∈ leaders, c.Leads := by
  match s with
  | compound children =>
    rw [WellFormed] at h
    rw [tokens] at hs
    rw [onLine]
    obtain ⟨b, v, c, rfl, hd, hc, hv⟩ := exists_of_enclosed hs
    obtain ⟨leaders, hlist, hl⟩ := AllWellFormed.derives_listTokens children h.1 h.2 hv hc
    exact ⟨leaders, .compound (.intro hd hlist hc), hl⟩
  | assign target op value =>
    rw [WellFormed] at h
    obtain ⟨htarget, rfl, hvalue⟩ := h
    rw [tokens] at hs
    rw [onLine]
    obtain ⟨v, a, rfl, hd, hlink, hs⟩ := Spells.cons_iff.mp hs
    obtain ⟨v, f, rfl, ha, -, hs⟩ := Spells.cons_iff.mp hs
    have hassign := DerivesStatement.assignment (kind_of_located hd) (kind_of_located ha)
      (hvalue.derives hs)
    rw [identifier_of_located htarget hd, token_of_located ha] at hassign
    refine ⟨[d], hassign, ?_⟩
    rw [List.forall_mem_singleton]
    refine ⟨.assign, by decide, ?_⟩
    rw [nextKind?_eq hlink, kind_of_located ha]
    rfl
  | ifThen condition thenBranch =>
    rw [WellFormed] at h
    rw [tokens] at hs
    rw [onLine]
    obtain ⟨v, b, rfl, hd, -, hs⟩ := Spells.cons_iff.mp hs
    obtain ⟨u, v, c, rfl, hu, hv⟩ := Spells.append_iff.mp hs
    obtain ⟨v, f, rfl, hc, -, hv⟩ := Spells.cons_iff.mp hv
    obtain ⟨leaders, hthen, hl⟩ := WellFormed.derives thenBranch h.2 hv he
    exact ⟨leaders, .ifThen (kind_of_located hd) (h.1.derives _ hu) (kind_of_located hc) hthen,
      hl⟩
  | ifThenElse condition thenBranch elseBranch =>
    rw [WellFormed] at h
    obtain ⟨hcondition, hthen, -, helse⟩ := h
    rw [tokens] at hs
    rw [onLine]
    obtain ⟨v, b, rfl, hd, -, hs⟩ := Spells.cons_iff.mp hs
    obtain ⟨u, v, c, rfl, hu, hv⟩ := Spells.append_iff.mp hs
    obtain ⟨v, f, rfl, hc, -, hv⟩ := Spells.cons_iff.mp hv
    obtain ⟨y, x, g, rfl, hy, hx⟩ := Spells.append_iff.mp hv
    obtain ⟨x, k, rfl, hg, -, hx⟩ := Spells.cons_iff.mp hx
    have hsenao : g.kind ∈ [TokenKind.semicolon, .fim, .senao] := by
      rw [kind_of_located hg]
      decide
    obtain ⟨l, hthen, hl⟩ := WellFormed.derives thenBranch hthen hy hsenao
    obtain ⟨m, helse, hm⟩ := WellFormed.derives elseBranch helse hx he
    exact ⟨l ++ m, .ifThenElse (kind_of_located hd) (hcondition.derives _ hu)
      (kind_of_located hc) hthen (kind_of_located hg) helse, List.forall_mem_append.mpr ⟨hl, hm⟩⟩
  | loop condition body =>
    rw [WellFormed] at h
    rw [tokens] at hs
    rw [onLine]
    obtain ⟨v, b, rfl, hd, -, hs⟩ := Spells.cons_iff.mp hs
    obtain ⟨u, v, c, rfl, hu, hv⟩ := Spells.append_iff.mp hs
    obtain ⟨v, f, rfl, hc, -, hv⟩ := Spells.cons_iff.mp hv
    obtain ⟨leaders, hbody, hl⟩ := WellFormed.derives body h.2 hv he
    exact ⟨leaders, .loop (kind_of_located hd) (h.1.derives _ hu) (kind_of_located hc) hbody,
      hl⟩
  | call procedureCall =>
    rw [tokens] at hs
    rw [onLine]
    obtain ⟨v, b, rfl, hd, hlink, hs⟩ := Spells.cons_iff.mp hs
    obtain ⟨hargs, hb⟩ := derives_argumentTokens hs
    have hcall := DerivesStatement.call (kind_of_located hd) hargs
    rw [token_of_located hd, line_of_located hd] at hcall
    refine ⟨[d], hcall, ?_⟩
    rw [List.forall_mem_singleton]
    refine ⟨b.kind, ?_, nextKind?_eq hlink⟩
    rcases hb with rfl | hb
    · exact List.mem_append_right [TokenKind.assign, .leftParen] he
    · rw [hb]
      decide
  | empty =>
    obtain ⟨rfl, -⟩ := Spells.nil_iff.mp hs
    exact ⟨[], .empty, by simp⟩

theorem AllWellFormed.derives_listTokens (ss : List Statement) (hne : ss ≠ [])
    (h : AllWellFormed ss) {d e : Delivery} {w : List Delivery} (hs : Spells d w (listTokens ss) e)
    (he : e.kind = .fim) :
    ∃ leaders, DerivesStatements w (allOnLine 1 ss) leaders ∧ ∀ c ∈ leaders, c.Leads := by
  match ss with
  | [] => exact absurd rfl hne
  | s :: ss =>
    rw [listTokens] at hs
    rw [allOnLine]
    obtain ⟨u, v, c, rfl, hu, hv⟩ := Spells.append_iff.mp hs
    obtain ⟨hc, hrest⟩ := AllWellFormed.derives_restTokens ss h.2 hv he
    obtain ⟨l, hfirst, hl⟩ := WellFormed.derives s h.1 hu hc
    rcases hrest with ⟨rfl, rfl⟩ | ⟨v, m, rfl, hsemicolon, hrest, hm⟩
    · rw [List.append_nil]
      exact ⟨l, .one hfirst, hl⟩
    · exact ⟨l ++ m, .more hfirst hsemicolon hrest, List.forall_mem_append.mpr ⟨hl, hm⟩⟩

/-- Behind a command comes the end of the list, or a semicolon and more commands. -/
theorem AllWellFormed.derives_restTokens (ss : List Statement) (h : AllWellFormed ss)
    {d e : Delivery} {w : List Delivery} (hs : Spells d w (restTokens ss) e)
    (he : e.kind = .fim) :
    d.kind ∈ [TokenKind.semicolon, .fim, .senao] ∧
      ((ss = [] ∧ w = []) ∨ ∃ v leaders, w = d :: v ∧ d.kind = .semicolon ∧
        DerivesStatements v (allOnLine 1 ss) leaders ∧ ∀ c ∈ leaders, c.Leads) := by
  match ss with
  | [] =>
    obtain ⟨rfl, rfl⟩ := Spells.nil_iff.mp hs
    exact ⟨by rw [he]; decide, .inl ⟨rfl, rfl⟩⟩
  | s :: ss =>
    rw [restTokens] at hs
    rw [allOnLine]
    obtain ⟨v, b, rfl, hd, -, hs⟩ := Spells.cons_iff.mp hs
    obtain ⟨u, v, c, rfl, hu, hv⟩ := Spells.append_iff.mp hs
    obtain ⟨hc, hrest⟩ := AllWellFormed.derives_restTokens ss h.2 hv he
    obtain ⟨l, hfirst, hl⟩ := WellFormed.derives s h.1 hu hc
    have hkind := kind_of_located hd
    refine ⟨by rw [hkind]; decide, .inr ?_⟩
    rcases hrest with ⟨rfl, rfl⟩ | ⟨v, m, rfl, hsemicolon, hrest, hm⟩
    · rw [List.append_nil]
      exact ⟨u, l, rfl, hkind, .one hfirst, hl⟩
    · exact ⟨_, l ++ m, rfl, hkind, .more hfirst hsemicolon hrest,
        List.forall_mem_append.mpr ⟨hl, hm⟩⟩

end

theorem AllWellFormed.derives_body {body : List Statement} (hne : body ≠ [])
    (h : AllWellFormed body) {d e : Delivery} {w : List Delivery}
    (hs : Spells d w (compound body).tokens e) :
    ∃ leaders, DerivesCompound w (allOnLine 1 body) leaders ∧ ∀ c ∈ leaders, c.Leads := by
  rw [tokens] at hs
  obtain ⟨b, v, c, rfl, hd, hc, hv⟩ := exists_of_enclosed hs
  obtain ⟨leaders, hlist, hl⟩ := derives_listTokens body hne h hv hc
  exact ⟨leaders, .intro hd hlist hc, hl⟩

end Statement

/-! ## Declarations -/

theorem derives_type {type : TypeName} (h : type.token.IsSpelled [.inteiro, .logico])
    {d : Delivery} (hd : d.located = ⟨type.token, 1⟩) : DerivesType [d] type := by
  have htype := DerivesType.intro (d := d) (by rw [kind_of_located hd]; exact h.1)
  rwa [token_of_located hd] at htype

theorem TypedIdentifier.WellFormed.derives {param : TypedIdentifier} (h : param.WellFormed)
    {d e : Delivery} {w : List Delivery} (hs : Spells d w param.tokens e) :
    DerivesParameterGroup w [param.onLine 1] := by
  obtain ⟨v, b, rfl, hd, -, hs⟩ := Spells.cons_iff.mp hs
  obtain ⟨v, c, rfl, hb, -, hs⟩ := Spells.cons_iff.mp hs
  obtain ⟨v, f, rfl, hc, -, hs⟩ := Spells.cons_iff.mp hs
  obtain ⟨rfl, -⟩ := Spells.nil_iff.mp hs
  have hident := DerivesIdentifier.intro (kind_of_located hd)
  rw [identifier_of_located h.ident hd] at hident
  exact .intro .missing (.one hident) (kind_of_located hb) (derives_type h.type hc)

theorem derives_parameterTokens {params : List TypedIdentifier}
    (h : ∀ param ∈ params, param.WellFormed) {d e : Delivery} {w : List Delivery}
    (hs : Spells d w (parameterTokens params) e) :
    DerivesParameters w (params.map (TypedIdentifier.onLine 1)) := by
  match params with
  | [] =>
    obtain ⟨rfl, -⟩ := Spells.nil_iff.mp hs
    exact .missing
  | param :: params =>
    obtain ⟨b, v, c, rfl, ho, hc, hv⟩ := exists_of_enclosed hs
    have hgroups : Separated .semicolon DerivesParameterGroup v
        ((param :: params).map fun param => [param.onLine 1]) :=
      separated_of_joined (List.cons_ne_nil _ _) (fun param hparam => (h param hparam).derives) hv
    have hparams := DerivesParameters.groups ho hgroups hc
    rwa [← List.flatMap_def, ← List.map_eq_flatMap] at hparams

theorem TypedIdentifier.WellFormed.derives_variables {entry : TypedIdentifier}
    (h : entry.WellFormed) {d e : Delivery} {w : List Delivery}
    (hs : Spells d w (Declaration.var entry).tokens e) :
    DerivesVariables w [.var (entry.onLine 1)] := by
  obtain ⟨v, b, rfl, hd, -, hs⟩ := Spells.cons_iff.mp hs
  obtain ⟨v, c, rfl, hb, -, hs⟩ := Spells.cons_iff.mp hs
  obtain ⟨v, f, rfl, hc, -, hs⟩ := Spells.cons_iff.mp hs
  obtain ⟨rfl, -⟩ := Spells.nil_iff.mp hs
  have hident := DerivesDeclarator.plain (kind_of_located hb)
  rw [identifier_of_located h.ident hb] at hident
  exact .intro .missing (derives_type h.type hd) (.one hident) (kind_of_located hc)

namespace Declaration

mutual

/-- A procedure is derived; what is said of variables does not matter here. -/
theorem WellFormed.derives (d : Declaration) (h : d.WellFormed) (hd : d.isVariable = false)
    {b e : Delivery} {w : List Delivery} (hs : Spells b w d.tokens e) :
    ∃ leaders, DerivesProcedure w (d.onLine 1) leaders ∧ ∀ c ∈ leaders, c.Leads := by
  match d with
  | var entry => cases hd
  | procedure heading declarations body =>
    rw [WellFormed] at h
    obtain ⟨⟨-, hparams⟩, ⟨hfirst, hds⟩, hne, hbody⟩ := h
    rw [tokens] at hs
    rw [onLine]
    obtain ⟨v, n, rfl, hp, -, hs⟩ := Spells.cons_iff.mp hs
    obtain ⟨v, c, rfl, hn, -, hs⟩ := Spells.cons_iff.mp hs
    obtain ⟨v, u, s, rfl, hv, hs⟩ := Spells.append_iff.mp hs
    obtain ⟨u, f, rfl, hsemicolon, -, hs⟩ := Spells.cons_iff.mp hs
    obtain ⟨u, x, t, rfl, hu, hx⟩ := Spells.append_iff.mp hs
    obtain ⟨x, g, rfl, ht, -, hx⟩ := Spells.cons_iff.mp hx
    obtain ⟨rfl, -⟩ := Spells.nil_iff.mp hx
    obtain ⟨y, z, k, rfl, hy, hz⟩ := Spells.append_iff.mp hu
    obtain ⟨y, y', groups, procedures, l, rfl, hgroups, hprocs, heq, hl, -⟩ :=
      AllWellFormed.derives declarations hds hfirst hy
    obtain ⟨m, hbody, hm⟩ := hbody.derives_body hne hz
    have hblock := DerivesBlock.intro hgroups hprocs hbody
    rw [heq, ← List.append_assoc] at hblock
    have hprocedure := DerivesProcedure.intro (kind_of_located hp) (kind_of_located hn)
      (derives_parameterTokens hparams hv) (kind_of_located hsemicolon) hblock
      (kind_of_located ht)
    rw [token_of_located hn, line_of_located hp] at hprocedure
    exact ⟨l ++ m, hprocedure, List.forall_mem_append.mpr ⟨hl, hm⟩⟩

theorem AllWellFormed.derives (ds : List Declaration) (h : AllWellFormed ds)
    (hfirst : VariablesFirst ds) {b e : Delivery} {w : List Delivery}
    (hs : Spells b w (allTokens ds) e) :
    ∃ u v groups procedures leaders, w = u ++ v ∧ Repeated DerivesVariables u groups ∧
      DerivesProcedures v procedures leaders ∧
      groups.flatten ++ procedures = allOnLine 1 ds ∧ (∀ c ∈ leaders, c.Leads) ∧
      ((∀ d ∈ ds, d.isVariable = false) → u = [] ∧ groups = []) := by
  match ds with
  | [] =>
    obtain ⟨rfl, -⟩ := Spells.nil_iff.mp hs
    exact ⟨[], [], [], [], [], rfl, .nil, .nil, rfl, by simp, fun _ => ⟨rfl, rfl⟩⟩
  | d :: ds =>
    rw [allTokens] at hs
    obtain ⟨u, v, c, rfl, hu, hv⟩ := Spells.append_iff.mp hs
    obtain ⟨hbefore, hfirst⟩ := List.pairwise_cons.mp hfirst
    obtain ⟨x, y, groups, procedures, l, rfl, hx, hy, heq, hl, hnone⟩ :=
      AllWellFormed.derives ds h.2 hfirst hv
    match d with
    | var entry =>
      have hentry : entry.WellFormed := by
        have hwf := h.1
        rwa [WellFormed] at hwf
      refine ⟨u ++ x, y, [.var (entry.onLine 1)] :: groups, procedures, l,
        (List.append_assoc _ _ _).symm, .cons (hentry.derives_variables hu) hx, hy, ?_, hl, ?_⟩
      · rw [List.flatten_cons, List.append_assoc, heq, allOnLine, onLine]
        rfl
      · intro hall
        cases hall _ List.mem_cons_self
    | procedure heading declarations body =>
      -- a procedure is followed by procedures alone
      have hprocs : ∀ d' ∈ ds, d'.isVariable = false := by
        intro d' hd'
        by_contra hvar
        cases hbefore d' hd' (eq_true_of_ne_false hvar)
      obtain ⟨rfl, rfl⟩ := hnone hprocs
      obtain ⟨m, hprocedure, hm⟩ :=
        WellFormed.derives (procedure heading declarations body) h.1 rfl hu
      refine ⟨[], u ++ y, [], _ :: procedures, m ++ l, rfl, .nil,
        .cons hprocedure hy, ?_, List.forall_mem_append.mpr ⟨hm, hl⟩, fun _ => ⟨rfl, rfl⟩⟩
      rw [allOnLine, ← heq]
      rfl

end

end Declaration

/-- **A rendered program is derived.** -/
theorem Program.WellFormed.derives {program : Program} (h : program.WellFormed) {d e : Delivery}
    {w : List Delivery} (hs : Spells d w program.tokens e) :
    ∃ leaders, DerivesProgram w (program.onLine 1) leaders ∧ ∀ c ∈ leaders, c.Leads := by
  obtain ⟨-, ⟨hfirst, hds⟩, hne, hbody⟩ := h
  obtain ⟨v, n, rfl, hp, -, hs⟩ := Spells.cons_iff.mp hs
  obtain ⟨v, c, rfl, hn, -, hs⟩ := Spells.cons_iff.mp hs
  obtain ⟨v, f, rfl, hsemicolon, -, hs⟩ := Spells.cons_iff.mp hs
  obtain ⟨u, x, t, rfl, hu, hx⟩ := Spells.append_iff.mp hs
  obtain ⟨x, g, rfl, ht, -, hx⟩ := Spells.cons_iff.mp hx
  obtain ⟨rfl, -⟩ := Spells.nil_iff.mp hx
  obtain ⟨y, z, k, rfl, hy, hz⟩ := Spells.append_iff.mp hu
  obtain ⟨y, y', groups, procedures, l, rfl, hgroups, hprocs, heq, hl, -⟩ :=
    hds.derives _ hfirst hy
  obtain ⟨m, hbody, hm⟩ := hbody.derives_body hne hz
  have hblock := DerivesBlock.intro hgroups hprocs hbody
  rw [heq, ← List.append_assoc] at hblock
  have hprogram := DerivesProgram.intro (kind_of_located hp) (kind_of_located hn)
    (kind_of_located hsemicolon) hblock (kind_of_located ht)
  rw [token_of_located hn] at hprogram
  exact ⟨l ++ m, hprogram, List.forall_mem_append.mpr ⟨hl, hm⟩⟩

end LusoPascal
