import LusoPascal.Proofs.Token.Delivery

/-!
# Derivations

The grammar as relations between deliveries and trees. A rule looks at the kinds of the tokens
alone; their texts, values and lines go into the tree. The grammar is ambiguous in one place: an
alternative may belong to any conditional before it that has none.

* `Level`, `DerivesExpression`: expressions, whose operators of one level nest to the left;
* `Separated`, `Repeated`: lists with a separator and without;
* `DerivesStatement`, `DerivesCompound`, `DerivesStatements`: commands. They also list the
  deliveries that begin a command with an identifier, the **leaders**;
* `DerivesBlock`, `DerivesProcedure`, `DerivesProgram`: declarations and what holds them;
* `throughDot`: the start of a list of deliveries up to the first full stop;
* **`DerivesProgram.throughDot_append`**: that start is a program if the list begins with one;
* `DerivesProgram.of_leader`: the leaders are identifiers of the program.
-/

namespace LusoPascal

/-- The number that a token carries. -/
def Token.value (token : Token) : Int :=
  match token.lexeme with
  | .integer value => value
  | _ => 0

/-! ## Expressions -/

/-- The levels of an expression, from the loosest to the tightest. -/
inductive Level where
  | relation | simple | term | factor
deriving DecidableEq

/-- `DerivesExpression level w e`: the deliveries in `w` are an expression of a level, and `e` is
its tree. -/
inductive DerivesExpression : Level → List Delivery → Expression → Prop
  | number {d : Delivery} (hd : d.kind = .integerLiteral) :
      DerivesExpression .factor [d] (.number d.token.value)
  | var {d : Delivery} (hd : d.kind = .identifier) :
      DerivesExpression .factor [d] (.var d.identifier)
  | parens {o c : Delivery} {w : List Delivery} {e : Expression} (ho : o.kind = .leftParen)
      (hw : DerivesExpression .relation w e) (hc : c.kind = .rightParen) :
      DerivesExpression .factor (o :: (w ++ [c])) e
  | negation {n : Delivery} {w : List Delivery} {e : Expression} (hn : n.kind = .nao)
      (hw : DerivesExpression .factor w e) :
      DerivesExpression .factor (n :: w) (.unary n.token e)
  | ofFactor {w : List Delivery} {e : Expression} (hw : DerivesExpression .factor w e) :
      DerivesExpression .term w e
  | product {v w : List Delivery} {op : Delivery} {l r : Expression}
      (hv : DerivesExpression .term v l) (hop : op.kind ∈ [.times, .div, .e])
      (hw : DerivesExpression .factor w r) :
      DerivesExpression .term (v ++ op :: w) (.binary l op.token r)
  | ofTerm {w : List Delivery} {e : Expression} (hw : DerivesExpression .term w e) :
      DerivesExpression .simple w e
  | signed {s : Delivery} {w : List Delivery} {e : Expression} (hs : s.kind ∈ [.plus, .minus])
      (hw : DerivesExpression .term w e) :
      DerivesExpression .simple (s :: w) (.unary s.token e)
  | sum {v w : List Delivery} {op : Delivery} {l r : Expression}
      (hv : DerivesExpression .simple v l) (hop : op.kind ∈ [.plus, .minus, .ou])
      (hw : DerivesExpression .term w r) :
      DerivesExpression .simple (v ++ op :: w) (.binary l op.token r)
  | ofSimple {w : List Delivery} {e : Expression} (hw : DerivesExpression .simple w e) :
      DerivesExpression .relation w e
  | comparison {v w : List Delivery} {op : Delivery} {l r : Expression}
      (hv : DerivesExpression .simple v l)
      (hop : op.kind ∈ [.equal, .notEqual, .greater, .greaterEqual, .less, .lessEqual])
      (hw : DerivesExpression .simple w r) :
      DerivesExpression .relation (v ++ op :: w) (.binary l op.token r)

theorem DerivesExpression.length_pos {level : Level} {w : List Delivery} {x : Expression}
    (h : DerivesExpression level w x) : 0 < w.length := by
  induction h <;> grind

/-- The kinds of tokens that can begin an expression of a level. -/
def Level.firsts : Level → List TokenKind
  | relation | simple => [.plus, .minus, .integerLiteral, .identifier, .leftParen, .nao]
  | term | factor => [.integerLiteral, .identifier, .leftParen, .nao]

theorem DerivesExpression.head {level : Level} {w : List Delivery} {x : Expression}
    (h : DerivesExpression level w x) : ∃ c v, w = c :: v ∧ c.kind ∈ level.firsts := by
  induction h with
  | number hd | var hd => exact ⟨_, _, rfl, by simp [hd, Level.firsts]⟩
  | parens ho | negation ho => exact ⟨_, _, rfl, by simp [ho, Level.firsts]⟩
  | signed hs => exact ⟨_, _, rfl, List.mem_append_left _ hs⟩
  | ofFactor _ ih | ofSimple _ ih => exact ih
  | ofTerm _ ih =>
    obtain ⟨c, v, rfl, hc⟩ := ih
    exact ⟨c, v, rfl, List.mem_cons_of_mem _ (List.mem_cons_of_mem _ hc)⟩
  | product _ _ _ ih | sum _ _ _ ih | comparison _ _ _ ih =>
    obtain ⟨c, v, rfl, hc⟩ := ih
    exact ⟨c, _, rfl, hc⟩

/-! ## Lists -/

section Lists

variable {α : Type}

/-- One item or more, with a token of one kind between each two. -/
inductive Separated (separator : TokenKind) (Item : List Delivery → α → Prop) :
    List Delivery → List α → Prop
  | one {w : List Delivery} {a : α} (hw : Item w a) : Separated separator Item w [a]
  | more {v w : List Delivery} {s : Delivery} {a : α} {as : List α} (hv : Item v a)
      (hs : s.kind = separator) (hw : Separated separator Item w as) :
      Separated separator Item (v ++ s :: w) (a :: as)

/-- Items one after the other, of which there may be none. -/
inductive Repeated (Item : List Delivery → α → Prop) : List Delivery → List α → Prop
  | nil : Repeated Item [] []
  | cons {v w : List Delivery} {a : α} {as : List α} (hv : Item v a)
      (hw : Repeated Item w as) : Repeated Item (v ++ w) (a :: as)

end Lists

theorem Separated.head {α : Type} {separator : TokenKind} {Item : List Delivery → α → Prop}
    {P : Delivery → Prop} {w : List Delivery} {as : List α} (h : Separated separator Item w as)
    (hitem : ∀ {v : List Delivery} {a : α}, Item v a → ∃ c u, v = c :: u ∧ P c) :
    ∃ c u, w = c :: u ∧ P c := by
  cases h with
  | one hw => exact hitem hw
  | more hv _ _ =>
    obtain ⟨c, u, rfl, hc⟩ := hitem hv
    exact ⟨c, _, rfl, hc⟩

theorem Separated.exists_infix {α : Type} {separator : TokenKind} {Item : List Delivery → α → Prop}
    {w : List Delivery} {as : List α} (h : Separated separator Item w as) :
    ∀ a ∈ as, ∃ v, v <:+: w ∧ Item v a := by
  induction h with
  | one hw => exact fun a ha => ⟨_, List.infix_rfl, List.mem_singleton.mp ha ▸ hw⟩
  | @more v w s a as hv hs _ ih =>
    refine List.forall_mem_cons.mpr ⟨⟨v, ⟨[], s :: w, rfl⟩, hv⟩, fun a ha => ?_⟩
    obtain ⟨u, hu, hitem⟩ := ih a ha
    exact ⟨u, hu.trans ⟨v ++ [s], [], by simp⟩, hitem⟩

theorem Repeated.exists_infix {α : Type} {Item : List Delivery → α → Prop} {w : List Delivery}
    {as : List α} (h : Repeated Item w as) : ∀ a ∈ as, ∃ v, v <:+: w ∧ Item v a := by
  induction h with
  | nil => simp
  | @cons v w a as hv _ ih =>
    refine List.forall_mem_cons.mpr ⟨⟨v, ⟨[], w, rfl⟩, hv⟩, fun a ha => ?_⟩
    obtain ⟨u, hu, hitem⟩ := ih a ha
    exact ⟨u, hu.trans ⟨v, [], by simp⟩, hitem⟩

/-- An identifier with its place. -/
inductive DerivesIdentifier : List Delivery → Identifier → Prop
  | intro {d : Delivery} (hd : d.kind = .identifier) : DerivesIdentifier [d] d.identifier

/-- An identifier of which only the name is kept. -/
inductive DerivesName : List Delivery → String → Prop
  | intro {d : Delivery} (hd : d.kind = .identifier) : DerivesName [d] d.token.text

/-! ## Commands -/

/-- A truth value by itself, or an expression. -/
inductive DerivesValue : List Delivery → Expression → Prop
  | boolean {d : Delivery} (hd : d.kind = .booleanLiteral) :
      DerivesValue [d] (.boolean (d.token.lexeme == .boolean true))
  | expression {w : List Delivery} {e : Expression} (hw : DerivesExpression .relation w e) :
      DerivesValue w e

/-- The names between the parentheses of a call; the parentheses may be missing. -/
inductive DerivesArguments : List Delivery → List String → Prop
  | missing : DerivesArguments [] []
  | empty {o c : Delivery} (ho : o.kind = .leftParen) (hc : c.kind = .rightParen) :
      DerivesArguments [o, c] []
  | names {o c : Delivery} {w : List Delivery} {names : List String} (ho : o.kind = .leftParen)
      (hw : Separated .comma DerivesName w names) (hc : c.kind = .rightParen) :
      DerivesArguments (o :: (w ++ [c])) names

mutual

/-- `DerivesStatement w s leaders`: the deliveries in `w` are a command, `s` is its tree, and
`leaders` are the identifiers that begin a command. -/
inductive DerivesStatement : List Delivery → Statement → List Delivery → Prop
  | empty : DerivesStatement [] .empty []
  | assignment {d a : Delivery} {w : List Delivery} {e : Expression} (hd : d.kind = .identifier)
      (ha : a.kind = .assign) (hw : DerivesValue w e) :
      DerivesStatement (d :: a :: w) (.assign d.identifier a.token e) [d]
  | call {d : Delivery} {w : List Delivery} {args : List String} (hd : d.kind = .identifier)
      (hw : DerivesArguments w args) :
      DerivesStatement (d :: w) (.call ⟨d.token.text, args, d.line⟩) [d]
  | compound {w : List Delivery} {children : List Statement} {leaders : List Delivery}
      (hw : DerivesCompound w children leaders) :
      DerivesStatement w (.compound children) leaders
  | ifThen {i t : Delivery} {v w leaders : List Delivery} {c : Expression} {s : Statement}
      (hi : i.kind = .se) (hv : DerivesExpression .relation v c) (ht : t.kind = .entao)
      (hw : DerivesStatement w s leaders) :
      DerivesStatement (i :: (v ++ t :: w)) (.ifThen c s) leaders
  | ifThenElse {i t e : Delivery} {v w x l m : List Delivery} {c : Expression}
      {s s' : Statement} (hi : i.kind = .se) (hv : DerivesExpression .relation v c)
      (ht : t.kind = .entao) (hw : DerivesStatement w s l) (he : e.kind = .senao)
      (hx : DerivesStatement x s' m) :
      DerivesStatement (i :: (v ++ t :: (w ++ e :: x))) (.ifThenElse c s s') (l ++ m)
  | loop {i f : Delivery} {v w leaders : List Delivery} {c : Expression} {s : Statement}
      (hi : i.kind = .enquanto) (hv : DerivesExpression .relation v c) (hf : f.kind = .faca)
      (hw : DerivesStatement w s leaders) :
      DerivesStatement (i :: (v ++ f :: w)) (.loop c s) leaders

/-- Commands between `inicio` and `fim`. -/
inductive DerivesCompound : List Delivery → List Statement → List Delivery → Prop
  | intro {b f : Delivery} {w leaders : List Delivery} {children : List Statement}
      (hb : b.kind = .inicio) (hw : DerivesStatements w children leaders) (hf : f.kind = .fim) :
      DerivesCompound (b :: (w ++ [f])) children leaders

/-- One command or more, with semicolons between them. -/
inductive DerivesStatements : List Delivery → List Statement → List Delivery → Prop
  | one {w leaders : List Delivery} {s : Statement} (hw : DerivesStatement w s leaders) :
      DerivesStatements w [s] leaders
  | more {p : Delivery} {v w l m : List Delivery} {s : Statement} {ss : List Statement}
      (hv : DerivesStatement v s l) (hp : p.kind = .semicolon) (hw : DerivesStatements w ss m) :
      DerivesStatements (v ++ p :: w) (s :: ss) (l ++ m)

end

/-! ## Declarations -/

/-- The word `var`, where it may stand or be missing. -/
inductive DerivesMarker : List Delivery → Prop
  | missing : DerivesMarker []
  | present {d : Delivery} (hd : d.kind = .var) : DerivesMarker [d]

/-- The name of a type. -/
inductive DerivesType : List Delivery → TypeName → Prop
  | intro {d : Delivery} (hd : d.kind ∈ [.inteiro, .logico]) : DerivesType [d] ⟨d.token⟩

/-- A declared name. The value that may be assigned to it leaves nothing in the tree. -/
inductive DerivesDeclarator : List Delivery → Identifier → Prop
  | plain {d : Delivery} (hd : d.kind = .identifier) : DerivesDeclarator [d] d.identifier
  | assigned {d a : Delivery} {w : List Delivery} {e : Expression} (hd : d.kind = .identifier)
      (ha : a.kind = .assign) (hw : DerivesExpression .relation w e) :
      DerivesDeclarator (d :: a :: w) d.identifier

/-- Variables of one type; each has a declaration of its own in the tree. -/
inductive DerivesVariables : List Delivery → List Declaration → Prop
  | intro {m t w : List Delivery} {p : Delivery} {type : TypeName} {idents : List Identifier}
      (hm : DerivesMarker m) (ht : DerivesType t type)
      (hw : Separated .comma DerivesDeclarator w idents) (hp : p.kind = .semicolon) :
      DerivesVariables (m ++ (t ++ (w ++ [p]))) (idents.map fun ident => .var ⟨ident, type⟩)

/-- Parameters of one type. -/
inductive DerivesParameterGroup : List Delivery → List TypedIdentifier → Prop
  | intro {m w t : List Delivery} {c : Delivery} {type : TypeName} {idents : List Identifier}
      (hm : DerivesMarker m) (hw : Separated .comma DerivesIdentifier w idents)
      (hc : c.kind = .colon) (ht : DerivesType t type) :
      DerivesParameterGroup (m ++ (w ++ c :: t)) (idents.map fun ident => ⟨ident, type⟩)

/-- The groups of parameters between parentheses; the parentheses may be missing. -/
inductive DerivesParameters : List Delivery → List TypedIdentifier → Prop
  | missing : DerivesParameters [] []
  | groups {o c : Delivery} {w : List Delivery} {groups : List (List TypedIdentifier)}
      (ho : o.kind = .leftParen) (hw : Separated .semicolon DerivesParameterGroup w groups)
      (hc : c.kind = .rightParen) :
      DerivesParameters (o :: (w ++ [c])) groups.flatten

mutual

/-- Variables, procedures and commands, in this order. -/
inductive DerivesBlock : List Delivery → Block → List Delivery → Prop
  | intro {u v w l m : List Delivery} {groups : List (List Declaration)}
      {procedures : List Declaration} {body : List Statement}
      (hu : Repeated DerivesVariables u groups) (hv : DerivesProcedures v procedures l)
      (hw : DerivesCompound w body m) :
      DerivesBlock (u ++ (v ++ w)) ⟨groups.flatten ++ procedures, body⟩ (l ++ m)

/-- A heading and a block, each closed by a semicolon. The line is that of the first word. -/
inductive DerivesProcedure : List Delivery → Declaration → List Delivery → Prop
  | intro {p n s t : Delivery} {v w leaders : List Delivery} {params : List TypedIdentifier}
      {block : Block} (hp : p.kind = .procedimento) (hn : n.kind = .identifier)
      (hv : DerivesParameters v params) (hs : s.kind = .semicolon)
      (hw : DerivesBlock w block leaders) (ht : t.kind = .semicolon) :
      DerivesProcedure (p :: n :: (v ++ s :: (w ++ [t])))
        (.procedure ⟨n.token.text, params, p.line⟩ block.declarations block.body) leaders

/-- Procedures one after the other. -/
inductive DerivesProcedures : List Delivery → List Declaration → List Delivery → Prop
  | nil : DerivesProcedures [] [] []
  | cons {v w l m : List Delivery} {procedure : Declaration} {procedures : List Declaration}
      (hv : DerivesProcedure v procedure l) (hw : DerivesProcedures w procedures m) :
      DerivesProcedures (v ++ w) (procedure :: procedures) (l ++ m)

end

/-- A named block, closed by a full stop. -/
inductive DerivesProgram : List Delivery → Program → List Delivery → Prop
  | intro {p n s t : Delivery} {w leaders : List Delivery} {block : Block}
      (hp : p.kind = .program) (hn : n.kind = .identifier) (hs : s.kind = .semicolon)
      (hw : DerivesBlock w block leaders) (ht : t.kind = .dot) :
      DerivesProgram (p :: n :: s :: (w ++ [t])) ⟨n.token.text, block⟩ leaders

/-! ## The full stop -/

/-- The deliveries up to the first full stop, and that full stop. -/
def throughDot : List Delivery → List Delivery
  | [] => []
  | d :: w => if d.kind = .dot then [d] else d :: throughDot w

theorem throughDot_prefix (w : List Delivery) : throughDot w <+: w := by
  induction w with
  | nil => exact List.prefix_refl _
  | cons d w ih =>
    rw [throughDot]
    split
    · exact List.cons_prefix_cons.mpr ⟨rfl, List.nil_prefix⟩
    · exact List.cons_prefix_cons.mpr ⟨rfl, ih⟩

theorem throughDot_append_dot {w : List Delivery} {t : Delivery} (hw : ∀ d ∈ w, d.kind ≠ .dot)
    (ht : t.kind = .dot) (rest : List Delivery) : throughDot (w ++ t :: rest) = w ++ [t] := by
  induction w with
  | nil => exact if_pos ht
  | cons d w ih =>
    rw [List.cons_append, throughDot, if_neg (hw d List.mem_cons_self),
      ih fun c hc => hw c (List.mem_cons_of_mem _ hc), List.cons_append]

namespace Delivery

/-- A token that stands inside a program: no full stop, and not the end of the text. -/
def IsInner (d : Delivery) : Prop := d.kind ≠ .dot ∧ d.kind ≠ .endOfInput

end Delivery

section Inner

variable {w : List Delivery}

theorem DerivesExpression.inner {level : Level} {e : Expression}
    (h : DerivesExpression level w e) : ∀ d ∈ w, d.IsInner := by
  induction h <;> grind [Delivery.IsInner]

theorem Separated.inner {α : Type} {separator : TokenKind} {Item : List Delivery → α → Prop}
    {as : List α} (h : Separated separator Item w as)
    (hitem : ∀ {v : List Delivery} {a : α}, Item v a → ∀ d ∈ v, d.IsInner)
    (hs : separator ≠ .dot ∧ separator ≠ .endOfInput) : ∀ d ∈ w, d.IsInner := by
  induction h with
  | one hw => exact hitem hw
  | more hv hs' _ ih => grind [hitem hv, Delivery.IsInner]

theorem Repeated.inner {α : Type} {Item : List Delivery → α → Prop} {as : List α}
    (h : Repeated Item w as)
    (hitem : ∀ {v : List Delivery} {a : α}, Item v a → ∀ d ∈ v, d.IsInner) :
    ∀ d ∈ w, d.IsInner := by
  induction h with
  | nil => simp
  | cons hv _ ih => grind [hitem hv]

theorem DerivesValue.inner {e : Expression} (h : DerivesValue w e) : ∀ d ∈ w, d.IsInner := by
  cases h with
  | boolean => grind [Delivery.IsInner]
  | expression hw => exact hw.inner

theorem DerivesArguments.inner {args : List String} (h : DerivesArguments w args) :
    ∀ d ∈ w, d.IsInner := by
  cases h with
  | missing => simp
  | empty => grind [Delivery.IsInner]
  | names ho hw hc =>
    have hnames := hw.inner (fun h => by cases h; grind [Delivery.IsInner]) (by decide)
    grind [Delivery.IsInner]

mutual

theorem DerivesStatement.inner {w l : List Delivery} {s : Statement}
    (h : DerivesStatement w s l) : ∀ d ∈ w, d.IsInner := by
  match h with
  | .empty => simp
  | .assignment hd ha hw => have := hw.inner; grind [Delivery.IsInner]
  | .call hd hw => have := hw.inner; grind [Delivery.IsInner]
  | .compound hw => exact hw.inner
  | .ifThen hi hv ht hw =>
    have := hv.inner
    have := hw.inner
    grind [Delivery.IsInner]
  | .ifThenElse hi hv ht hw he hx =>
    have := hv.inner
    have := hw.inner
    have := hx.inner
    grind [Delivery.IsInner]
  | .loop hi hv hf hw =>
    have := hv.inner
    have := hw.inner
    grind [Delivery.IsInner]

theorem DerivesCompound.inner {w l : List Delivery} {ss : List Statement}
    (h : DerivesCompound w ss l) : ∀ d ∈ w, d.IsInner := by
  match h with
  | .intro hb hw hf => have := hw.inner; grind [Delivery.IsInner]

theorem DerivesStatements.inner {w l : List Delivery} {ss : List Statement}
    (h : DerivesStatements w ss l) : ∀ d ∈ w, d.IsInner := by
  match h with
  | .one hw => exact hw.inner
  | .more hv hp hw =>
    have := hv.inner
    have := hw.inner
    grind [Delivery.IsInner]

end

theorem DerivesMarker.inner (h : DerivesMarker w) : ∀ d ∈ w, d.IsInner := by
  cases h <;> grind [Delivery.IsInner]

theorem DerivesType.inner {type : TypeName} (h : DerivesType w type) : ∀ d ∈ w, d.IsInner := by
  cases h with
  | intro hd => grind [Delivery.IsInner]

theorem DerivesDeclarator.inner {ident : Identifier} (h : DerivesDeclarator w ident) :
    ∀ d ∈ w, d.IsInner := by
  cases h with
  | plain => grind [Delivery.IsInner]
  | assigned hd ha hw => have := hw.inner; grind [Delivery.IsInner]

theorem DerivesVariables.inner {declarations : List Declaration}
    (h : DerivesVariables w declarations) : ∀ d ∈ w, d.IsInner := by
  cases h with
  | intro hm ht hw hp =>
    have := hm.inner
    have := ht.inner
    have := hw.inner DerivesDeclarator.inner (by decide)
    grind [Delivery.IsInner]

theorem DerivesParameterGroup.inner {params : List TypedIdentifier}
    (h : DerivesParameterGroup w params) : ∀ d ∈ w, d.IsInner := by
  cases h with
  | intro hm hw hc ht =>
    have := hm.inner
    have := ht.inner
    have := hw.inner (fun h => by cases h; grind [Delivery.IsInner]) (by decide)
    grind [Delivery.IsInner]

theorem DerivesParameters.inner {params : List TypedIdentifier} (h : DerivesParameters w params) :
    ∀ d ∈ w, d.IsInner := by
  cases h with
  | missing => simp
  | groups ho hw hc =>
    have := hw.inner DerivesParameterGroup.inner (by decide)
    grind [Delivery.IsInner]

mutual

theorem DerivesBlock.inner {w l : List Delivery} {block : Block}
    (h : DerivesBlock w block l) : ∀ d ∈ w, d.IsInner := by
  match h with
  | .intro hu hv hw =>
    have := hu.inner DerivesVariables.inner
    have := hv.inner
    have := hw.inner
    grind

theorem DerivesProcedure.inner {w l : List Delivery} {procedure : Declaration}
    (h : DerivesProcedure w procedure l) : ∀ d ∈ w, d.IsInner := by
  match h with
  | .intro hp hn hv hs hw ht =>
    have := hv.inner
    have := hw.inner
    grind [Delivery.IsInner]

theorem DerivesProcedures.inner {w l : List Delivery} {procedures : List Declaration}
    (h : DerivesProcedures w procedures l) : ∀ d ∈ w, d.IsInner := by
  match h with
  | .nil => simp
  | .cons hv hw =>
    have := hv.inner
    have := hw.inner
    grind

end

end Inner

/-- **A program is cut off at its full stop.** -/
theorem DerivesProgram.throughDot_append {w l : List Delivery} {program : Program}
    (h : DerivesProgram w program l) (rest : List Delivery) : throughDot (w ++ rest) = w := by
  cases h with
  | @intro p n s t v _ _ hp hn hs hw ht =>
    have hinner : ∀ d ∈ p :: n :: s :: v, d.kind ≠ .dot := by
      have := hw.inner
      grind [Delivery.IsInner]
    have hcut := throughDot_append_dot hinner ht rest
    simpa using hcut

theorem DerivesProgram.ne_endOfInput {w l : List Delivery} {program : Program}
    (h : DerivesProgram w program l) : ∀ d ∈ w, d.kind ≠ .endOfInput := by
  cases h with
  | intro hp hn hs hw ht =>
    have := hw.inner
    grind [Delivery.IsInner]

/-! ## Leaders -/

section Leaders

mutual

theorem DerivesStatement.of_leader {w leaders : List Delivery} {s : Statement}
    (h : DerivesStatement w s leaders) : ∀ d ∈ leaders, d ∈ w ∧ d.kind = .identifier := by
  match h with
  | .empty => simp
  | .assignment hd ha hw => simpa using hd
  | .call hd hw => simpa using hd
  | .compound hw => exact hw.of_leader
  | .ifThen hi hv ht hw | .loop hi hv ht hw =>
    have := hw.of_leader
    grind
  | .ifThenElse hi hv ht hw he hx =>
    have := hw.of_leader
    have := hx.of_leader
    grind

theorem DerivesCompound.of_leader {w leaders : List Delivery} {ss : List Statement}
    (h : DerivesCompound w ss leaders) : ∀ d ∈ leaders, d ∈ w ∧ d.kind = .identifier := by
  match h with
  | .intro hb hw hf =>
    have := hw.of_leader
    grind

theorem DerivesStatements.of_leader {w leaders : List Delivery} {ss : List Statement}
    (h : DerivesStatements w ss leaders) : ∀ d ∈ leaders, d ∈ w ∧ d.kind = .identifier := by
  match h with
  | .one hw => exact hw.of_leader
  | .more hv hp hw =>
    have := hv.of_leader
    have := hw.of_leader
    grind

end

mutual

theorem DerivesBlock.of_leader {w leaders : List Delivery} {block : Block}
    (h : DerivesBlock w block leaders) : ∀ d ∈ leaders, d ∈ w ∧ d.kind = .identifier := by
  match h with
  | .intro hu hv hw =>
    have := hv.of_leader
    have := hw.of_leader
    grind

theorem DerivesProcedure.of_leader {w leaders : List Delivery} {procedure : Declaration}
    (h : DerivesProcedure w procedure leaders) :
    ∀ d ∈ leaders, d ∈ w ∧ d.kind = .identifier := by
  match h with
  | .intro hp hn hv hs hw ht =>
    have := hw.of_leader
    grind

theorem DerivesProcedures.of_leader {w leaders : List Delivery}
    {procedures : List Declaration} (h : DerivesProcedures w procedures leaders) :
    ∀ d ∈ leaders, d ∈ w ∧ d.kind = .identifier := by
  match h with
  | .nil => simp
  | .cons hv hw =>
    have := hv.of_leader
    have := hw.of_leader
    grind

end

theorem DerivesProgram.of_leader {w leaders : List Delivery} {program : Program}
    (h : DerivesProgram w program leaders) : ∀ d ∈ leaders, d ∈ w ∧ d.kind = .identifier := by
  cases h with
  | intro hp hn hs hw ht =>
    have := hw.of_leader
    grind

theorem DerivesProgram.leaders_subset {w leaders : List Delivery} {program : Program}
    (h : DerivesProgram w program leaders) : leaders ⊆ w := fun d hd => (h.of_leader d hd).1

end Leaders

end LusoPascal
