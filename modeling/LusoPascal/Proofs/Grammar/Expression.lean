import LusoPascal.Grammar.Expression
import LusoPascal.Proofs.Grammar.Reading

/-!
# Expressions are read as derived

* **`expression_sound`**: an expression that is read is derived, on any budget;
* `EndsExpression`: the kinds of tokens that can stand behind an expression;
* `ReadsLevel`: what the production of a level does with deliveries that the level derives. The
  operators of a level are read in a chain, and a derivation is a chain cut off somewhere;
* **`expression_complete`**: a derived expression is read, on a budget of its length.
-/

namespace LusoPascal

/-! ## The classes of operators -/

namespace TokenKind

variable {kind : TokenKind}

theorem isRelational_iff : kind.isRelational = true ↔
    kind ∈ [equal, notEqual, greater, greaterEqual, less, lessEqual] := by
  cases kind <;> decide

theorem isSign_iff : kind.isSign = true ↔ kind ∈ [plus, minus] := by
  cases kind <;> decide

theorem isAdditive_iff : kind.isAdditive = true ↔ kind ∈ [plus, minus, ou] := by
  cases kind <;> decide

theorem isMultiplicative_iff : kind.isMultiplicative = true ↔ kind ∈ [times, div, e] := by
  cases kind <;> decide

theorem isMultiplicative_of_additive (h : kind ∈ [plus, minus, ou]) :
    kind.isMultiplicative = false := by
  cases kind <;> first | rfl | simp at h

theorem isMultiplicative_of_relational
    (h : kind ∈ [equal, notEqual, greater, greaterEqual, less, lessEqual]) :
    kind.isMultiplicative = false := by
  cases kind <;> first | rfl | simp at h

theorem isAdditive_of_relational
    (h : kind ∈ [equal, notEqual, greater, greaterEqual, less, lessEqual]) :
    kind.isAdditive = false := by
  cases kind <;> first | rfl | simp at h

theorem isSign_of_first (h : kind ∈ Level.term.firsts) : kind.isSign = false := by
  cases kind <;> first | rfl | simp [Level.firsts] at h

end TokenKind

namespace Production

open Delivery

/-! ## Soundness -/

theorem identifier_sound : Sound identifier DerivesIdentifier := by
  intro d
  refine Ensures.line_bind (Ensures.expect_bind fun hd e _ => Ensures.pure ?_)
  exact .intro hd

section Levels

variable {factor : Production Expression} (hfactor : Sound factor (DerivesExpression .factor))

include hfactor

theorem term_sound (budget : Nat) : Sound (term factor budget) (DerivesExpression .term) := by
  intro d
  refine (hfactor d).bind fun u l e hu => ?_
  refine chain_sound hfactor (fun hv hop hw => ?_) budget (.ofFactor hu) e
  exact .product hv (TokenKind.isMultiplicative_iff.mp hop) hw

theorem simpleExpression_sound (budget : Nat) :
    Sound (simpleExpression factor budget) (DerivesExpression .simple) := by
  have hterm := term_sound hfactor budget
  have hchain : ∀ {v : List Delivery} {l : Expression}, DerivesExpression .simple v l →
      Sound (chain TokenKind.isAdditive .binary (term factor budget) budget l)
        fun w x => DerivesExpression .simple (v ++ w) x :=
    chain_sound hterm (fun hv hop hw => .sum hv (TokenKind.isAdditive_iff.mp hop) hw) budget
  intro d
  refine Ensures.ahead_bind ?_
  dsimp only
  split
  · next hs =>
    refine Ensures.take_bind fun e _ => (hterm e).bind fun u x f hu => ?_
    rw [pure_bind]
    exact hchain (.signed (TokenKind.isSign_iff.mp hs) hu) f
  · exact (hterm d).bind fun u x f hu => hchain (.ofTerm hu) f

theorem relation_sound (budget : Nat) :
    Sound (relation factor budget) (DerivesExpression .relation) := by
  have hsimple := simpleExpression_sound hfactor budget
  intro d
  refine (hsimple d).bind fun u l e hu => Ensures.ahead_bind ?_
  split
  · next hop =>
    refine Ensures.take_bind fun f _ => (hsimple f).bind fun w r g hw => Ensures.pure ?_
    rw [List.append_nil]
    exact .comparison hu (TokenKind.isRelational_iff.mp hop) hw
  · refine Ensures.pure ?_
    rw [List.append_nil]
    exact .ofSimple hu

end Levels

theorem factor_sound : ∀ budget, Sound (factor budget) (DerivesExpression .factor)
  | 0, _ => .spent
  | budget + 1, d => by
    refine Ensures.ahead_bind ?_
    split
    · next kind value hlexeme =>
      refine Ensures.discard_bind (Ensures.expect_bind fun hd e _ => Ensures.pure ?_)
      have hvalue : d.token.value = value := by rw [Token.value, hlexeme]
      exact hvalue ▸ .number hd
    · next hd hne =>
      refine Ensures.discard_bind (Ensures.take_bind fun e _ => ?_)
      refine (relation_sound (factor_sound budget) budget e).bind fun u x f hu => ?_
      refine Ensures.discard_bind (Ensures.expect_bind fun hf g _ => Ensures.pure ?_)
      exact .parens hd hu hf
    · next hd hne =>
      refine Ensures.take_bind fun e _ =>
        (factor_sound budget e).bind fun u x f hu => Ensures.pure ?_
      rw [List.append_nil]
      exact .negation hd hu
    · refine (identifier_sound d).bind fun u ident e hu => Ensures.pure ?_
      cases hu with
      | intro hd => exact .var hd

/-- **An expression that is read is derived.** -/
theorem expression_sound (budget : Nat) :
    Sound (expression budget) (DerivesExpression .relation) :=
  relation_sound (factor_sound budget) budget

/-! ## Completeness -/

/-- The kinds of tokens that can stand behind an expression. -/
def EndsExpression (kind : TokenKind) : Prop :=
  kind.isRelational = false ∧ kind.isAdditive = false ∧ kind.isMultiplicative = false

section Reads

variable {d e : Delivery} {w : List Delivery} {x : Expression} {budget : Nat}

theorem identifier_reads (hd : d.kind = .identifier) (hspan : Span d [d] e) :
    Reads identifier d [d] d.identifier e :=
  .line ((Reads.expect hd hspan).bind_nil (.pure _ _))

theorem factor_reads_number (hd : d.kind = .integerLiteral) (hspan : Span d [d] e) :
    Reads (factor (budget + 1)) d [d] (.number d.token.value) e := by
  obtain ⟨value, -, hlexeme⟩ := d.genuine.integer_of_kind hd
  have hvalue : d.token.value = value := by rw [Token.value, hlexeme]
  refine Reads.ahead ?_
  simp only [hlexeme, hvalue]
  exact (Reads.expect hd hspan).discard.bind_nil (.pure _ _)

theorem factor_reads_var (hd : d.kind = .identifier) (hspan : Span d [d] e) :
    Reads (factor (budget + 1)) d [d] (.var d.identifier) e := by
  obtain ⟨name, -, htoken⟩ := d.genuine.name_of_kind hd
  refine Reads.ahead ?_
  simp only [htoken]
  exact (identifier_reads hd hspan).bind_nil (.pure _ _)

theorem factor_reads_parens {m c : Delivery} (hd : d.kind = .leftParen) (hm : Span d [d] m)
    (hw : Reads (expression budget) m w x c) (hc : c.kind = .rightParen) (he : Span c [c] e) :
    Reads (factor (budget + 1)) d (d :: (w ++ [c])) x e := by
  have htoken := token_of_kind hd rfl
  refine Reads.ahead ?_
  simp only [htoken]
  have hclose := (Reads.expect hc he).discard
  exact (Reads.take hm).discard.bind (hw.bind (hclose.bind_nil (.pure _ _)))

theorem factor_reads_negation {m : Delivery} (hd : d.kind = .nao) (hm : Span d [d] m)
    (hw : Reads (factor budget) m w x e) :
    Reads (factor (budget + 1)) d (d :: w) (.unary d.token x) e := by
  have htoken := token_of_kind hd rfl
  refine Reads.ahead ?_
  have htake := Reads.take hm
  rw [htoken] at htake ⊢
  exact htake.bind (hw.bind_nil (.pure _ _))

theorem simpleExpression_unsigned {factor : Production Expression}
    (hd : d.kind.isSign = false) (log : Array Located) :
    simpleExpression factor budget (d.reader log) =
      (term factor budget >>= chain TokenKind.isAdditive .binary (term factor budget) budget)
        (d.reader log) := by
  have hd' : ¬ d.token.kind.isSign = true := by
    rw [show d.token.kind = d.kind from rfl, hd]
    exact Bool.false_ne_true
  rw [simpleExpression, ahead_bind]
  dsimp only
  rw [if_neg hd']

theorem simpleExpression_signed {factor : Production Expression} (hd : d.kind.isSign = true)
    (log : Array Located) :
    simpleExpression factor budget (d.reader log) =
      (take >>= fun sign => term factor budget >>= fun x =>
        chain TokenKind.isAdditive .binary (term factor budget) budget (.unary sign x))
          (d.reader log) := by
  have hd' : d.token.kind.isSign = true := hd
  rw [simpleExpression, ahead_bind]
  dsimp only
  rw [if_pos hd']
  simp only [pure_bind]

end Reads

/-- What the production of a level does with deliveries that the level derives. A relation or a
factor is read; a term or a simple expression is read as far as it goes, with some of the budget
of its chain left. -/
def ReadsLevel (level : Level) (d : Delivery) (w : List Delivery) (x : Expression)
    (e : Delivery) : Prop :=
  ∀ budget, w.length ≤ budget →
    match level with
    | .relation => EndsExpression e.kind → Reads (expression budget) d w x e
    | .simple => e.kind.isMultiplicative = false → ∃ rest, budget < rest + w.length ∧ ∀ log,
        simpleExpression (factor budget) budget (d.reader log) =
          chain TokenKind.isAdditive .binary (term (factor budget) budget) rest x
            (e.reader (logged log w))
    | .term => ∃ rest, budget < rest + w.length ∧ ∀ log,
        term (factor budget) budget (d.reader log) =
          chain TokenKind.isMultiplicative .binary (factor budget) rest x (e.reader (logged log w))
    | .factor => Reads (factor budget) d w x e

section ReadsLevel

variable {d e : Delivery} {w : List Delivery} {x : Expression} {budget : Nat}

theorem ReadsLevel.term (h : ReadsLevel .term d w x e) (hb : w.length ≤ budget)
    (he : e.kind.isMultiplicative = false) : Reads (term (factor budget) budget) d w x e := by
  obtain ⟨rest, hrest, hrun⟩ := h budget hb
  obtain ⟨n, rfl⟩ : ∃ n, rest = n + 1 := ⟨rest - 1, by omega⟩
  intro log
  rw [hrun, chain_stop he]
  rfl

/-- A simple expression is read to its end if no operator of its level or a tighter one follows. -/
theorem ReadsLevel.simple (h : ReadsLevel .simple d w x e) (hb : w.length ≤ budget)
    (hm : e.kind.isMultiplicative = false) (ha : e.kind.isAdditive = false) :
    Reads (simpleExpression (factor budget) budget) d w x e := by
  obtain ⟨rest, hrest, hrun⟩ := h budget hb hm
  obtain ⟨n, rfl⟩ : ∃ n, rest = n + 1 := ⟨rest - 1, by omega⟩
  intro log
  rw [hrun, chain_stop ha]
  rfl

end ReadsLevel

/-- **The production of a level reads what the level derives.** -/
theorem readsLevel {level : Level} {w : List Delivery} {x : Expression}
    (h : DerivesExpression level w x) {d e : Delivery} (hspan : Span d w e) :
    ReadsLevel level d w x e := by
  induction h generalizing d e with
  | number hd =>
    intro budget hb
    obtain ⟨n, rfl⟩ : ∃ n, budget = n + 1 := ⟨budget - 1, by simp at hb; omega⟩
    obtain ⟨rfl, -⟩ := Span.cons_iff.mp hspan
    exact factor_reads_number hd hspan
  | var hd =>
    intro budget hb
    obtain ⟨n, rfl⟩ : ∃ n, budget = n + 1 := ⟨budget - 1, by simp at hb; omega⟩
    obtain ⟨rfl, -⟩ := Span.cons_iff.mp hspan
    exact factor_reads_var hd hspan
  | parens ho _ hc ih =>
    intro budget hb
    simp only [List.length_cons, List.length_append, List.length_nil] at hb
    obtain ⟨n, rfl⟩ : ∃ n, budget = n + 1 := ⟨budget - 1, by omega⟩
    obtain ⟨rfl, m, hlink, hspan⟩ := Span.cons_iff.mp hspan
    obtain ⟨c, hspanw, hspanc⟩ := Span.append_iff.mp hspan
    obtain ⟨rfl, -⟩ := Span.cons_iff.mp hspanc
    have hinner := ih hspanw n (by omega) (by rw [hc]; exact ⟨rfl, rfl, rfl⟩)
    exact factor_reads_parens ho (.single hlink) hinner hc hspanc
  | negation hn _ ih =>
    intro budget hb
    simp only [List.length_cons] at hb
    obtain ⟨n, rfl⟩ : ∃ n, budget = n + 1 := ⟨budget - 1, by omega⟩
    obtain ⟨rfl, m, hlink, hspan⟩ := Span.cons_iff.mp hspan
    exact factor_reads_negation hn (.single hlink) (ih hspan n (by omega))
  | ofFactor hw ih =>
    intro budget hb
    have hpos := hw.length_pos
    exact ⟨budget, by omega, fun log => bind_of_ok (ih hspan budget hb log)⟩
  | product hv hop hw ihv ihw =>
    intro budget hb
    simp only [List.length_cons, List.length_append] at hb
    obtain ⟨op, hspanv, hspanw⟩ := Span.append_iff.mp hspan
    obtain ⟨rfl, c, hlink, hspanw⟩ := Span.cons_iff.mp hspanw
    obtain ⟨rest, hrest, hrun⟩ := ihv hspanv budget (by omega)
    obtain ⟨n, rfl⟩ : ∃ n, rest = n + 1 := ⟨rest - 1, by omega⟩
    refine ⟨n, by simp only [List.length_append, List.length_cons]; omega, fun log => ?_⟩
    rw [hrun, chain_succ (TokenKind.isMultiplicative_iff.mpr hop) hlink
      (ihw hspanw budget (by omega)), ← logged_append]
  | ofTerm hw ih =>
    intro budget hb hm
    have hpos := hw.length_pos
    obtain ⟨c, v, rfl, hc⟩ := hw.head
    obtain ⟨rfl, -⟩ := Span.cons_iff.mp hspan
    refine ⟨budget, by omega, fun log => ?_⟩
    rw [simpleExpression_unsigned (TokenKind.isSign_of_first hc),
      bind_of_ok ((ih hspan).term hb hm log)]
  | signed hs hw ih =>
    intro budget hb hm
    have hpos := hw.length_pos
    simp only [List.length_cons] at hb
    obtain ⟨rfl, c, hlink, hspanw⟩ := Span.cons_iff.mp hspan
    refine ⟨budget, by simp only [List.length_cons]; omega, fun log => ?_⟩
    rw [simpleExpression_signed (TokenKind.isSign_iff.mpr hs),
      bind_of_ok (Reads.take (.single hlink) log),
      bind_of_ok ((ih hspanw).term (by omega) hm _)]
    rfl
  | sum hv hop hw ihv ihw =>
    intro budget hb hm
    simp only [List.length_cons, List.length_append] at hb
    obtain ⟨op, hspanv, hspanw⟩ := Span.append_iff.mp hspan
    obtain ⟨rfl, c, hlink, hspanw⟩ := Span.cons_iff.mp hspanw
    have hmul := TokenKind.isMultiplicative_of_additive hop
    obtain ⟨rest, hrest, hrun⟩ := ihv hspanv budget (by omega) hmul
    obtain ⟨n, rfl⟩ : ∃ n, rest = n + 1 := ⟨rest - 1, by omega⟩
    refine ⟨n, by simp only [List.length_append, List.length_cons]; omega, fun log => ?_⟩
    rw [hrun, chain_succ (TokenKind.isAdditive_iff.mpr hop) hlink
      ((ihw hspanw).term (by omega) hm), ← logged_append]
  | ofSimple _ ih =>
    intro budget hb he
    obtain ⟨hrel, hadd, hmul⟩ := he
    exact ((ih hspan).simple hb hmul hadd).bind_nil (.ahead_neg hrel (.pure _ _))
  | comparison hv hop hw ihv ihw =>
    intro budget hb he
    obtain ⟨hrel, hadd, hmul⟩ := he
    simp only [List.length_cons, List.length_append] at hb
    obtain ⟨op, hspanv, hspanw⟩ := Span.append_iff.mp hspan
    obtain ⟨rfl, c, hlink, hspanw⟩ := Span.cons_iff.mp hspanw
    have hleft : Reads (simpleExpression (factor budget) budget) _ _ _ _ :=
      (ihv hspanv).simple (by omega) (TokenKind.isMultiplicative_of_relational hop)
        (TokenKind.isAdditive_of_relational hop)
    have hright : Reads (simpleExpression (factor budget) budget) _ _ _ _ :=
      (ihw hspanw).simple (by omega) hmul hadd
    have htake := Reads.take (.single hlink)
    exact hleft.bind (.ahead_pos (TokenKind.isRelational_iff.mpr hop)
      (htake.bind (hright.bind_nil (.pure _ _))))

/-- **A derived expression is read** if no operator follows, on a budget of its length. -/
theorem expression_complete {w : List Delivery} {x : Expression} {budget : Nat} {d e : Delivery}
    (h : DerivesExpression .relation w x) (hb : w.length ≤ budget) (hspan : Span d w e)
    (he : EndsExpression e.kind) : Reads (expression budget) d w x e :=
  readsLevel h hspan budget hb he

end Production

end LusoPascal
