import LusoPascal.Proofs.Grammar.Calls
import LusoPascal.Proofs.Token.DigitRun

/-!
# Numbers from the text to the tree

A run of digits in a text is fetched as a number or as a fault. A number that is consumed in an
expression stands in its tree, in the same place among the others and with the same value. Only the
value that is assigned where a variable is declared is dropped with its tree; the numbers of a
program are those that stand between `inicio` and `fim`.

* `Expression.numbers`, `Statement.numbers`, `Program.numbers`: the numbers of a tree;
* `integers`, `bodyIntegers`: the numbers of tokens, all or those between `inicio` and `fim`;
* `Counts`: tokens that open as many `inicio` as they close;
* **`DerivesExpression.numbers_eq`**, **`DerivesStatement.numbers_eq`**,
  **`DerivesProgram.numbers_eq`**: the numbers of the tree are those of the tokens;
* **`integerLiterals_exact`**: for all texts.
-/

namespace LusoPascal

/-! ## Numbers of trees -/

/-- The numbers of an expression, from left to right. -/
def Expression.numbers : Expression → List Int
  | binary left _ right => left.numbers ++ right.numbers
  | unary _ operand => operand.numbers
  | number value => [value]
  | boolean _ | var _ => []

namespace Statement

mutual

def numbers : Statement → List Int
  | compound children => allNumbers children
  | assign _ _ value => value.numbers
  | ifThen condition thenBranch => condition.numbers ++ thenBranch.numbers
  | ifThenElse condition thenBranch elseBranch =>
    condition.numbers ++ (thenBranch.numbers ++ elseBranch.numbers)
  | loop condition body => condition.numbers ++ body.numbers
  | call _ | empty => []

def allNumbers : List Statement → List Int
  | [] => []
  | s :: ss => s.numbers ++ allNumbers ss

end

end Statement

namespace Declaration

mutual

def numbers : Declaration → List Int
  | var _ => []
  | procedure _ declarations body => allNumbers declarations ++ Statement.allNumbers body

def allNumbers : List Declaration → List Int
  | [] => []
  | d :: ds => d.numbers ++ allNumbers ds

end

theorem allNumbers_append (ds es : List Declaration) :
    allNumbers (ds ++ es) = allNumbers ds ++ allNumbers es := by
  induction ds with
  | nil => rfl
  | cons d ds ih => rw [List.cons_append, allNumbers, allNumbers, ih, List.append_assoc]

end Declaration

def Block.numbers (block : Block) : List Int :=
  Declaration.allNumbers block.declarations ++ Statement.allNumbers block.body

def Program.numbers (program : Program) : List Int := program.block.numbers

/-! ## Numbers of tokens -/

/-- The number that a token carries, if it carries one. -/
def Token.integer? (token : Token) : Option Int :=
  match token.lexeme with
  | .integer value => some value
  | _ => none

/-- How many `inicio` are open behind a token, if `depth` are open in front of it. -/
def Token.depthBehind (depth : Nat) (token : Token) : Nat :=
  match token.kind with
  | .inicio => depth + 1
  | .fim => depth - 1
  | _ => depth

/-- The numbers that stand between `inicio` and `fim`, if `depth` words `inicio` are open in front
of the tokens. -/
def bodyIntegers : Nat → List Token → List Int
  | _, [] => []
  | depth, token :: tokens =>
    (if depth = 0 then [] else token.integer?.toList) ++
      bodyIntegers (token.depthBehind depth) tokens

theorem bodyIntegers_sublist (depth : Nat) (tokens : List Token) :
    (bodyIntegers depth tokens).Sublist (tokens.filterMap Token.integer?) := by
  induction tokens generalizing depth with
  | nil => exact List.Sublist.refl _
  | cons token tokens ih =>
    rw [bodyIntegers]
    cases htoken : token.integer? with
    | none =>
      rw [List.filterMap_cons_none htoken, Option.toList_none, ite_self, List.nil_append]
      exact ih _
    | some value =>
      rw [List.filterMap_cons_some htoken, Option.toList_some]
      split
      · exact (ih _).cons _
      · exact (ih _).cons_cons _

/-- The numbers of deliveries. -/
def integers (w : List Delivery) : List Int := w.filterMap fun d => d.token.integer?

section Integers

variable {d : Delivery} {v w : List Delivery}

@[simp] theorem integers_nil : integers [] = [] := rfl

@[simp] theorem integers_append : integers (v ++ w) = integers v ++ integers w :=
  List.filterMap_append

theorem Delivery.integer?_eq (d : Delivery) :
    d.token.integer? = if d.kind = .integerLiteral then some d.token.value else none := by
  have hgenuine := d.genuine
  rw [Delivery.kind]
  generalize d.token = token at hgenuine ⊢
  cases hgenuine with
  | integer h => rfl
  | @fixed kind _ h =>
    rw [if_neg]
    · rfl
    · rintro rfl
      cases h
  | identifier | boolean | endOfInput => rfl

theorem integers_singleton (d : Delivery) : integers [d] = d.token.integer?.toList := by
  cases h : d.token.integer? with
  | none => exact List.filterMap_cons_none h
  | some value => exact List.filterMap_cons_some h

theorem integers_literal (hd : d.kind = .integerLiteral) : integers [d] = [d.token.value] :=
  List.filterMap_cons_some (by rw [d.integer?_eq, if_pos hd])

theorem integers_cons_of_ne (hd : d.kind ≠ .integerLiteral) : integers (d :: w) = integers w :=
  List.filterMap_cons_none (by rw [d.integer?_eq, if_neg hd])

theorem integers_cons_of_kind {kind : TokenKind} (hd : d.kind = kind)
    (hkind : kind ≠ .integerLiteral) : integers (d :: w) = integers w :=
  integers_cons_of_ne (hd ▸ hkind)

theorem integers_cons_of_mem {kinds : List TokenKind} (hd : d.kind ∈ kinds)
    (hkinds : .integerLiteral ∉ kinds) : integers (d :: w) = integers w :=
  integers_cons_of_ne fun h => hkinds (h ▸ hd)

end Integers

/-! ## From the tokens to the tree -/

section Derives

variable {w : List Delivery}

/-- **Every number of an expression stands in its tree**, with its value and in its place. -/
theorem DerivesExpression.numbers_eq {level : Level} {x : Expression}
    (h : DerivesExpression level w x) : x.numbers = integers w := by
  induction h with
  | number hd => exact (integers_literal hd).symm
  | var hd => exact (integers_cons_of_kind (w := []) hd (by decide)).symm
  | parens ho _ hc ih =>
    rw [integers_cons_of_kind ho (by decide), integers_append, integers_cons_of_kind hc (by decide),
      integers_nil, List.append_nil, ih]
  | negation hn _ ih => rw [Expression.numbers, integers_cons_of_kind hn (by decide), ih]
  | signed hs _ ih => rw [Expression.numbers, integers_cons_of_mem hs (by decide), ih]
  | ofFactor _ ih | ofTerm _ ih | ofSimple _ ih => exact ih
  | product _ hop _ ihl ihr | sum _ hop _ ihl ihr | comparison _ hop _ ihl ihr =>
    rw [Expression.numbers, integers_append, integers_cons_of_mem hop (by decide), ihl, ihr]

theorem DerivesValue.numbers_eq {x : Expression} (h : DerivesValue w x) :
    x.numbers = integers w := by
  cases h with
  | boolean hd => exact (integers_cons_of_kind (w := []) hd (by decide)).symm
  | expression hw => exact hw.numbers_eq

theorem DerivesArguments.integers_eq {args : List String} (h : DerivesArguments w args) :
    integers w = [] := by
  have hnames {v : List Delivery} {names : List String}
      (hv : Separated .comma DerivesName v names) : integers v = [] := by
    induction hv with
    | one hv =>
      cases hv with
      | intro hd => exact integers_cons_of_kind hd (by decide)
    | more hv hs _ ih =>
      cases hv with
      | intro hd =>
        rw [List.singleton_append, integers_cons_of_kind hd (by decide),
          integers_cons_of_kind hs (by decide), ih]
  cases h with
  | missing => rfl
  | empty ho hc =>
    rw [integers_cons_of_kind ho (by decide), integers_cons_of_kind hc (by decide)]
    rfl
  | names ho hw hc =>
    rw [integers_cons_of_kind ho (by decide), integers_append, hnames hw,
      integers_cons_of_kind hc (by decide)]
    rfl

mutual

/-- **Every number of a command stands in its tree**, with its value and in its place. -/
theorem DerivesStatement.numbers_eq {w l : List Delivery} {s : Statement}
    (h : DerivesStatement w s l) : s.numbers = integers w := by
  match h with
  | .empty => rfl
  | .assignment hd ha hw =>
    rw [Statement.numbers, integers_cons_of_kind hd (by decide),
      integers_cons_of_kind ha (by decide), hw.numbers_eq]
  | .call hd hw => rw [Statement.numbers, integers_cons_of_kind hd (by decide), hw.integers_eq]
  | .compound hw => rw [Statement.numbers, hw.numbers_eq]
  | .ifThen hi hv ht hw =>
    rw [Statement.numbers, integers_cons_of_kind hi (by decide), integers_append,
      integers_cons_of_kind ht (by decide), hv.numbers_eq, hw.numbers_eq]
  | .ifThenElse hi hv ht hw he hx =>
    rw [Statement.numbers, integers_cons_of_kind hi (by decide), integers_append,
      integers_cons_of_kind ht (by decide), integers_append, integers_cons_of_kind he (by decide),
      hv.numbers_eq, hw.numbers_eq, hx.numbers_eq]
  | .loop hi hv hf hw =>
    rw [Statement.numbers, integers_cons_of_kind hi (by decide), integers_append,
      integers_cons_of_kind hf (by decide), hv.numbers_eq, hw.numbers_eq]

theorem DerivesCompound.numbers_eq {w l : List Delivery} {ss : List Statement}
    (h : DerivesCompound w ss l) : Statement.allNumbers ss = integers w := by
  match h with
  | .intro hb hw hf =>
    rw [integers_cons_of_kind hb (by decide), integers_append, integers_cons_of_kind hf (by decide),
      integers_nil, List.append_nil, hw.numbers_eq]

theorem DerivesStatements.numbers_eq {w l : List Delivery} {ss : List Statement}
    (h : DerivesStatements w ss l) : Statement.allNumbers ss = integers w := by
  match h with
  | .one hw => rw [Statement.allNumbers, Statement.allNumbers, List.append_nil, hw.numbers_eq]
  | .more hv hp hw =>
    rw [Statement.allNumbers, integers_append, integers_cons_of_kind hp (by decide),
      hv.numbers_eq, hw.numbers_eq]

end

end Derives

/-! ## Numbers between `inicio` and `fim` -/

/-- Tokens that open as many `inicio` as they close: inside of one all of their numbers count, and
outside none does. -/
def Counts (depth : Nat) (w : List Delivery) : Prop :=
  ∀ rest, bodyIntegers depth (w.map Delivery.token ++ rest) =
    (if depth = 0 then [] else integers w) ++ bodyIntegers depth rest

namespace Counts

variable {depth : Nat} {d b f : Delivery} {v w : List Delivery}

theorem nil : Counts depth [] := fun rest => by rw [integers_nil, ite_self]; rfl

theorem append (hv : Counts depth v) (hw : Counts depth w) : Counts depth (v ++ w) := fun rest => by
  rw [List.map_append, List.append_assoc, hv, hw, integers_append]
  split
  · rfl
  · exact (List.append_assoc ..).symm

theorem single (hd : d.kind ∉ [.inicio, .fim]) : Counts depth [d] := fun rest => by
  have hdepth : d.token.depthBehind depth = depth := by
    rw [Token.depthBehind]
    split
    · next h => exact absurd (List.mem_cons.mpr (.inl h)) hd
    · next h => exact absurd (List.mem_cons_of_mem _ (List.mem_singleton.mpr h)) hd
    · rfl
  rw [List.map_singleton, List.singleton_append, bodyIntegers, hdepth, integers_singleton]

theorem cons (hd : d.kind ∉ [.inicio, .fim]) (hw : Counts depth w) : Counts depth (d :: w) :=
  (single hd).append hw

theorem of_kind {kind : TokenKind} (hd : d.kind = kind) (hkind : kind ∉ [.inicio, .fim]) :
    Counts depth [d] :=
  single (hd ▸ hkind)

theorem cons_of_kind {kind : TokenKind} (hd : d.kind = kind) (hw : Counts depth w)
    (hkind : kind ∉ [.inicio, .fim]) : Counts depth (d :: w) :=
  hw.cons (hd ▸ hkind)

theorem cons_of_mem {kinds : List TokenKind} (hd : d.kind ∈ kinds) (hw : Counts depth w)
    (hkinds : ∀ kind ∈ kinds, kind ∉ [.inicio, .fim]) : Counts depth (d :: w) :=
  hw.cons (hkinds _ hd)

theorem enclosed (hb : b.kind = .inicio) (hw : Counts (depth + 1) w) (hf : f.kind = .fim)
    (rest : List Token) :
    bodyIntegers depth ((b :: (w ++ [f])).map Delivery.token ++ rest) =
      integers w ++ bodyIntegers depth rest := by
  have hopen : b.token.depthBehind depth = depth + 1 := by
    rw [Token.depthBehind, show b.token.kind = .inicio from hb]
  have hclose : f.token.depthBehind (depth + 1) = depth := by
    rw [Token.depthBehind, show f.token.kind = .fim from hf]
    rfl
  have hnone {c : Delivery} (hc : c.kind ≠ .integerLiteral) : c.token.integer?.toList = [] := by
    rw [c.integer?_eq, if_neg hc]
    rfl
  rw [List.map_cons, List.map_append, List.cons_append, List.append_assoc, bodyIntegers, hopen, hw,
    if_neg (Nat.succ_ne_zero _), List.map_singleton, List.singleton_append, bodyIntegers, hclose,
    hnone (hb ▸ by decide), hnone (hf ▸ by decide), ite_self, ite_self]
  rfl

end Counts

section Counts

variable {depth : Nat} {w : List Delivery}

theorem DerivesExpression.counts {level : Level} {x : Expression}
    (h : DerivesExpression level w x) : Counts depth w := by
  induction h with
  | number hd | var hd => exact .of_kind hd (by decide)
  | parens ho _ hc ih =>
    exact .cons_of_kind ho (ih.append (.of_kind hc (by decide))) (by decide)
  | negation hn _ ih => exact .cons_of_kind hn ih (by decide)
  | signed hs _ ih => exact .cons_of_mem hs ih (by decide)
  | ofFactor _ ih | ofTerm _ ih | ofSimple _ ih => exact ih
  | product _ hop _ ihl ihr | sum _ hop _ ihl ihr | comparison _ hop _ ihl ihr =>
    exact ihl.append (.cons_of_mem hop ihr (by decide))

theorem DerivesValue.counts {x : Expression} (h : DerivesValue w x) : Counts depth w := by
  cases h with
  | boolean hd => exact .of_kind hd (by decide)
  | expression hw => exact hw.counts

theorem Separated.counts {α : Type} {separator : TokenKind} {Item : List Delivery → α → Prop}
    {as : List α} (h : Separated separator Item w as)
    (hitem : ∀ {v : List Delivery} {a : α}, Item v a → Counts depth v)
    (hs : separator ∉ [.inicio, .fim]) : Counts depth w := by
  induction h with
  | one hw => exact hitem hw
  | more hv hs' _ ih => exact (hitem hv).append (.cons_of_kind hs' ih hs)

theorem DerivesArguments.counts {args : List String} (h : DerivesArguments w args) :
    Counts depth w := by
  cases h with
  | missing => exact .nil
  | empty ho hc => exact .cons_of_kind ho (.of_kind hc (by decide)) (by decide)
  | names ho hw hc =>
    have hnames : Counts depth _ :=
      hw.counts (fun | .intro hd => .of_kind hd (by decide)) (by decide)
    exact .cons_of_kind ho (hnames.append (.of_kind hc (by decide))) (by decide)

mutual

/-- A command closes what it opens. -/
theorem DerivesStatement.counts {depth : Nat} {w l : List Delivery} {s : Statement}
    (h : DerivesStatement w s l) : Counts (depth + 1) w := by
  match h with
  | .empty => exact .nil
  | .assignment hd ha hw =>
    exact .cons_of_kind hd (.cons_of_kind ha hw.counts (by decide)) (by decide)
  | .call hd hw => exact .cons_of_kind hd hw.counts (by decide)
  | .compound hw =>
    intro rest
    rw [if_neg (Nat.succ_ne_zero _)]
    exact hw.bodyIntegers_eq rest
  | .ifThen hi hv ht hw | .loop hi hv ht hw =>
    exact .cons_of_kind hi (hv.counts.append (.cons_of_kind ht hw.counts (by decide))) (by decide)
  | .ifThenElse hi hv ht hw he hx =>
    have helse : Counts (depth + 1) _ := .cons_of_kind he hx.counts (by decide)
    exact .cons_of_kind hi (hv.counts.append (.cons_of_kind ht (hw.counts.append helse)
      (by decide))) (by decide)

theorem DerivesCompound.bodyIntegers_eq {depth : Nat} {w l : List Delivery} {ss : List Statement}
    (h : DerivesCompound w ss l) (rest : List Token) :
    bodyIntegers depth (w.map Delivery.token ++ rest) = integers w ++ bodyIntegers depth rest := by
  match h with
  | .intro hb hw hf =>
    rw [hw.counts.enclosed hb hf, integers_cons_of_kind hb (by decide), integers_append,
      integers_cons_of_kind hf (by decide), integers_nil, List.append_nil]

theorem DerivesStatements.counts {depth : Nat} {w l : List Delivery} {ss : List Statement}
    (h : DerivesStatements w ss l) : Counts (depth + 1) w := by
  match h with
  | .one hw => exact hw.counts
  | .more hv hp hw => exact hv.counts.append (.cons_of_kind hp hw.counts (by decide))

end

theorem DerivesMarker.counts (h : DerivesMarker w) : Counts depth w := by
  cases h with
  | missing => exact .nil
  | present hd => exact .of_kind hd (by decide)

theorem DerivesType.counts {type : TypeName} (h : DerivesType w type) : Counts depth w := by
  cases h with
  | intro hd => exact .cons_of_mem hd .nil (by decide)

theorem DerivesDeclarator.counts {ident : Identifier} (h : DerivesDeclarator w ident) :
    Counts depth w := by
  cases h with
  | plain hd => exact .of_kind hd (by decide)
  | assigned hd ha hw =>
    exact .cons_of_kind hd (.cons_of_kind ha hw.counts (by decide)) (by decide)

theorem DerivesVariables.counts {declarations : List Declaration}
    (h : DerivesVariables w declarations) : Counts depth w := by
  cases h with
  | intro hm ht hw hp =>
    have hnames : Counts depth _ := hw.counts DerivesDeclarator.counts (by decide)
    exact hm.counts.append (ht.counts.append (hnames.append (.of_kind hp (by decide))))

theorem Repeated.counts {groups : List (List Declaration)}
    (h : Repeated DerivesVariables w groups) : Counts depth w := by
  induction h with
  | nil => exact .nil
  | cons hv _ ih => exact hv.counts.append ih

theorem DerivesParameterGroup.counts {params : List TypedIdentifier}
    (h : DerivesParameterGroup w params) : Counts depth w := by
  cases h with
  | intro hm hw hc ht =>
    have hnames : Counts depth _ :=
      hw.counts (fun | .intro hd => .of_kind hd (by decide)) (by decide)
    exact hm.counts.append (hnames.append (.cons_of_kind hc ht.counts (by decide)))

theorem DerivesParameters.counts {params : List TypedIdentifier} (h : DerivesParameters w params) :
    Counts depth w := by
  cases h with
  | missing => exact .nil
  | groups ho hw hc =>
    have hgroups : Counts depth _ := hw.counts DerivesParameterGroup.counts (by decide)
    exact .cons_of_kind ho (hgroups.append (.of_kind hc (by decide))) (by decide)

/-- A declaration of variables leaves no number in the tree. -/
theorem Repeated.allNumbers_eq {groups : List (List Declaration)}
    (h : Repeated DerivesVariables w groups) : Declaration.allNumbers groups.flatten = [] := by
  have hidents (type : TypeName) (idents : List Identifier) :
      Declaration.allNumbers (idents.map fun ident => .var ⟨ident, type⟩) = [] := by
    induction idents with
    | nil => rfl
    | cons ident idents ih => exact ih
  induction h with
  | nil => rfl
  | cons hv _ ih =>
    cases hv with
    | intro => rw [List.flatten_cons, Declaration.allNumbers_append, hidents, ih]; rfl

end Counts

mutual

theorem DerivesBlock.numbers_eq {w l : List Delivery} {b : Block} (h : DerivesBlock w b l)
    (rest : List Token) :
    bodyIntegers 0 (w.map Delivery.token ++ rest) = b.numbers ++ bodyIntegers 0 rest := by
  match h with
  | .intro hu hv hw =>
    rw [List.map_append, List.map_append, List.append_assoc, List.append_assoc, hu.counts,
      hv.numbers_eq, hw.bodyIntegers_eq, Block.numbers, Declaration.allNumbers_append,
      hu.allNumbers_eq, hw.numbers_eq, List.append_assoc]
    rfl

theorem DerivesProcedure.numbers_eq {w l : List Delivery} {d : Declaration}
    (h : DerivesProcedure w d l) (rest : List Token) :
    bodyIntegers 0 (w.map Delivery.token ++ rest) = d.numbers ++ bodyIntegers 0 rest := by
  match h with
  | .intro (v := v) (w := w) (n := n) (p := p) (s := s) (t := t) hp hn hv hs hw ht =>
    have hheading : Counts 0 (p :: n :: (v ++ [s])) :=
      .cons_of_kind hp (.cons_of_kind hn (hv.counts.append (.of_kind hs (by decide))) (by decide))
        (by decide)
    have hclosing : Counts 0 [t] := .of_kind ht (by decide)
    have hsplit : p :: n :: (v ++ s :: (w ++ [t])) = (p :: n :: (v ++ [s])) ++ (w ++ [t]) := by simp
    rw [hsplit, List.map_append, List.map_append, List.append_assoc, List.append_assoc, hheading,
      hw.numbers_eq, hclosing]
    rfl

theorem DerivesProcedures.numbers_eq {w l : List Delivery} {ds : List Declaration}
    (h : DerivesProcedures w ds l) (rest : List Token) :
    bodyIntegers 0 (w.map Delivery.token ++ rest) =
      Declaration.allNumbers ds ++ bodyIntegers 0 rest := by
  match h with
  | .nil => rfl
  | .cons hv hw =>
    rw [Declaration.allNumbers, List.map_append, List.append_assoc, hv.numbers_eq, hw.numbers_eq,
      List.append_assoc]

end

/-- **The numbers of a program are those of its tokens** between `inicio` and `fim`, in their
order. -/
theorem DerivesProgram.numbers_eq {w l : List Delivery} {program : Program}
    (h : DerivesProgram w program l) :
    program.numbers = bodyIntegers 0 (w.map Delivery.token) := by
  cases h with
  | @intro p n s t w _ _ hp hn hs hw ht =>
    have hheading : Counts 0 [p, n, s] :=
      .cons_of_kind hp (.cons_of_kind hn (.of_kind hs (by decide)) (by decide)) (by decide)
    have hclosing : Counts 0 [t] := .of_kind ht (by decide)
    have hsplit : p :: n :: s :: (w ++ [t]) = [p, n, s] ++ (w ++ [t]) := rfl
    rw [hsplit, List.map_append, List.map_append, hheading, hw.numbers_eq, ← List.append_nil
      ([t].map Delivery.token), hclosing]
    exact (List.append_nil _).symm

example : (Program.ofSource "program p; inteiro x := 7; inicio x := 5 fim.").toOption.map
    Program.numbers = some [5] := by cbv

/-! ## From the text to the tree -/

/-- The numbers of a record. -/
def Located.integers (consumed : List Located) : List Int :=
  consumed.filterMap fun located => located.token.integer?

theorem Located.integers_map (w : List Delivery) :
    Located.integers (w.map Delivery.located) = LusoPascal.integers w := List.filterMap_map

theorem range_of_mem_integers {w : List Delivery} {value : Int} (h : value ∈ integers w) :
    0 ≤ value ∧ value ≤ 2 ^ 63 - 1 := by
  obtain ⟨d, -, hd⟩ := List.mem_filterMap.mp h
  rw [d.integer?_eq] at hd
  split at hd
  · next hkind =>
    obtain ⟨n, hle, hlexeme⟩ := d.genuine.integer_of_kind hkind
    have hvalue : d.token.value = n := by rw [Token.value, hlexeme]
    rw [Option.some.injEq, hvalue] at hd
    rw [maxInteger] at hle
    omega
  · cases hd

theorem range_of_mem_bodyIntegers {depth : Nat} {w : List Delivery} {value : Int}
    (h : value ∈ bodyIntegers depth (w.map Delivery.token)) : 0 ≤ value ∧ value ≤ 2 ^ 63 - 1 := by
  have hmem := (bodyIntegers_sublist depth _).subset h
  rw [List.filterMap_map] at hmem
  exact range_of_mem_integers hmem

namespace Production

open Delivery

/-- A number ahead is the factor that is read, with its value. -/
theorem factor_of_integer {reader : Reader} {value : Int}
    (h : reader.ahead.token = ⟨.integerLiteral, .integer value⟩) (budget : Nat) :
    factor (budget + 1) reader = ((fun _ => Expression.number value) <$> take) reader := by
  have hfactor : factor (budget + 1) reader =
      (discard (expect .integerLiteral) >>= fun _ => pure (.number value)) reader := by
    rw [factor, bind_apply, ahead_apply]
    dsimp only
    rw [h]
  rw [hfactor, discard_eq_map, bind_map_left, bind_apply, map_apply, expect_apply,
    if_pos (by rw [h])]
  rfl

theorem Sound.numbers {α : Type} {p : Production α} {Rule : List Delivery → α → Prop}
    {numbers : α → List Int} (hp : Sound p Rule)
    (hrule : ∀ {w a}, Rule w a → numbers a = integers w) {d : Delivery} {log : Array Located}
    {a : α} {behind : Reader} (hrun : p (d.reader log) = .ok a behind) :
    ∃ consumed, behind.consumed.toList = log.toList ++ consumed ∧
      numbers a = Located.integers consumed := by
  obtain ⟨w, e, rfl, -, hw⟩ := hp d hrun
  refine ⟨w.map located, toList_logged log w, ?_⟩
  rw [hrule hw, Located.integers_map]

theorem expression_numbers {budget : Nat} {d : Delivery} {log : Array Located} {x : Expression}
    {behind : Reader} (hrun : expression budget (d.reader log) = .ok x behind) :
    ∃ consumed, behind.consumed.toList = log.toList ++ consumed ∧
      x.numbers = Located.integers consumed :=
  (expression_sound budget).numbers DerivesExpression.numbers_eq hrun

theorem statement_numbers {budget : Nat} {d : Delivery} {log : Array Located} {s : Statement}
    {behind : Reader} (hrun : statement budget (d.reader log) = .ok s behind) :
    ∃ consumed, behind.consumed.toList = log.toList ++ consumed ∧
      s.numbers = Located.integers consumed := by
  have hsound : Sound (statement budget) AnyStatement := fun d =>
    (statement_sound budget d).mono fun _ _ _ ⟨leaders, hw, _⟩ => ⟨leaders, hw⟩
  exact hsound.numbers (fun ⟨_, hw⟩ => hw.numbers_eq) hrun

end Production

/-- A program that a call returns holds the numbers that the call consumed between `inicio` and
`fim`. -/
theorem Reader.numbers_of_parse {d : Delivery} {calls : Nat} {program : Program} {behind : Reader}
    (h : ((d.reader #[]).after calls).parse = (.ok program, behind)) :
    (∃ consumed, behind.consumed.toList =
        ((d.reader #[]).after calls).consumed.toList ++ consumed ∧
      program.numbers = bodyIntegers 0 (consumed.map Located.token)) ∧
    ∀ value ∈ program.numbers, 0 ≤ value ∧ value ≤ 2 ^ 63 - 1 := by
  rcases stands_or_rests d calls with ⟨-, v, e, hafter, -, -⟩ | ⟨-, hrests⟩
  · rw [hafter] at h ⊢
    rcases e.parse_ok_or_failed (logged #[] v) with
      ⟨program', w, f, hrun, -, leaders, hw, -⟩ | ⟨error, behind', hrun, -⟩
    · rw [hrun] at h
      obtain ⟨hprogram, rfl⟩ := Prod.mk.inj h
      obtain rfl := Except.ok.inj hprogram
      refine ⟨⟨w.map Delivery.located, Delivery.toList_logged _ w, ?_⟩, fun value hvalue => ?_⟩
      · rw [hw.numbers_eq, List.map_map]
        rfl
      · rw [hw.numbers_eq] at hvalue
        exact range_of_mem_bodyIntegers hvalue
    · rw [hrun] at h
      cases h
  · obtain ⟨⟨error, herror⟩, -⟩ := parse_at_rest hrests
    rw [h] at herror
    cases herror

/-- **Integer literals are exact**: a run of digits is fetched with its value or as a fault, and the
trees hold the numbers consumed for them. -/
theorem integerLiterals_exact (source : String) :
    (∀ before run behind, source.toList = before ++ (run ++ behind) → DigitRun before run behind →
      ∃ pieces rest fault?, Scans source.toList pieces rest fault? ∧
        ((∃ earlier later, ComesTo pieces before earlier later) ∨
          (∃ earlier piece later left right, pieces = earlier ++ piece :: later ∧
            piece.pattern ∈ [.lineComment, .braceComment, .identifier] ∧
            before = earlier.flatMap Piece.slice ++ left ∧ left ≠ [] ∧
            piece.slice = left ++ (run ++ right)) ∨
          ∃ left, left ≠ [] ∧ rest = left ++ (run ++ behind) ∧ fault? ≠ none) ∧
        ∀ earlier later, ComesTo pieces before earlier later →
          let fetches := (earlier.filterMap Piece.token?).length
          let line := 1 + before.count '\n'
          let value : Nat := Nat.ofDigits 10 (run.reverse.map fun c => c.toNat - '0'.toNat)
          if behind.head? = some '.' then
            BreaksOff source fetches ⟨.pointAfterNumber (String.ofList run), line⟩
          else if value ≤ 2 ^ 63 - 1 then
            ((Cursor.ofSource source).after fetches).next.1 =
              .ok ⟨⟨.integerLiteral, .integer value⟩, line⟩
          else BreaksOff source fetches ⟨.numberTooLarge (String.ofList run), line⟩) ∧
    (∀ (reader : Reader) value, reader.ahead.token = ⟨.integerLiteral, .integer value⟩ →
      ∀ budget, Production.factor (budget + 1) reader =
        ((fun _ => Expression.number value) <$> Production.take) reader) ∧
    (∀ budget (d : Delivery) log x behind,
      Production.expression budget (d.reader log) = .ok x behind →
        ∃ consumed, behind.consumed.toList = log.toList ++ consumed ∧
          x.numbers = Located.integers consumed) ∧
    (∀ budget (d : Delivery) log s behind,
      Production.statement budget (d.reader log) = .ok s behind →
        ∃ consumed, behind.consumed.toList = log.toList ++ consumed ∧
          s.numbers = Located.integers consumed) ∧
    ∀ reader, Reader.ofSource source = .ok reader → ∀ calls program behind,
      (reader.after calls).parse = (.ok program, behind) →
        (∃ consumed, behind.consumed.toList = (reader.after calls).consumed.toList ++ consumed ∧
          program.numbers = bodyIntegers 0 (consumed.map Located.token)) ∧
        ∀ value ∈ program.numbers, 0 ≤ value ∧ value ≤ 2 ^ 63 - 1 := by
  refine ⟨fun before run behind htext hrun => ?_, fun reader value h => ?_,
    fun budget d log x behind hrun => ?_, fun budget d log s behind hrun => ?_,
    fun reader hreader calls program behind h => ?_⟩
  · obtain ⟨pieces, rest, fault?, hscans, -⟩ := exists_scans source.toList 1
    refine ⟨pieces, rest, fault?, hscans, hscans.place_of_digitRun htext hrun, ?_⟩
    rintro earlier later ⟨rfl, hplace⟩ fetches line value
    have hnext := hscans.next_at_digitRun hplace htext hrun
    rw [numberToken, decimalValue_eq_ofDigits] at hnext
    split
    · next hpoint =>
      rw [if_pos hpoint] at hnext
      exact hnext
    · next hpoint =>
      rw [if_neg hpoint] at hnext
      split
      · next hle =>
        rw [if_pos (show value ≤ maxInteger from hle)] at hnext
        exact hnext
      · next hgt =>
        rw [if_neg (show ¬ value ≤ maxInteger from hgt)] at hnext
        exact hnext
  · exact Production.factor_of_integer h
  · exact Production.expression_numbers hrun
  · exact Production.statement_numbers hrun
  · obtain ⟨d, -, rfl⟩ := Reader.ofSource_eq_ok_iff.mp hreader
    exact Reader.numbers_of_parse h

end LusoPascal
