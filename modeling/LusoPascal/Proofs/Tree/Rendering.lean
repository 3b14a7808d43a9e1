import LusoPascal.Proofs.Token.Written
import LusoPascal.Proofs.Tree.WellFormed

/-!
# Rendering

A text for every tree: the tokens that the grammar asks for, with a blank behind each. Expressions
have parentheses only where their levels require them.

* `Level.tightness`, `Level.ofOperator`, `wrapped`: how tight an expression is, and parentheses for
  one that is not tight enough;
* `Expression.tokens`, `Statement.tokens`, `Declaration.tokens`: the tokens of a tree;
* `Program.render`: the text;
* **`Program.WellFormed.isWritable`**: the tokens of a well-formed program can be written.
-/

namespace LusoPascal

/-- The token of a kind that is always spelled the same. -/
def TokenKind.token (kind : TokenKind) : Token := ⟨kind, .text (kind.spelling?.getD "")⟩

def nameToken (name : String) : Token := ⟨.identifier, .text name⟩

/-- Pieces with a token of one kind between each two. -/
def joined (separator : TokenKind) : List (List Token) → List Token
  | [] => []
  | [tokens] => tokens
  | tokens :: more :: rest => tokens ++ separator.token :: joined separator (more :: rest)

/-- Tokens between parentheses. -/
def parenthesized (tokens : List Token) : List Token :=
  TokenKind.leftParen.token :: (tokens ++ [TokenKind.rightParen.token])

/-! ## Expressions -/

namespace Level

/-- How tightly the operators of a level bind. -/
def tightness : Level → Nat
  | relation => 0
  | simple => 1
  | term => 2
  | factor => 3

/-- The level of the expressions that an operator between two operands makes. -/
def ofOperator (kind : TokenKind) : Level :=
  if kind.isRelational then relation else if kind.isAdditive then simple else term

/-- The level at which the left operand stands. -/
def left : Level → Level
  | relation => simple
  | level => level

/-- The level at which the right operand stands. -/
def right : Level → Level
  | relation => simple
  | simple => term
  | _ => factor

end Level

/-- Parentheses for an expression that is looser than the level at which it stands. -/
def wrapped (level own : Level) (tokens : List Token) : List Token :=
  if own.tightness < level.tightness then parenthesized tokens else tokens

/-- The tokens of an expression that stands at a level. -/
def Expression.tokens (level : Level) : Expression → List Token
  | binary left op right =>
    let own := Level.ofOperator op.kind
    wrapped level own (left.tokens own.left ++ op :: right.tokens own.right)
  | unary op operand =>
    if op.kind = .nao then op :: operand.tokens .factor
    else wrapped level .simple (op :: operand.tokens .term)
  | number value => [⟨.integerLiteral, .integer value⟩]
  | boolean value => [⟨.booleanLiteral, .boolean value⟩]
  | var ident => [nameToken ident.name]

/-! ## Commands -/

/-- The tokens behind the name of a procedure that is called. -/
def argumentTokens : List String → List Token
  | [] => []
  | names => parenthesized (joined .comma (names.map fun name => [nameToken name]))

namespace Statement

mutual

def tokens : Statement → List Token
  | compound children =>
    TokenKind.inicio.token :: (listTokens children ++ [TokenKind.fim.token])
  | assign target _ value =>
    nameToken target.name :: TokenKind.assign.token :: value.tokens .relation
  | ifThen condition thenBranch =>
    TokenKind.se.token :: (condition.tokens .relation ++
      TokenKind.entao.token :: thenBranch.tokens)
  | ifThenElse condition thenBranch elseBranch =>
    TokenKind.se.token :: (condition.tokens .relation ++
      TokenKind.entao.token :: (thenBranch.tokens ++
        TokenKind.senao.token :: elseBranch.tokens))
  | loop condition body =>
    TokenKind.enquanto.token :: (condition.tokens .relation ++
      TokenKind.faca.token :: body.tokens)
  | call procedureCall => nameToken procedureCall.name :: argumentTokens procedureCall.args
  | empty => []

/-- The tokens of commands, with semicolons between them. -/
def listTokens : List Statement → List Token
  | [] => []
  | s :: ss => s.tokens ++ restTokens ss

/-- The tokens of commands, with a semicolon before each. -/
def restTokens : List Statement → List Token
  | [] => []
  | s :: ss => TokenKind.semicolon.token :: (s.tokens ++ restTokens ss)

end

end Statement

/-! ## Declarations -/

def TypedIdentifier.tokens (param : TypedIdentifier) : List Token :=
  [nameToken param.ident.name, TokenKind.colon.token, param.type.token]

/-- The tokens between the name of a procedure and the semicolon behind its heading. -/
def parameterTokens : List TypedIdentifier → List Token
  | [] => []
  | params => parenthesized (joined .semicolon (params.map TypedIdentifier.tokens))

namespace Declaration

mutual

def tokens : Declaration → List Token
  | var entry => [entry.type.token, nameToken entry.ident.name, TokenKind.semicolon.token]
  | procedure heading declarations body =>
    TokenKind.procedimento.token :: nameToken heading.name :: (parameterTokens heading.params ++
      TokenKind.semicolon.token :: (allTokens declarations ++
        (Statement.compound body).tokens ++ [TokenKind.semicolon.token]))

def allTokens : List Declaration → List Token
  | [] => []
  | d :: ds => d.tokens ++ allTokens ds

end

end Declaration

def Block.tokens (block : Block) : List Token :=
  Declaration.allTokens block.declarations ++ (Statement.compound block.body).tokens

/-- The tokens of a program. -/
def Program.tokens (program : Program) : List Token :=
  TokenKind.program.token :: nameToken program.name :: TokenKind.semicolon.token ::
    (program.block.tokens ++ [TokenKind.dot.token])

/-- The text of a program, on one line. -/
def Program.render (program : Program) : String := String.ofList (written program.tokens)

/-! ## Rendered trees can be written -/

/-- All of some tokens can be written. -/
def AllWritable (tokens : List Token) : Prop := ∀ token ∈ tokens, token.IsWritable

section AllWritable

variable {tokens more : List Token} {token : Token} {kind : TokenKind}

@[simp] theorem allWritable_nil : AllWritable [] := by simp [AllWritable]

@[simp] theorem allWritable_cons :
    AllWritable (token :: tokens) ↔ token.IsWritable ∧ AllWritable tokens := List.forall_mem_cons

@[simp] theorem allWritable_append :
    AllWritable (tokens ++ more) ↔ AllWritable tokens ∧ AllWritable more := List.forall_mem_append

theorem Token.IsSpelled.isWritable {kinds : List TokenKind} (h : token.IsSpelled kinds) :
    token.IsWritable := by
  obtain ⟨kind, lexeme⟩ := token
  obtain ⟨-, spelling, hs, rfl⟩ := h
  refine ⟨.fixed hs, ?_⟩
  rintro rfl
  cases hs

theorem TokenKind.token_isSpelled {kinds : List TokenKind} (hmem : kind ∈ kinds)
    (h : kind.spelling?.isSome = true) : kind.token.IsSpelled kinds := by
  obtain ⟨spelling, hs⟩ := Option.isSome_iff_exists.mp h
  exact ⟨hmem, spelling, hs, by rw [token, hs]; rfl⟩

theorem TokenKind.token_isWritable (h : kind.spelling?.isSome = true) :
    kind.token.IsWritable :=
  (token_isSpelled (List.mem_singleton_self kind) h).isWritable

theorem nameToken_isWritable {name : String} (h : IsName name) : (nameToken name).IsWritable :=
  ⟨.identifier h, by simp [nameToken]⟩

theorem allWritable_parenthesized :
    AllWritable (parenthesized tokens) ↔ AllWritable tokens := by
  rw [parenthesized, allWritable_cons, allWritable_append, allWritable_cons]
  exact ⟨fun h => h.2.1, fun h => ⟨TokenKind.token_isWritable rfl, h,
    TokenKind.token_isWritable rfl, allWritable_nil⟩⟩

theorem allWritable_wrapped {level own : Level} (h : AllWritable tokens) :
    AllWritable (wrapped level own tokens) := by
  rw [wrapped]
  split
  · exact allWritable_parenthesized.mpr h
  · exact h

theorem allWritable_joined (hk : kind.spelling?.isSome = true) {pieces : List (List Token)}
    (h : ∀ piece ∈ pieces, AllWritable piece) : AllWritable (joined kind pieces) := by
  match pieces with
  | [] => exact allWritable_nil
  | [piece] => exact h piece (List.mem_singleton_self piece)
  | piece :: more :: rest =>
    rw [List.forall_mem_cons] at h
    rw [joined, allWritable_append, allWritable_cons]
    exact ⟨h.1, TokenKind.token_isWritable hk, allWritable_joined hk h.2⟩

end AllWritable

theorem Expression.WellFormed.isWritable {x : Expression} (h : x.WellFormed) (level : Level) :
    AllWritable (x.tokens level) := by
  induction x generalizing level with
  | binary left op right ihl ihr =>
    obtain ⟨hop, hl, hr⟩ := h
    refine allWritable_wrapped ?_
    rw [allWritable_append, allWritable_cons]
    exact ⟨ihl hl _, hop.isWritable, ihr hr _⟩
  | unary op operand ih =>
    obtain ⟨hop, hx⟩ := h
    rw [tokens]
    split
    · exact allWritable_cons.mpr ⟨hop.isWritable, ih hx _⟩
    · exact allWritable_wrapped (allWritable_cons.mpr ⟨hop.isWritable, ih hx _⟩)
  | number value =>
    obtain ⟨hpos, hle⟩ := h
    obtain ⟨n, rfl⟩ := Int.eq_ofNat_of_zero_le hpos
    refine allWritable_cons.mpr ⟨⟨.integer (Int.ofNat_le.mp hle), ?_⟩, allWritable_nil⟩
    simp
  | boolean => exact absurd h (by simp [WellFormed])
  | var ident => exact allWritable_cons.mpr ⟨nameToken_isWritable h.isName, allWritable_nil⟩

theorem Expression.WellFormedValue.isWritable {x : Expression} (h : x.WellFormedValue) :
    AllWritable (x.tokens .relation) := by
  cases x with
  | boolean value => exact allWritable_cons.mpr ⟨⟨.boolean value, by simp⟩, allWritable_nil⟩
  | _ => exact WellFormed.isWritable h _

theorem allWritable_argumentTokens {names : List String} (h : ∀ name ∈ names, IsName name) :
    AllWritable (argumentTokens names) := by
  match names with
  | [] => exact allWritable_nil
  | name :: names =>
    refine allWritable_parenthesized.mpr (allWritable_joined rfl ?_)
    simp only [List.forall_mem_map, allWritable_cons, allWritable_nil, and_true]
    exact fun name hname => nameToken_isWritable (h name hname)

namespace Statement

mutual

theorem WellFormed.isWritable (s : Statement) (h : s.WellFormed) : AllWritable s.tokens := by
  match s with
  | compound children =>
    rw [WellFormed] at h
    rw [tokens, allWritable_cons, allWritable_append, allWritable_cons]
    exact ⟨TokenKind.token_isWritable rfl, AllWellFormed.isWritable_listTokens children h.2,
      TokenKind.token_isWritable rfl, allWritable_nil⟩
  | assign target op value =>
    rw [WellFormed] at h
    rw [tokens, allWritable_cons, allWritable_cons]
    exact ⟨nameToken_isWritable h.1.isName, TokenKind.token_isWritable rfl, h.2.2.isWritable⟩
  | ifThen condition thenBranch =>
    rw [WellFormed] at h
    rw [tokens, allWritable_cons, allWritable_append, allWritable_cons]
    exact ⟨TokenKind.token_isWritable rfl, h.1.isWritable _, TokenKind.token_isWritable rfl,
      WellFormed.isWritable thenBranch h.2⟩
  | ifThenElse condition thenBranch elseBranch =>
    rw [WellFormed] at h
    obtain ⟨hc, hs, -, hs'⟩ := h
    rw [tokens, allWritable_cons, allWritable_append, allWritable_cons, allWritable_append,
      allWritable_cons]
    exact ⟨TokenKind.token_isWritable rfl, hc.isWritable _, TokenKind.token_isWritable rfl,
      WellFormed.isWritable thenBranch hs, TokenKind.token_isWritable rfl,
      WellFormed.isWritable elseBranch hs'⟩
  | loop condition body =>
    rw [WellFormed] at h
    rw [tokens, allWritable_cons, allWritable_append, allWritable_cons]
    exact ⟨TokenKind.token_isWritable rfl, h.1.isWritable _, TokenKind.token_isWritable rfl,
      WellFormed.isWritable body h.2⟩
  | call procedureCall =>
    rw [WellFormed] at h
    rw [tokens, allWritable_cons]
    exact ⟨nameToken_isWritable h.1, allWritable_argumentTokens h.2⟩
  | empty => exact allWritable_nil

theorem AllWellFormed.isWritable_listTokens (ss : List Statement) (h : AllWellFormed ss) :
    AllWritable (listTokens ss) := by
  match ss with
  | [] => exact allWritable_nil
  | s :: ss =>
    rw [listTokens, allWritable_append]
    exact ⟨WellFormed.isWritable s h.1, AllWellFormed.isWritable_restTokens ss h.2⟩

theorem AllWellFormed.isWritable_restTokens (ss : List Statement) (h : AllWellFormed ss) :
    AllWritable (restTokens ss) := by
  match ss with
  | [] => exact allWritable_nil
  | s :: ss =>
    rw [restTokens, allWritable_cons, allWritable_append]
    exact ⟨TokenKind.token_isWritable rfl, WellFormed.isWritable s h.1,
      AllWellFormed.isWritable_restTokens ss h.2⟩

end

end Statement

theorem TypedIdentifier.WellFormed.isWritable {param : TypedIdentifier} (h : param.WellFormed) :
    AllWritable param.tokens := by
  rw [tokens, allWritable_cons, allWritable_cons, allWritable_cons]
  exact ⟨nameToken_isWritable h.ident.isName, TokenKind.token_isWritable rfl,
    h.type.isWritable, allWritable_nil⟩

theorem allWritable_parameterTokens {params : List TypedIdentifier}
    (h : ∀ param ∈ params, param.WellFormed) : AllWritable (parameterTokens params) := by
  match params with
  | [] => exact allWritable_nil
  | param :: params =>
    refine allWritable_parenthesized.mpr (allWritable_joined rfl ?_)
    rw [List.forall_mem_map]
    exact fun param hparam => (h param hparam).isWritable

theorem allWritable_body {body : List Statement}
    (h : body ≠ [] ∧ Statement.AllWellFormed body) :
    AllWritable (Statement.compound body).tokens :=
  Statement.WellFormed.isWritable _ (by rwa [Statement.WellFormed])

namespace Declaration

mutual

theorem WellFormed.isWritable (d : Declaration) (h : d.WellFormed) : AllWritable d.tokens := by
  match d with
  | var entry =>
    rw [WellFormed] at h
    rw [tokens, allWritable_cons, allWritable_cons, allWritable_cons]
    exact ⟨h.type.isWritable, nameToken_isWritable h.ident.isName, TokenKind.token_isWritable rfl,
      allWritable_nil⟩
  | procedure heading declarations body =>
    rw [WellFormed] at h
    obtain ⟨⟨hname, hparams⟩, ⟨-, hds⟩, hbody⟩ := h
    rw [tokens, allWritable_cons, allWritable_cons, allWritable_append, allWritable_cons,
      allWritable_append, allWritable_append, allWritable_cons]
    exact ⟨TokenKind.token_isWritable rfl, nameToken_isWritable hname,
      allWritable_parameterTokens hparams, TokenKind.token_isWritable rfl,
      ⟨AllWellFormed.isWritable declarations hds, allWritable_body hbody⟩,
      TokenKind.token_isWritable rfl, allWritable_nil⟩

theorem AllWellFormed.isWritable (ds : List Declaration) (h : AllWellFormed ds) :
    AllWritable (allTokens ds) := by
  match ds with
  | [] => exact allWritable_nil
  | d :: ds =>
    rw [allTokens, allWritable_append]
    exact ⟨WellFormed.isWritable d h.1, AllWellFormed.isWritable ds h.2⟩

end

end Declaration

/-- **The tokens of a well-formed program can be written.** -/
theorem Program.WellFormed.isWritable {program : Program} (h : program.WellFormed) :
    AllWritable program.tokens := by
  obtain ⟨hname, ⟨-, hds⟩, hbody⟩ := h
  rw [tokens, allWritable_cons, allWritable_cons, allWritable_cons, allWritable_append,
    allWritable_cons, Block.tokens, allWritable_append]
  exact ⟨TokenKind.token_isWritable rfl, nameToken_isWritable hname,
    TokenKind.token_isWritable rfl, ⟨hds.isWritable, allWritable_body hbody⟩,
    TokenKind.token_isWritable rfl, allWritable_nil⟩

end LusoPascal
