import LusoPascal.Proofs.Grammar.Program
import LusoPascal.Proofs.Run.Parallel
import LusoPascal.Proofs.Token.Shift
import LusoPascal.Proofs.Tree.Reline

/-!
# Every production reads alike further down

A production that starts some lines further down, with a longer record, consumes the same tokens
and ends in the same way. All lines that it hands out are greater by these lines: in trees, in errors
and in the record.

* `Reader.later`, `Halt.later`: a reader and a halt some lines further down;
* `Shifts`: two productions of which the second one runs further down;
* **`Shifts.take`**, `Shifts.expect`, `Shifts.separated`, and the like: the steps and repetitions;
* `expression_shifts`, `statement_shifts`, `block_shifts`: the productions;
* **`Reader.parse_later`**: whole programs.
-/

namespace LusoPascal

section Later

variable (lines : Nat)

def SyntaxError.later (error : SyntaxError) : SyntaxError :=
  ⟨error.defect, error.found.later lines⟩

def ParseError.later : ParseError → ParseError
  | lexical error => lexical (error.later lines)
  | syntactic error => syntactic (error.later lines)

def Halt.later : Halt → Halt
  | rejected error => rejected (error.later lines)
  | spent => spent

/-- A reader some lines further down, with a record in front of its own. -/
def Reader.later (log : Array Located) (reader : Reader) : Reader :=
  ⟨reader.ahead.later lines, reader.cursor.later lines,
    log ++ reader.consumed.map (Located.later lines)⟩

end Later

namespace Production

variable {α β : Type}

/-- The second production, started some lines further down, runs as the first one does, and its
result is a view of that of the first. -/
abbrev Shifts (lines : Nat) (log : Array Located) (p : Production α) (p' : Production β)
    (view : α → β) : Prop :=
  Parallel (fun reader reader' => reader' = reader.later lines log)
    (fun halt halt' => halt' = halt.later lines) (fun a b => b = view a) p p'

/-! ## Steps -/

namespace Shifts

variable {α' β' : Type} {lines : Nat} {log : Array Located} {p : Production α} {p' : Production α'}
  {q : α → Production β} {q' : α' → Production β'} {view : α → α'} {view' : β → β'}

theorem pure {a : α} {b : α'} (h : b = view a) : Shifts lines log (pure a) (pure b) view :=
  Parallel.pure h

theorem spent : Shifts lines log spent spent view := Parallel.throw rfl

theorem bind (hp : Shifts lines log p p' view)
    (hq : ∀ a, Shifts lines log (q a) (q' (view a)) view') :
    Shifts lines log (p >>= q) (p' >>= q') view' :=
  Parallel.bind hp fun a _ ha => ha ▸ hq a

theorem map {g : α → β} {g' : α' → β'} (hp : Shifts lines log p p' view)
    (h : ∀ a, g' (view a) = view' (g a)) : Shifts lines log (g <$> p) (g' <$> p') view' :=
  Parallel.map hp fun a _ ha => ha ▸ h a

theorem discard (hp : Shifts lines log p p' view) :
    Shifts lines log (discard p) (discard p') id :=
  hp.map fun _ => rfl

theorem reject {defect : Defect} : Shifts lines log (reject defect) (reject defect) view := by
  rintro reader _ rfl
  exact .error rfl rfl

theorem ahead : Shifts lines log ahead ahead id := by
  rintro reader _ rfl
  exact .ok rfl rfl

theorem line : Shifts lines log line line (· + lines) := by
  rintro reader _ rfl
  exact .ok rfl rfl

theorem isAhead (kind : TokenKind) : Shifts lines log (isAhead kind) (isAhead kind) id := by
  rintro reader _ rfl
  exact .ok rfl rfl

theorem assignAhead : Shifts lines log assignAhead assignAhead id := by
  rintro reader _ rfl
  exact .ok rfl rfl

/-- **The token ahead is consumed in both places**, and the same fault may stand behind it. -/
theorem take : Shifts lines log take take id := by
  rintro reader _ rfl
  have hconsumed : (reader.later lines log).consumed.push (reader.later lines log).ahead =
      log ++ (reader.consumed.push reader.ahead).map (Located.later lines) := by
    rw [Array.map_push, Array.append_push]
    rfl
  have hnext : (reader.later lines log).cursor.next = _ := reader.cursor.next_later lines
  rw [take_apply, take_apply, hconsumed, hnext]
  rcases reader.cursor.next with ⟨error | located, cursor⟩
  · exact .error rfl rfl
  · exact .ok rfl rfl

theorem expect (kind : TokenKind) : Shifts lines log (expect kind) (expect kind) id :=
  (isAhead kind).bind fun _ => Parallel.ite take reject

theorem ifAhead {kind : TokenKind} {a : α} {b : α'} (hp : Shifts lines log p p' view)
    (h : b = view a) :
    Shifts lines log (ifAhead kind p a) (Production.ifAhead kind p' b) view :=
  (isAhead kind).bind fun _ => Parallel.ite hp (pure h)

/-! ## Repetitions -/

theorem separated {separator : TokenKind} (hp : Shifts lines log p p' view) : ∀ budget,
    Shifts lines log (separated separator p budget) (Production.separated separator p' budget)
      (List.map view)
  | 0 => spent
  | budget + 1 => by
    refine hp.bind fun a => (isAhead separator).bind fun _ => Parallel.ite ?_ (pure rfl)
    exact take.discard.bind fun _ => (separated hp budget).bind fun as => pure rfl

theorem whileAhead {begins : TokenKind → Bool} (hp : Shifts lines log p p' view) : ∀ budget,
    Shifts lines log (whileAhead begins p budget) (Production.whileAhead begins p' budget)
      (List.map view)
  | 0 => spent
  | budget + 1 => by
    refine ahead.bind fun token => Parallel.ite ?_ (pure rfl)
    exact hp.bind fun a => (whileAhead hp budget).bind fun as => pure rfl

theorem chain {isOperator : TokenKind → Bool} {combine : α → Token → α → α}
    {combine' : α' → Token → α' → α'} (hp : Shifts lines log p p' view)
    (hcombine : ∀ left op right,
      combine' (view left) op (view right) = view (combine left op right)) :
    ∀ budget left, Shifts lines log (chain isOperator combine p budget left)
      (Production.chain isOperator combine' p' budget (view left)) view
  | 0, _ => spent
  | budget + 1, left => by
    refine ahead.bind fun token => Parallel.ite ?_ (pure rfl)
    refine take.bind fun op => hp.bind fun right => ?_
    rw [id, hcombine]
    exact chain hp hcombine budget _

end Shifts

/-! ## Expressions -/

section Productions

variable {lines : Nat} {log : Array Located}

theorem identifier_shifts :
    Shifts lines log identifier identifier (Identifier.reline (· + lines)) :=
  Shifts.line.bind fun _ => (Shifts.expect .identifier).bind fun _ => .pure rfl

section Levels

variable {factor : Production Expression}
  (hfactor : Shifts lines log factor factor (Expression.reline (· + lines))) (budget : Nat)

include hfactor

theorem term_shifts :
    Shifts lines log (term factor budget) (term factor budget) (Expression.reline (· + lines)) :=
  hfactor.bind fun _ => hfactor.chain (fun _ _ _ => rfl) budget _

theorem simpleExpression_shifts :
    Shifts lines log (simpleExpression factor budget) (simpleExpression factor budget)
      (Expression.reline (· + lines)) := by
  have hterm := term_shifts hfactor budget
  refine Shifts.ahead.bind fun token => ?_
  dsimp only [id]
  split
  · refine Shifts.take.bind fun sign => hterm.bind fun x => ?_
    exact (Shifts.pure rfl).bind fun _ => hterm.chain (fun _ _ _ => rfl) budget _
  · exact hterm.bind fun _ => hterm.chain (fun _ _ _ => rfl) budget _

theorem relation_shifts :
    Shifts lines log (relation factor budget) (relation factor budget)
      (Expression.reline (· + lines)) := by
  have hsimple := simpleExpression_shifts hfactor budget
  refine hsimple.bind fun left => Shifts.ahead.bind fun token => Parallel.ite ?_ (.pure rfl)
  exact Shifts.take.bind fun op => hsimple.bind fun right => .pure rfl

end Levels

theorem factor_shifts : ∀ budget,
    Shifts lines log (factor budget) (factor budget) (Expression.reline (· + lines))
  | 0 => .spent
  | budget + 1 => by
    have ih := factor_shifts budget
    refine Shifts.ahead.bind fun token => ?_
    dsimp only [id]
    split
    · exact (Shifts.expect _).discard.bind fun _ => .pure rfl
    · refine Shifts.take.discard.bind fun _ => (relation_shifts ih budget).bind fun x => ?_
      exact (Shifts.expect _).discard.bind fun _ => .pure rfl
    · exact Shifts.take.bind fun op => ih.bind fun x => .pure rfl
    · exact identifier_shifts.bind fun _ => .pure rfl

theorem expression_shifts (budget : Nat) :
    Shifts lines log (expression budget) (expression budget) (Expression.reline (· + lines)) :=
  relation_shifts (factor_shifts budget) budget

/-! ## Commands -/

theorem assignedValue_shifts (budget : Nat) :
    Shifts lines log (assignedValue budget) (assignedValue budget)
      (Expression.reline (· + lines)) :=
  (Shifts.isAhead _).bind fun _ =>
    Parallel.ite (Shifts.take.bind fun _ => .pure rfl) (expression_shifts budget)

theorem assignment_shifts (budget : Nat) :
    Shifts lines log (assignment budget) (assignment budget) (Statement.reline (· + lines)) :=
  identifier_shifts.bind fun target => (Shifts.expect _).bind fun op =>
    (assignedValue_shifts budget).bind fun x => .pure (by rw [Statement.reline]; rfl)

theorem arguments_shifts (budget : Nat) :
    Shifts lines log (arguments budget) (arguments budget) id := by
  have hname : Shifts lines log (Token.text <$> expect .identifier)
      (Token.text <$> expect .identifier) id := (Shifts.expect .identifier).map fun _ => rfl
  have hnames : Shifts lines log (separated .comma (Token.text <$> expect .identifier) budget)
      (separated .comma (Token.text <$> expect .identifier) budget) (List.map id) :=
    hname.separated budget
  rw [List.map_id_fun] at hnames
  rw [arguments_eq]
  refine (Shifts.expect _).discard.bind fun _ => (hnames.ifAhead rfl).bind fun names => ?_
  exact (Shifts.expect _).discard.bind fun _ => .pure rfl

theorem call_shifts (budget : Nat) :
    Shifts lines log (call budget) (call budget) (Call.reline (· + lines)) := by
  rw [call_eq]
  refine Shifts.line.bind fun line => (Shifts.expect _).bind fun name => ?_
  exact ((arguments_shifts budget).ifAhead rfl).bind fun args => .pure rfl

section Nested

variable {item : Production Statement}
  (hitem : Shifts lines log item item (Statement.reline (· + lines))) (budget : Nat)

include hitem

theorem compound_shifts :
    Shifts lines log (compound item budget) (compound item budget)
      (Statement.relineAll (· + lines)) := by
  refine (Shifts.expect _).discard.bind fun _ => (hitem.separated budget).bind fun ss => ?_
  rw [← Statement.relineAll_eq_map]
  have hclose : Shifts lines log (do discard (expect .fim); return ss)
      (do discard (expect .fim); return Statement.relineAll (· + lines) ss)
      (Statement.relineAll (· + lines)) := (Shifts.expect _).discard.bind fun _ => .pure rfl
  have hstray : Shifts lines log (reject .strayIdentifier : Production Unit)
      (reject .strayIdentifier) id := Shifts.reject
  exact (Shifts.isAhead _).bind fun _ => Parallel.ite (hstray.bind fun _ => hclose) hclose

theorem conditional_shifts :
    Shifts lines log (conditional item budget) (conditional item budget)
      (Statement.reline (· + lines)) := by
  refine (Shifts.expect _).discard.bind fun _ => (expression_shifts budget).bind fun c => ?_
  refine (Shifts.expect _).discard.bind fun _ => hitem.bind fun s => ?_
  refine (Shifts.isAhead _).bind fun _ => Parallel.ite ?_ (.pure (by rw [Statement.reline]))
  refine Shifts.take.discard.bind fun _ => hitem.bind fun t => .pure ?_
  rw [Statement.reline]

theorem loop_shifts :
    Shifts lines log (loop item budget) (loop item budget) (Statement.reline (· + lines)) := by
  refine (Shifts.expect _).discard.bind fun _ => (expression_shifts budget).bind fun c => ?_
  refine (Shifts.expect _).discard.bind fun _ => hitem.bind fun s => .pure ?_
  rw [Statement.reline]

end Nested

theorem statement_shifts : ∀ budget,
    Shifts lines log (statement budget) (statement budget) (Statement.reline (· + lines))
  | 0 => .spent
  | budget + 1 => by
    have ih := statement_shifts budget
    refine Shifts.ahead.bind fun token => ?_
    dsimp only [id]
    split
    · exact (compound_shifts ih budget).bind fun ss => .pure (by rw [Statement.reline])
    · refine Shifts.assignAhead.bind fun _ => Parallel.ite (assignment_shifts budget) ?_
      exact (call_shifts budget).bind fun call => .pure (by rw [Statement.reline])
    · exact conditional_shifts ih budget
    · exact loop_shifts ih budget
    · exact .pure (by rw [Statement.reline])

/-! ## Declarations -/

theorem typeName_shifts : Shifts lines log typeName typeName id :=
  Shifts.ahead.bind fun _ => Parallel.ite (Shifts.take.bind fun _ => .pure rfl) Shifts.reject

theorem marker_shifts : Shifts lines log marker marker id := Shifts.take.discard.ifAhead rfl

theorem declarator_shifts (budget : Nat) :
    Shifts lines log (declarator budget) (declarator budget)
      (Identifier.reline (· + lines)) := by
  have hinitializer : Shifts lines log (initializer budget) (initializer budget) id :=
    (Shifts.take.discard.bind fun _ => (expression_shifts budget).discard).ifAhead rfl
  rw [declarator_eq]
  exact identifier_shifts.bind fun ident => hinitializer.bind fun _ => .pure rfl

theorem variableGroup_shifts (budget : Nat) :
    Shifts lines log (variableGroup budget) (variableGroup budget)
      (List.map (Declaration.reline (· + lines))) := by
  rw [variableGroup_eq]
  refine marker_shifts.bind fun _ => typeName_shifts.bind fun type => ?_
  refine ((declarator_shifts budget).separated budget).bind fun idents => ?_
  refine (Shifts.expect _).discard.bind fun _ => .pure ?_
  rw [List.map_map, List.map_map]
  rfl

theorem parameterGroup_shifts (budget : Nat) :
    Shifts lines log (parameterGroup budget) (parameterGroup budget)
      (List.map (TypedIdentifier.reline (· + lines))) := by
  rw [parameterGroup_eq]
  refine marker_shifts.bind fun _ => (identifier_shifts.separated budget).bind fun idents => ?_
  refine (Shifts.expect _).discard.bind fun _ => typeName_shifts.bind fun type => .pure ?_
  rw [List.map_map, List.map_map]
  rfl

theorem parameters_shifts (budget : Nat) :
    Shifts lines log (parameters budget) (parameters budget)
      (List.map (TypedIdentifier.reline (· + lines))) := by
  refine (Shifts.expect _).discard.bind fun _ => ?_
  refine ((parameterGroup_shifts budget).separated budget).bind fun groups => ?_
  exact (Shifts.expect _).discard.bind fun _ => .pure List.map_flatten.symm

section Nested

variable {block : Production Block}
  (hblock : Shifts lines log block block (Block.reline (· + lines))) (budget : Nat)

include hblock

theorem procedure_shifts :
    Shifts lines log (procedure block budget) (procedure block budget)
      (Declaration.reline (· + lines)) := by
  rw [procedure_eq]
  refine Shifts.line.bind fun line => (Shifts.expect _).discard.bind fun _ => ?_
  refine (Shifts.expect _).bind fun name => ((parameters_shifts budget).ifAhead rfl).bind
    fun params => ?_
  refine (Shifts.expect _).discard.bind fun _ => hblock.bind fun body => ?_
  refine (Shifts.expect _).discard.bind fun _ => .pure ?_
  rw [Declaration.reline]
  rfl

theorem declarations_shifts :
    Shifts lines log (declarations block budget) (declarations block budget)
      (Declaration.relineAll (· + lines)) := by
  refine ((variableGroup_shifts budget).whileAhead budget).bind fun groups => ?_
  refine ((procedure_shifts hblock budget).whileAhead budget).bind fun procedures => .pure ?_
  rw [Declaration.relineAll_eq_map, List.map_append, List.map_flatten]

end Nested

theorem block_shifts : ∀ budget,
    Shifts lines log (block budget) (block budget) (Block.reline (· + lines))
  | 0 => .spent
  | budget + 1 => (declarations_shifts (block_shifts budget) budget).bind fun _ =>
      (compound_shifts (statement_shifts budget) budget).bind fun _ => .pure rfl

theorem program_shifts (budget : Nat) :
    Shifts lines log (program budget) (program budget) (Program.reline (· + lines)) := by
  refine (Shifts.expect _).discard.bind fun _ => identifier_shifts.bind fun name => ?_
  refine (Shifts.expect _).discard.bind fun _ => (block_shifts budget).bind fun block => ?_
  exact (Shifts.expect _).discard.bind fun _ => .pure rfl

end Productions

end Production

/-- **A program further down** is the same one on later lines, or is rejected in the same way. -/
theorem Reader.parse_later (lines : Nat) (log : Array Located) (reader : Reader) :
    (reader.later lines log).parse =
      ((reader.parse.1.mapError (ParseError.later lines)).map (Program.reline (· + lines)),
        reader.parse.2.later lines log) := by
  have hshifts : Production.Shifts lines log (Production.program reader.budget) _ _ :=
    Production.program_shifts reader.budget
  have hrun := hshifts (rfl : reader.later lines log = reader.later lines log)
  have hbudget : (reader.later lines log).budget = reader.budget := rfl
  rw [parse, parse, hbudget]
  generalize Production.program reader.budget reader = result at hrun ⊢
  generalize Production.program reader.budget (reader.later lines log) = result' at hrun ⊢
  cases hrun with
  | ok hvalue hstate => subst hvalue hstate; rfl
  | @error halt _ _ _ herror hstate =>
    subst herror hstate
    cases halt <;> rfl

end LusoPascal
