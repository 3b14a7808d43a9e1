import LusoPascal.Proofs.Analysis.Discipline
import LusoPascal.Proofs.Analysis.Strictness

/-!
# An analysis is a stack discipline

A declaration that is accepted files one symbol in the scope where it stands, behind what that scope
files already, and changes no other scope. So an accepted program leaves no scope open, and a
rejected one leaves open the scope of the program and those of the procedures in which it is
rejected.

* `Scope.add`: a scope with more symbols behind all others;
* `Declaration.Declares`: the symbol that a declaration files, with the types of its parameters;
* **`declaration_adds`**: what an accepted declaration does to the open scopes;
* `Part`, `Comes`: the parts that an analysis comes to, and the procedures that are open there;
* **`block_stops`**, **`exists_part_of_error`**: where an analysis fails, and what is open there;
* **`Program.analyze_keeps_stack`**: whole programs.
-/

namespace LusoPascal

/-! ## Scopes with more symbols -/

theorem fileUnder_of_new {α : Type} {name : String} {bindings : List (String × α)}
    (h : bindings.lookup name = none) (value : α) :
    fileUnder name value bindings = bindings ++ [(name, value)] := by
  induction bindings with
  | nil => rfl
  | cons entry rest ih =>
    obtain ⟨key, old⟩ := entry
    rw [lookup_cons_eq_ite] at h
    by_cases hkey : name = key
    · simp [hkey] at h
    · rw [if_neg hkey] at h
      simp [fileUnder, Ne.symm hkey, ih h]

namespace Scope

variable {scope : Scope} {name : String}

/-- A scope with more symbols, each behind all others under its own name. -/
def add (scope : Scope) (symbols : List Symbol) : Scope :=
  { scope with bindings := scope.bindings ++ symbols.map fun symbol => (symbol.name, symbol) }

@[simp] theorem name_add (scope : Scope) (symbols : List Symbol) :
    (scope.add symbols).name = scope.name := rfl

@[simp] theorem level_add (scope : Scope) (symbols : List Symbol) :
    (scope.add symbols).level = scope.level := rfl

@[simp] theorem add_nil (scope : Scope) : scope.add [] = scope := by
  simp [add]

@[simp] theorem add_add (scope : Scope) (symbols more : List Symbol) :
    (scope.add symbols).add more = scope.add (symbols ++ more) := by
  simp [add]

@[simp] theorem size_add (scope : Scope) (symbols : List Symbol) :
    (scope.add symbols).size = scope.size + symbols.length := by
  simp [add, size]

theorem define_of_new {symbol : Symbol} (h : scope.get? symbol.name = none) :
    scope.define symbol = scope.add [symbol] := by
  rw [define, fileUnder_of_new h]
  rfl

theorem setParams_add (h : scope.get? name = none) (old params : List TypedName) :
    (scope.add [.procedure name old]).setParams name params =
      scope.add [.procedure name params] := by
  have hkeep : ∀ entry ∈ scope.bindings,
      (if entry.1 == name then (entry.1, entry.2.withParams params) else entry) = entry := by
    intro entry hentry
    have hne := List.lookup_eq_none_iff.mp h entry hentry
    exact if_neg fun hkey => by simp [eq_of_beq hkey] at hne
  rw [setParams, add, List.map_append, List.map_congr_left hkeep, List.map_id']
  simp [Symbol.name, Symbol.withParams, add]

end Scope

/-! ## What a declaration files -/

/-- A symbol that is no longer filed does not hide others. -/
theorem SymbolTable.lookup?_of_define {scope : Scope} {outer : List Scope} {name : String}
    {symbol found : Symbol} (h : (mk (scope.define symbol :: outer)).lookup? name = some found)
    (hne : found ≠ symbol) : (mk (scope :: outer)).lookup? name = some found := by
  rw [lookup?_cons, Scope.get?_define] at h
  split at h
  · exact absurd (Option.some.inj h).symm hne
  · rwa [lookup?_cons]

/-- A declared name with the type that its word stands for. -/
structure TypedIdentifier.Resolves (table : SymbolTable) (entry : TypedIdentifier)
    (typed : TypedName) : Prop where
  name : typed.name = entry.ident.name
  type : table.lookup? entry.type.name = some (.type typed.type)

/-- Words that stand for types do so before a symbol is filed that is no type. -/
theorem TypedIdentifier.Resolves.of_define {scope : Scope} {outer : List Scope}
    {entry : TypedIdentifier} {typed : TypedName} {symbol : Symbol}
    (h : entry.Resolves ⟨scope.define symbol :: outer⟩ typed)
    (hsymbol : ∀ type, symbol ≠ .type type) : entry.Resolves ⟨scope :: outer⟩ typed :=
  ⟨h.name, SymbolTable.lookup?_of_define h.type (hsymbol _).symm⟩

/-- The symbol that a declaration files: a variable with its type, or a procedure with all its
parameters in order and their types. -/
def Declaration.Declares (table : SymbolTable) : Declaration → Symbol → Prop
  | var entry, symbol => ∃ typed, entry.Resolves table typed ∧ symbol = .var typed
  | procedure heading _ _, symbol => ∃ params,
      List.Forall₂ (TypedIdentifier.Resolves table) heading.params params ∧
        symbol = .procedure heading.name params

namespace Analyzer

variable {before after : Analysis} {scope inside enclosing : Scope} {outer : List Scope}
  {heading : Heading}

theorem declare_adds (entry : TypedIdentifier) (h : before.table = ⟨scope :: outer⟩) :
    Meets (declare entry) before
      (fun typed after => entry.Resolves before.table typed ∧ scope.get? typed.name = none ∧
        after.table = ⟨scope.add [.var typed] :: outer⟩)
      fun _ stop => stop = before := by
  refine (declare_meets entry h).mono ?_ fun error stop hstop => hstop.1
  rintro typed after ⟨hname, htype, hfree, hafter⟩
  rw [← hname] at hfree
  rw [Scope.define_of_new hfree] at hafter
  exact ⟨⟨hname, htype⟩, hfree, hafter⟩

/-- Parameters are filed in order behind what the scope files. Each has the type that its word
stands for before, since no parameter is a type. -/
theorem declareAll_adds (entries : List TypedIdentifier) (h : before.table = ⟨scope :: outer⟩) :
    Meets (declareAll entries) before
      (fun typed after =>
        List.Forall₂ (TypedIdentifier.Resolves before.table) entries typed ∧
          after.table = ⟨scope.add (typed.map .var) :: outer⟩)
      fun _ stop => ∃ symbols, stop.table = ⟨scope.add symbols :: outer⟩ := by
  induction entries generalizing before scope with
  | nil => exact .pure ⟨.nil, by simpa using h⟩
  | cons entry rest ih =>
    refine ((declare_adds entry h).mono (fun _ _ => id) fun _ _ hstop => ?_).bind ?_
    · exact ⟨[], by simpa [hstop] using h⟩
    rintro typed between ⟨hentry, hfree, hbetween⟩
    refine ((ih hbetween).mono (fun _ _ => id) fun _ stop hstop => ?_).bind ?_
    · obtain ⟨symbols, hstop⟩ := hstop
      exact ⟨.var typed :: symbols, by simpa using hstop⟩
    rintro typeds after ⟨hrest, hafter⟩
    refine .pure ⟨.cons hentry ?_, by simpa using hafter⟩
    have hnew : scope.define (.var typed) = scope.add [.var typed] := Scope.define_of_new hfree
    rw [hbetween, ← hnew] at hrest
    rw [h]
    exact hrest.imp fun _ _ hresolves => hresolves.of_define nofun

theorem declareParams_adds (h : before.table = ⟨inside :: enclosing :: outer⟩) :
    Meets (declareParams heading) before
      (fun _ after => ∃ params,
        List.Forall₂ (TypedIdentifier.Resolves before.table) heading.params params ∧
          after.table = ⟨inside.add (params.map .var) ::
            enclosing.setParams heading.name params :: outer⟩)
      fun _ stop => ∃ symbols, stop.table = ⟨inside.add symbols :: enclosing :: outer⟩ := by
  refine (declareAll_adds heading.params h).bind ?_
  rintro params between ⟨hparams, hbetween⟩
  exact (setEnclosingParams_meets heading.name params hbetween).mono
    (fun _ after hafter => ⟨params, hparams, hafter⟩) fun _ _ => id

theorem declaration_procedure_block (strict : Bool) (heading : Heading)
    (inner : List Declaration) (body : List Statement) :
    declaration strict (.procedure heading inner body) = (do
      openProcedure heading
      declareParams heading
      block strict ⟨inner, body⟩
      leave) := by
  rw [declaration_procedure]
  simp only [block, bind_assoc]

section Adds

variable (strict : Bool)

mutual

/-- **An accepted declaration files its symbol** under a new name, behind what the scope files, and
changes no other scope. -/
theorem declaration_adds (d : Declaration) {before : Analysis} {scope : Scope}
    {outer : List Scope} (h : before.table = ⟨scope :: outer⟩) :
    Meets (declaration strict d) before
      (fun _ after => ∃ symbol, d.Declares before.table symbol ∧
        scope.get? symbol.name = none ∧ after.table = ⟨scope.add [symbol] :: outer⟩)
      fun _ _ => True := by
  match d with
  | .var entry =>
    rw [declaration]
    refine ((declare_adds entry h).mono (fun _ _ => id) fun _ _ _ => trivial).bind ?_
    rintro typed after ⟨hentry, hfree, hafter⟩
    exact .pure ⟨.var typed, ⟨typed, hentry, rfl⟩, hfree, hafter⟩
  | .procedure heading inner body =>
    rw [declaration_procedure_block]
    refine ((openProcedure_meets heading h).mono (fun _ _ => id) fun _ _ _ => trivial).bind ?_
    rintro _ opened ⟨hfree, hopened⟩
    refine ((declareParams_adds hopened).mono (fun _ _ => id) fun _ _ _ => trivial).bind ?_
    rintro _ begun ⟨params, hparams, hbegun⟩
    refine (block_adds inner body hbegun).bind ?_
    rintro _ finished ⟨symbols, -, hfinished⟩
    refine (leave_meets hfinished).mono (fun _ after hafter => ?_) fun _ _ => id
    have hnew : scope.define (.procedure heading.name []) =
        scope.add [.procedure heading.name []] := Scope.define_of_new hfree
    refine ⟨.procedure heading.name params, ⟨params, ?_, rfl⟩, hfree, ?_⟩
    · rw [h]
      refine hparams.imp fun param typed hresolves => ?_
      rw [hopened] at hresolves
      exact TypedIdentifier.Resolves.of_define ⟨hresolves.name, hresolves.type⟩ nofun
    · rw [hafter, hnew, Scope.setParams_add hfree]

theorem declarations_add (ds : List Declaration) {before : Analysis} {scope : Scope}
    {outer : List Scope} (h : before.table = ⟨scope :: outer⟩) :
    Meets (declarations strict ds) before
      (fun _ after => ∃ symbols, symbols.length = ds.length ∧
        after.table = ⟨scope.add symbols :: outer⟩)
      fun _ _ => True := by
  match ds with
  | [] => exact .pure ⟨[], rfl, by simpa using h⟩
  | d :: ds =>
    rw [declarations]
    refine (declaration_adds d h).bind ?_
    rintro _ between ⟨symbol, -, -, hbetween⟩
    refine (declarations_add ds hbetween).mono ?_ fun _ _ => id
    rintro _ after ⟨symbols, hlength, hafter⟩
    exact ⟨symbol :: symbols, by simp [hlength], by simpa using hafter⟩

theorem block_adds (ds : List Declaration) (body : List Statement) {before : Analysis}
    {scope : Scope} {outer : List Scope} (h : before.table = ⟨scope :: outer⟩) :
    Meets (block strict ⟨ds, body⟩) before
      (fun _ after => ∃ symbols, symbols.length = ds.length ∧
        after.table = ⟨scope.add symbols :: outer⟩)
      fun _ _ => True := by
  refine (declarations_add ds h).bind ?_
  rintro _ between ⟨symbols, hlength, hbetween⟩
  refine (keeps_inherited.statements strict body between).mono (fun _ after hafter => ?_)
    fun _ _ _ => trivial
  exact ⟨symbols, hlength, hafter ▸ hbetween⟩

end

end Adds

/-! ## Where an analysis fails -/

theorem bind_eq_error {α β : Type} {p : Analyzer α} {q : α → Analyzer β} {error : SemanticError}
    {stop : Analysis} :
    (p >>= q) before = .error error stop ↔
      p before = .error error stop ∨
        ∃ a between, p before = .ok a between ∧ q a between = .error error stop := by
  rw [bind_apply]
  cases p before with
  | ok a between =>
    constructor
    · intro h
      exact .inr ⟨a, between, rfl, h⟩
    · rintro (h | ⟨_, _, ⟨⟩, h⟩)
      · cases h
      · exact h
  | error => simp

/-- The parts that an analysis comes to: a declaration, the parameters of a procedure that is open,
and the commands of a block. -/
inductive Part where
  | declaration (d : Declaration)
  | params (heading : Heading)
  | body (body : List Statement)

/-- The analysis of a part up to the next part. Only the opening of a procedure belongs to the
procedure alone. -/
def Part.step (strict : Bool) : Part → Analyzer Unit
  | declaration (.var entry) => discard (declare entry)
  | declaration (.procedure heading _ _) => openProcedure heading
  | params heading => declareParams heading
  | body ss => statements strict ss

/-- `Comes strict b before path part here`: the analysis of a block, begun in one state, comes to a
part in another one. The procedures of `path`, outermost first, have been opened on the way there
and not been left. -/
inductive Comes (strict : Bool) : Block → Analysis → List Heading → Part → Analysis → Prop
  | declaration {d : Declaration} {ds : List Declaration} {ss : List Statement} {here : Analysis} :
      Comes strict ⟨d :: ds, ss⟩ here [] (.declaration d) here
  | later {d : Declaration} {ds : List Declaration} {ss : List Statement} {path : List Heading}
      {part : Part} {before between here : Analysis}
      (hrun : Analyzer.declaration strict d before = .ok () between)
      (h : Comes strict ⟨ds, ss⟩ between path part here) :
      Comes strict ⟨d :: ds, ss⟩ before path part here
  | params {heading : Heading} {inner ds : List Declaration} {code ss : List Statement}
      {before opened : Analysis} (hopen : openProcedure heading before = .ok () opened) :
      Comes strict ⟨.procedure heading inner code :: ds, ss⟩ before [heading] (.params heading)
        opened
  | inside {heading : Heading} {inner ds : List Declaration} {code ss : List Statement}
      {path : List Heading} {part : Part} {before opened begun here : Analysis}
      (hopen : openProcedure heading before = .ok () opened)
      (hparams : declareParams heading opened = .ok () begun)
      (h : Comes strict ⟨inner, code⟩ begun path part here) :
      Comes strict ⟨.procedure heading inner code :: ds, ss⟩ before (heading :: path) part here
  | body {ss : List Statement} {here : Analysis} : Comes strict ⟨[], ss⟩ here [] (.body ss) here

section Stops

variable (strict : Bool)

mutual

theorem declaration_stops (d : Declaration) {before stop : Analysis} {error : SemanticError}
    (h : declaration strict d before = .error error stop) (ds : List Declaration)
    (ss : List Statement) :
    ∃ path part here, Comes strict ⟨d :: ds, ss⟩ before path part here ∧
      part.step strict here = .error error stop := by
  match d with
  | .var entry => exact ⟨[], _, before, .declaration, h⟩
  | .procedure heading inner body =>
    rw [declaration_procedure_block] at h
    rcases bind_eq_error.mp h with h | ⟨_, opened, hopen, h⟩
    · exact ⟨[], _, before, .declaration, h⟩
    rcases bind_eq_error.mp h with h | ⟨_, begun, hparams, h⟩
    · exact ⟨[heading], _, opened, .params hopen, h⟩
    rcases bind_eq_error.mp h with h | ⟨_, finished, -, h⟩
    · obtain ⟨path, part, here, hcomes, hstop⟩ := block_stops inner body h
      exact ⟨heading :: path, part, here, .inside hopen hparams hcomes, hstop⟩
    · cases h

/-- **An analysis fails in a part that it comes to.** -/
theorem block_stops (ds : List Declaration) (ss : List Statement) {before stop : Analysis}
    {error : SemanticError} (h : block strict ⟨ds, ss⟩ before = .error error stop) :
    ∃ path part here, Comes strict ⟨ds, ss⟩ before path part here ∧
      part.step strict here = .error error stop := by
  match ds with
  | [] => exact ⟨[], .body ss, before, .body, h⟩
  | d :: ds =>
    rw [block, declarations, bind_assoc] at h
    rcases bind_eq_error.mp h with h | ⟨_, between, hrun, h⟩
    · exact declaration_stops d h ds ss
    · obtain ⟨path, part, here, hcomes, hstop⟩ := block_stops ds ss h
      exact ⟨path, part, here, .later hrun hcomes, hstop⟩

end

end Stops

end Analyzer

/-! ## What is open there -/

/-- The names and levels of the open scopes, outermost first. -/
def SymbolTable.labels (table : SymbolTable) : List (String × Nat) :=
  table.scopes.reverse.map fun scope => (scope.name, scope.level)

namespace Analyzer

variable {strict : Bool} {before here stop : Analysis} {scope : Scope} {outer : List Scope}

/-- **Where an analysis comes, the procedures on the way are open**, each one level further in. -/
theorem Comes.labels_eq {b : Block} {path : List Heading} {part : Part}
    (h : Comes strict b before path part here) (hbefore : before.table = ⟨scope :: outer⟩) :
    ∃ scope' outer', here.table = ⟨scope' :: outer'⟩ ∧
      here.table.labels =
        before.table.labels ++ (path.map Heading.name).zipIdx (scope.level + 1) := by
  induction h generalizing scope outer with
  | declaration | body => exact ⟨scope, outer, hbefore, by simp⟩
  | later hrun _ ih =>
    obtain ⟨symbol, -, -, hbetween⟩ := (declaration_adds strict _ hbefore).of_ok hrun
    obtain ⟨scope', outer', hhere, hlabels⟩ := ih hbetween
    refine ⟨scope', outer', hhere, ?_⟩
    rw [hlabels, hbetween, hbefore]
    simp [SymbolTable.labels]
  | params hopen =>
    obtain ⟨-, hopened⟩ := (openProcedure_meets _ hbefore).of_ok hopen
    refine ⟨_, _, hopened, ?_⟩
    rw [hopened, hbefore]
    simp [SymbolTable.labels, Scope.inside, Scope.define]
  | inside hopen hparams _ ih =>
    obtain ⟨-, hopened⟩ := (openProcedure_meets _ hbefore).of_ok hopen
    obtain ⟨params, -, hbegun⟩ := (declareParams_adds hopened).of_ok hparams
    obtain ⟨scope', outer', hhere, hlabels⟩ := ih hbegun
    refine ⟨scope', outer', hhere, ?_⟩
    rw [hlabels, hbegun, hbefore]
    simp [SymbolTable.labels, Scope.inside, Scope.define, Scope.setParams, List.zipIdx_cons]

theorem Part.labels_of_error {part : Part} {error : SemanticError}
    (h : part.step strict here = .error error stop) (hhere : here.table = ⟨scope :: outer⟩) :
    stop.table.labels = here.table.labels := by
  cases part with
  | declaration d =>
    cases d with
    | var entry =>
      rcases bind_eq_error.mp h with h | ⟨_, _, -, h⟩
      · rw [(declare_adds entry hhere).of_error h]
      · cases h
    | procedure heading inner body => rw [((openProcedure_meets heading hhere).of_error h).1]
  | params heading =>
    rcases bind_eq_error.mp h with h | ⟨_, _, -, h⟩
    · obtain ⟨symbols, hstop⟩ := (declareAll_adds heading.params hhere).of_error h
      rw [hstop, hhere]
      simp [SymbolTable.labels]
    · cases h
  | body ss => rw [((keeps_inherited.statements strict ss here).of_error h).1]

/-- Where a block is rejected, the procedures on the way are open, each one level further in. -/
theorem exists_part_of_error {b : Block} {error : SemanticError}
    (h : block strict b before = .error error stop) (hbefore : before.table = ⟨scope :: outer⟩) :
    ∃ path part here, Comes strict b before path part here ∧
      part.step strict here = .error error stop ∧
      stop.table.labels =
        before.table.labels ++ (path.map Heading.name).zipIdx (scope.level + 1) := by
  obtain ⟨path, part, here, hcomes, hstop⟩ := block_stops strict b.declarations b.body h
  obtain ⟨_, _, hhere, hlabels⟩ := hcomes.labels_eq hbefore
  exact ⟨path, part, here, hcomes, hstop, by rw [Part.labels_of_error hstop hhere, hlabels]⟩

end Analyzer

/-! ## Whole programs -/

namespace Program

/-- The analysis of a program comes to a part in a state in which the procedures of a path are
open. -/
def Comes (strict : Bool) (program : Program) (path : List Heading) (part : Analyzer.Part)
    (here : Analysis) : Prop :=
  ∃ start, Analyzer.enter "global" .initial = .ok () start ∧
    Analyzer.Comes strict program.block start path part here

/-- **An analysis is a stack discipline**: commands leave the scopes alone, an accepted declaration
files one symbol, and only a rejected program leaves scopes open. -/
theorem analyze_keeps_stack (strict : Bool) (program : Program) (earlier : Analysis) :
    (∀ s, Analyzer.Keeps (Analyzer.statement strict s)) ∧
    (∀ x, Analyzer.Keeps (Analyzer.expression x)) ∧
    (∀ c params, Analyzer.Keeps (Analyzer.matchSignature c params)) ∧
    (∀ path d here, program.Comes strict path (.declaration d) here →
      ∃ scope outer, here.table = ⟨scope :: outer⟩ ∧
        ∀ after, Analyzer.declaration strict d here = .ok () after →
          ∃ symbol, d.Declares here.table symbol ∧ scope.get? symbol.name = none ∧
            after.table = ⟨scope.add [symbol] :: outer⟩) ∧
    match program.analyze strict earlier with
    | (.ok (), final) => final.table = .empty
    | (.error error, stop) => ∃ path part here, program.Comes strict path part here ∧
        part.step strict here = .error error stop ∧
          stop.table.labels = ("global" :: path.map Heading.name).zipIdx 1 := by
  obtain ⟨start, hstart⟩ : ∃ start, Analyzer.enter "global" .initial = .ok () start := ⟨_, rfl⟩
  have htable : start.table = ⟨[.outermost "global"]⟩ := by cases hstart; rfl
  refine ⟨Analyzer.keeps_inherited.statement strict, Analyzer.keeps_inherited.expression,
    Analyzer.keeps_inherited.matchSignature, ?_, ?_⟩
  · rintro path d here ⟨start', hstart', hcomes⟩
    obtain rfl : start = start' := by cases hstart; cases hstart'; rfl
    obtain ⟨scope, outer, hhere, -⟩ := hcomes.labels_eq htable
    exact ⟨scope, outer, hhere, fun after hrun =>
      (Analyzer.declaration_adds strict d hhere).of_ok hrun⟩
  · rw [analyze, program_apply hstart]
    cases hrun : (Analyzer.block strict program.block >>= fun _ => Analyzer.leave) start with
    | ok _ final =>
      obtain ⟨_, finished, hblock, hleave⟩ := Analyzer.bind_eq_ok.mp hrun
      obtain ⟨symbols, -, hfinished⟩ := (Analyzer.block_adds strict _ _ htable).of_ok hblock
      have hleaves : Analyzer.Meets Analyzer.leave finished
          (fun _ after => after.table = .empty) fun _ _ => True := Analyzer.leave_meets hfinished
      exact hleaves.of_ok hleave
    | error error stop =>
      rcases Analyzer.bind_eq_error.mp hrun with h | ⟨_, _, -, h⟩
      · obtain ⟨path, part, here, hcomes, hstop, hlabels⟩ :=
          Analyzer.exists_part_of_error h htable
        refine ⟨path, part, here, ⟨start, hstart, hcomes⟩, hstop, ?_⟩
        rw [hlabels, htable]
        rfl
      · cases h

end Program

end LusoPascal
