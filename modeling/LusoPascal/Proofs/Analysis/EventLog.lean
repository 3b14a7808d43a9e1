import Mathlib.Logic.Relation
import LusoPascal.Compilation.Report
import LusoPascal.Proofs.Analysis.Frame
import LusoPascal.Proofs.Scope.Stack

/-!
# The log of an analysis

No symbol takes the place of another one: wherever a symbol is filed, its name is new in the scope.
So the log tells which scopes are open and what is filed in them, and a scope is left with as many
symbols as the log files in it, but for the two types.

* `Analysis.Step`: a step on open scopes, which files new names only;
* `Tally`, `readLog?`: what a log tells, if scopes are entered and left in proper order;
* `Analysis.Told`, **`Analysis.Told.step`**: the log tells what is filed, whatever step is taken;
* `Program.log`: the log that belongs to a program;
* `Writes`, **`declaration_writes`**: an analyzer that goes by steps, and what it logs;
* **`Program.analyze_never_overwrites`**: whole programs, and the log of a compilation.
-/

namespace LusoPascal

/-! ## Steps -/

/-- A step of an analysis on open scopes. A symbol is filed only if its name is new in the innermost
scope. -/
inductive Analysis.Step (before after : Analysis) : Prop
  | enter {scope : Scope} {outer : List Scope} (htable : before.table = ⟨scope :: outer⟩)
      (name : String) (h : Analyzer.enter name before = .ok () after)
  | define {scope : Scope} {outer : List Scope} (htable : before.table = ⟨scope :: outer⟩)
      (symbol : Symbol) (hnew : scope.get? symbol.name = none)
      (h : Analyzer.define symbol before = .ok () after)
  | setEnclosingParams (name : String) (params : List TypedName)
      (h : Analyzer.setEnclosingParams name params before = .ok () after)
  | record (name : String) (line : Nat) (scope : Scope)
      (h : Analyzer.record name line scope before = .ok () after)
  | leave {scope : Scope} {outer : List Scope} (htable : before.table = ⟨scope :: outer⟩)
      (h : Analyzer.leave before = .ok () after)

/-! ### Behind a step -/

section Open

variable {before : Analysis} {scope : Scope} {outer : List Scope}

theorem enter_of_open (h : before.table = ⟨scope :: outer⟩) (name : String) :
    Analyzer.enter name before = .ok () { before with
      table := ⟨scope.inside name :: scope :: outer⟩
      scopes := before.scopes.push ⟨name, scope.level + 1, some scope.name⟩
      events := before.events.push (.entering name (scope.level + 1)) } := by
  obtain ⟨table, opened, resolutions, events⟩ := before
  obtain rfl := h
  rfl

theorem define_of_open (h : before.table = ⟨scope :: outer⟩) (symbol : Symbol) :
    Analyzer.define symbol before = .ok () { before with
      table := ⟨scope.define symbol :: outer⟩
      events := before.events.push (.defining symbol scope.name) } := by
  rw [Analyzer.define_apply, h]
  rfl

theorem leave_of_open (h : before.table = ⟨scope :: outer⟩) :
    Analyzer.leave before = .ok () { before with
      table := ⟨outer⟩
      events := before.events.push (.leaving scope.name scope.level scope.size) } := by
  rw [Analyzer.leave_apply, h]
  rfl

end Open

abbrev Analysis.Steps : Analysis → Analysis → Prop := Relation.ReflTransGen Analysis.Step

/-! ## What a log tells -/

/-- A scope that a log has opened, and the names filed in it, in order. -/
structure Tally where
  name : String
  filed : List String
deriving DecidableEq

namespace Event

/-- The scope that a step opens. -/
def entered? : Event → Option (String × Nat)
  | entering name level => some (name, level)
  | _ => none

/-- What a log tells behind one more step, given the open scopes, innermost first. The names in a
scope are new, and where a scope is left, its level and its size are those that the log tells. -/
def read? : List Tally → Event → Option (List Tally)
  | tally :: outer, entering name level =>
    if level = outer.length + 2 then some (⟨name, []⟩ :: tally :: outer) else none
  | tally :: outer, defining symbol scope =>
    if scope = tally.name ∧ symbol.name ∉ tally.filed then
      some (⟨tally.name, tally.filed ++ [symbol.name]⟩ :: outer)
    else none
  | tally :: outer, leaving name level size =>
    if name = tally.name ∧ level = outer.length + 1 ∧ size = tally.filed.length then some outer
    else none
  | [], _ => none

end Event

/-- The scopes that are open behind a log. It begins with the outermost one, which files the types,
and ends at the latest where that one is left. -/
def readLog? : List Event → Option (List Tally)
  | .entering name 1 :: events =>
    events.foldlM Event.read? [⟨name, BaseType.all.map BaseType.word⟩]
  | _ => none

/-- The steps that leave the open scopes. -/
def closings : List Tally → List Event
  | [] => []
  | tally :: outer => .leaving tally.name (outer.length + 1) tally.filed.length :: closings outer

theorem readLog?_append {events : List Event} {tallies : List Tally}
    (h : readLog? events = some tallies) (more : List Event) :
    readLog? (events ++ more) = more.foldlM Event.read? tallies := by
  rw [readLog?.eq_def] at h
  split at h
  · rw [List.cons_append, readLog?, List.foldlM_append, h]
    rfl
  · cases h

theorem foldlM_read?_closings (tallies : List Tally) :
    (closings tallies).foldlM Event.read? tallies = some [] := by
  induction tallies with
  | nil => rfl
  | cons tally outer ih => simpa [closings, Event.read?] using ih

/-- What a log has opened can be left. -/
theorem readLog?_closings {events : List Event} {tallies : List Tally}
    (h : readLog? events = some tallies) : readLog? (events ++ closings tallies) = some [] := by
  rw [readLog?_append h, foldlM_read?_closings]

/-! ## The log tells what is filed -/

/-- The name of a scope, and the names filed in it. -/
def Scope.tally (scope : Scope) : Tally := ⟨scope.name, scope.bindings.map Prod.fst⟩

/-- What an analysis has recorded tells what its open scopes are. -/
structure Analysis.Told (analysis : Analysis) : Prop where
  /-- The log tells the open scopes, and the names filed in each. -/
  reads : readLog? analysis.events.toList = some (analysis.table.scopes.map Scope.tally)
  /-- The log enters the scopes of the record, in order. -/
  enters : analysis.events.toList.filterMap Event.entered? =
    analysis.scopes.toList.map fun scope => (scope.name, scope.level)
  /-- Levels count from one, upwards from the outermost scope. -/
  levels : analysis.table.scopes.map Scope.level = (List.range' 1 analysis.table.depth).reverse
  /-- Every symbol is filed under its own name. -/
  filed : ∀ scope ∈ analysis.table.scopes, scope.Filed

theorem levels_cons_iff {scope : Scope} {outer : List Scope} :
    (scope :: outer).map Scope.level = (List.range' 1 (scope :: outer).length).reverse ↔
      scope.level = outer.length + 1 ∧
        outer.map Scope.level = (List.range' 1 outer.length).reverse := by
  rw [List.length_cons, List.range'_1_concat, List.reverse_append, List.map_cons,
    List.reverse_singleton, List.singleton_append, List.cons.injEq, Nat.add_comm 1]

namespace Scope

@[simp] theorem name_tally (scope : Scope) : scope.tally.name = scope.name := rfl

@[simp] theorem length_filed_tally (scope : Scope) : scope.tally.filed.length = scope.size := by
  simp [tally, size]

theorem not_mem_filed_tally {scope : Scope} {name : String} (h : scope.get? name = none) :
    name ∉ scope.tally.filed := by
  intro hmem
  have hsome := mem_keys_iff.mp hmem
  rw [← get?, h] at hsome
  cases hsome

theorem tally_define {scope : Scope} {symbol : Symbol} (h : scope.get? symbol.name = none) :
    (scope.define symbol).tally = ⟨scope.name, scope.tally.filed ++ [symbol.name]⟩ := by
  simp [define_of_new h, tally, add]

theorem tally_setParams (scope : Scope) (name : String) (params : List TypedName) :
    (scope.setParams name params).tally = scope.tally := by
  simp only [tally, setParams, List.map_map, Tally.mk.injEq, true_and]
  refine List.map_congr_left fun entry _ => ?_
  dsimp only [Function.comp]
  split <;> rfl

end Scope

namespace Analysis.Told

variable {before after : Analysis} {scope : Scope} {outer : List Scope}

theorem inner (h : before.Told) (htable : before.table = ⟨scope :: outer⟩) :
    scope.level = outer.length + 1 ∧
      outer.map Scope.level = (List.range' 1 outer.length).reverse ∧
      scope.Filed ∧ ∀ scope ∈ outer, scope.Filed := by
  obtain ⟨-, -, hlevels, hfiled⟩ := h
  rw [SymbolTable.depth, htable] at hlevels
  rw [htable] at hfiled
  obtain ⟨hlevel, hlevels⟩ := levels_cons_iff.mp hlevels
  exact ⟨hlevel, hlevels, List.forall_mem_cons.mp hfiled⟩

theorem push_event (h : before.Told) {event : Event}
    (hevents : after.events = before.events.push event)
    (hread : Event.read? (before.table.scopes.map Scope.tally) event =
      some (after.table.scopes.map Scope.tally))
    (henters : after.scopes.toList.map (fun scope => (scope.name, scope.level)) =
      before.scopes.toList.map (fun scope => (scope.name, scope.level)) ++ event.entered?.toList)
    (hlevels : after.table.scopes.map Scope.level = (List.range' 1 after.table.depth).reverse)
    (hfiled : ∀ scope ∈ after.table.scopes, scope.Filed) : after.Told where
  reads := by
    rw [hevents, Array.toList_push, readLog?_append h.reads, List.foldlM_cons, hread]
    rfl
  enters := by
    rw [hevents, Array.toList_push, List.filterMap_append, h.enters, henters]
    cases event <;> rfl
  levels := hlevels
  filed := hfiled

theorem enter (h : before.Told) (htable : before.table = ⟨scope :: outer⟩) {name : String}
    (hrun : Analyzer.enter name before = .ok () after) : after.Told := by
  obtain ⟨hlevel, hlevels, hscope, houter⟩ := h.inner htable
  obtain ⟨⟩ := (enter_of_open htable name).symm.trans hrun
  refine h.push_event rfl ?_ (by simp [Event.entered?]) (levels_cons_iff.mpr ⟨?_, ?_⟩) ?_
  · simp [htable, Event.read?, hlevel, Scope.inside, Scope.tally]
  · simp [Scope.inside, hlevel]
  · exact levels_cons_iff.mpr ⟨hlevel, hlevels⟩
  · exact List.forall_mem_cons.mpr ⟨.empty _ _, List.forall_mem_cons.mpr ⟨hscope, houter⟩⟩

theorem define (h : before.Told) (htable : before.table = ⟨scope :: outer⟩) {symbol : Symbol}
    (hnew : scope.get? symbol.name = none) (hrun : Analyzer.define symbol before = .ok () after) :
    after.Told := by
  obtain ⟨hlevel, hlevels, hscope, houter⟩ := h.inner htable
  obtain ⟨⟩ := (define_of_open htable symbol).symm.trans hrun
  refine h.push_event rfl ?_ (by simp [Event.entered?]) (levels_cons_iff.mpr ⟨hlevel, hlevels⟩) ?_
  · rw [htable, List.map_cons, List.map_cons, Scope.tally_define hnew]
    simp [Event.read?, Scope.not_mem_filed_tally hnew]
  · exact List.forall_mem_cons.mpr ⟨hscope.define symbol, houter⟩

theorem leave (h : before.Told) (htable : before.table = ⟨scope :: outer⟩)
    (hrun : Analyzer.leave before = .ok () after) : after.Told := by
  obtain ⟨hlevel, hlevels, -, houter⟩ := h.inner htable
  obtain ⟨⟩ := (leave_of_open htable).symm.trans hrun
  refine h.push_event rfl ?_ (by simp [Event.entered?]) hlevels houter
  simp [htable, Event.read?, hlevel]

theorem setEnclosingParams (h : before.Told) {name : String} {params : List TypedName}
    (hrun : Analyzer.setEnclosingParams name params before = .ok () after) : after.Told := by
  obtain ⟨⟨scopes⟩, opened, resolutions, events⟩ := before
  cases hrun
  match scopes, h with
  | [], h => exact h
  | [scope], h => exact h
  | scope :: enclosing :: outer, ⟨hreads, henters, hlevels, hfiled⟩ =>
    refine ⟨?_, henters, hlevels, ?_⟩
    · rw [hreads]
      simp [SymbolTable.setEnclosingParams, Scope.tally_setParams]
    · simp only [List.forall_mem_cons] at hfiled
      simp only [SymbolTable.setEnclosingParams, List.forall_mem_cons]
      exact ⟨hfiled.1, hfiled.2.1.setParams name params, hfiled.2.2⟩

theorem record (h : before.Told) {name : String} {line : Nat} {scope : Scope}
    (hrun : Analyzer.record name line scope before = .ok () after) : after.Told := by
  cases hrun
  exact ⟨h.reads, h.enters, h.levels, h.filed⟩

/-- **Every step keeps it so.** -/
theorem step (h : before.Told) (hstep : before.Step after) : after.Told := by
  cases hstep with
  | enter htable name hrun => exact h.enter htable hrun
  | define htable symbol hnew hrun => exact h.define htable hnew hrun
  | setEnclosingParams name params hrun => exact h.setEnclosingParams hrun
  | record name line scope hrun => exact h.record hrun
  | leave htable hrun => exact h.leave htable hrun

/-- **So does every run.** -/
theorem steps (h : before.Told) (hsteps : before.Steps after) : after.Told := by
  induction hsteps with
  | refl => exact h
  | tail _ hstep ih => exact ih.step hstep

theorem start {start : Analysis} (h : Analyzer.enter "global" .initial = .ok () start) :
    start.Told := by
  cases h
  exact ⟨rfl, rfl, rfl, List.forall_mem_cons.mpr ⟨.outermost _, List.forall_mem_nil _⟩⟩

end Analysis.Told

/-! ## The log of a program -/

/-- The definition of a variable or a parameter in a scope, if its type is known. -/
def TypedIdentifier.log (scope : String) (entry : TypedIdentifier) : List Event :=
  ((BaseType.ofWord? entry.type.name).map fun type =>
    .defining (.var ⟨entry.ident.name, type⟩) scope).toList

namespace Declaration

mutual

/-- The definition that a declaration makes in a scope. That of a procedure is made before its
parameters are known, and is followed by the log of the scope of the procedure: its parameters, its
declarations, and how many symbols these are. -/
def log (scope : String) (level : Nat) : Declaration → List Event
  | var entry => entry.log scope
  | procedure heading inner _ =>
    .defining (.procedure heading.name []) scope :: .entering heading.name (level + 1) ::
      (heading.params.flatMap (TypedIdentifier.log heading.name) ++
        (allLog heading.name (level + 1) inner ++
          [.leaving heading.name (level + 1) (heading.params.length + inner.length)]))

def allLog (scope : String) (level : Nat) : List Declaration → List Event
  | [] => []
  | d :: ds => log scope level d ++ allLog scope level ds

end

end Declaration

/-- The log of a program: the scope of its block, which holds its declarations and the two types. -/
def Program.log (program : Program) : List Event :=
  .entering "global" 1 ::
    (Declaration.allLog "global" 1 program.block.declarations ++
      [.leaving "global" 1 (program.block.declarations.length + 2)])

theorem SymbolTable.ofWord?_of_lookup? {table : SymbolTable}
    (hfiled : ∀ scope ∈ table.scopes, scope.Filed) {word : String} {type : BaseType}
    (h : table.lookup? word = some (.type type)) : BaseType.ofWord? word = some type := by
  obtain ⟨scopes⟩ := table
  induction scopes with
  | nil => cases h
  | cons scope outer ih =>
    obtain ⟨hscope, houter⟩ := List.forall_mem_cons.mp hfiled
    rw [lookup?_cons] at h
    cases hget : scope.get? word with
    | none =>
      rw [hget, Option.none_or] at h
      exact ih houter h
    | some symbol =>
      rw [hget, Option.some_or] at h
      obtain rfl := Option.some.inj h
      rw [← hscope.name_of_get? hget]
      cases type <;> rfl

/-! ## What an analyzer logs -/

namespace Analyzer

variable {α β : Type} {before : Analysis} {scope : Scope} {outer : List Scope}

/-- From one state an analyzer goes by steps; unless it finds an error, it logs what is given. -/
def Writes (p : Analyzer α) (before : Analysis) (log : List Event) : Prop :=
  Meets p before
    (fun _ after => before.Steps after ∧ after.events.toList = before.events.toList ++ log)
    fun _ stop => before.Steps stop

namespace Writes

variable {p : Analyzer α} {q : α → Analyzer β} {log more : List Event}

/-- **One analyzer after another.** -/
theorem bind (hp : Writes p before log)
    (hq : ∀ a between, p before = .ok a between → before.Steps between →
      Writes (q a) between more) : Writes (p >>= q) before (log ++ more) := by
  rw [Writes, Meets, bind_apply]
  cases hrun : p before with
  | error error stop => exact hp.of_error hrun
  | ok a between =>
    obtain ⟨hsteps, hevents⟩ := hp.of_ok hrun
    refine (hq a between hrun hsteps).mono ?_ fun error stop => hsteps.trans
    rintro b after ⟨hsteps', hevents'⟩
    exact ⟨hsteps.trans hsteps', by rw [hevents', hevents, List.append_assoc]⟩

theorem bind_nil (hp : Writes p before [])
    (hq : ∀ a between, p before = .ok a between → before.Steps between →
      Writes (q a) between log) : Writes (p >>= q) before log := hp.bind hq

theorem stays {a : α} (hrun : p before = .ok a before) : Writes p before [] := by
  rw [Writes, Meets, hrun]
  exact ⟨.refl, (List.append_nil _).symm⟩

theorem pure (a : α) (before : Analysis) : Writes (pure a) before [] := stays rfl

theorem fail (violation : Violation) (line : Nat) :
    Writes (Analyzer.fail violation line : Analyzer α) before log := Relation.ReflTransGen.refl

theorem fail_bind (violation : Violation) (line : Nat) :
    Writes ((Analyzer.fail violation line : Analyzer α) >>= q) before log :=
  Relation.ReflTransGen.refl

theorem isTaken_bind {name : String} {q : Bool → Analyzer β}
    (hq : Writes (q (before.table.lookupHere? name).isSome) before log) :
    Writes (isTaken name >>= q) before log := hq

/-- An analyzer that takes one step which is not logged. -/
theorem quiet {after : Analysis} {a : α} (hrun : p before = .ok a after)
    (hstep : before.Step after) (hevents : after.events = before.events) : Writes p before [] := by
  rw [Writes, Meets, hrun]
  exact ⟨.single hstep, by rw [hevents, List.append_nil]⟩

/-- An analyzer that takes one step which is logged. -/
theorem single {after : Analysis} {a : α} {event : Event} (hrun : p before = .ok a after)
    (hstep : before.Step after) (hevents : after.events = before.events.push event) :
    Writes p before [event] := by
  rw [Writes, Meets, hrun]
  exact ⟨.single hstep, by rw [hevents, Array.toList_push]⟩

end Writes

theorem silent_inherited : Inherited fun p => ∀ before, Writes p before [] where
  pure := .pure
  bind hp hq before := (hp before).bind_nil fun a between _ _ => hq a between
  fail _ line _ := .fail _ line
  lookup? _ _ := .stays rfl
  resolve? _ _ := .stays rfl
  record name line scope _ := .quiet rfl (.record name line scope rfl) rfl

theorem define_writes (h : before.table = ⟨scope :: outer⟩) {symbol : Symbol}
    (hnew : scope.get? symbol.name = none) :
    Writes (define symbol) before [.defining symbol scope.name] :=
  .single (define_of_open h symbol) (.define h symbol hnew (define_of_open h symbol)) rfl

theorem enter_writes (h : before.table = ⟨scope :: outer⟩) (name : String) :
    Writes (enter name) before [.entering name (scope.level + 1)] :=
  .single (enter_of_open h name) (.enter h name (enter_of_open h name)) rfl

theorem leave_writes (h : before.table = ⟨scope :: outer⟩) :
    Writes leave before [.leaving scope.name scope.level scope.size] :=
  .single (leave_of_open h) (.leave h (leave_of_open h)) rfl

theorem declare_writes (entry : TypedIdentifier) (htold : before.Told)
    (h : before.table = ⟨scope :: outer⟩) :
    Writes (declare entry) before (entry.log scope.name) := by
  have htype : Writes (typeNamed entry.type entry.ident.line) before [] :=
    (silent_inherited.lookup? entry.type.name before).bind_nil fun found between _ _ => by
      split
      · exact .pure _ between
      · exact .fail _ _
  refine htype.bind_nil fun type between hrun _ => ?_
  obtain ⟨rfl, hlookup⟩ := (typeNamed_meets _ _ _).of_ok hrun
  rw [TypedIdentifier.log, SymbolTable.ofWord?_of_lookup? htold.filed hlookup]
  refine .isTaken_bind ?_
  rw [lookupHere?_cons h]
  split
  · exact .fail_bind _ _
  · next hfree =>
    have hnew : scope.get? (Symbol.var ⟨entry.ident.name, type⟩).name = none := by
      simpa [Symbol.name] using hfree
    exact (define_writes h hnew).bind fun _ after _ _ => .pure _ after

theorem declareAll_writes (entries : List TypedIdentifier) (htold : before.Told)
    (h : before.table = ⟨scope :: outer⟩) :
    Writes (declareAll entries) before (entries.flatMap (TypedIdentifier.log scope.name)) := by
  induction entries generalizing before scope with
  | nil => exact .pure _ before
  | cons entry rest ih =>
    rw [List.flatMap_cons]
    refine (declare_writes entry htold h).bind fun typed between hrun hsteps => ?_
    obtain ⟨-, -, hbetween⟩ := (declare_adds entry h).of_ok hrun
    have hrest := (ih (htold.steps hsteps) hbetween).bind fun typeds after _ _ =>
      .pure (typed :: typeds) after
    rwa [List.append_nil] at hrest

/-- A procedure is logged before its parameters are known. -/
theorem openProcedure_writes (heading : Heading) (h : before.table = ⟨scope :: outer⟩) :
    Writes (openProcedure heading) before
      [.defining (.procedure heading.name []) scope.name,
        .entering heading.name (scope.level + 1)] := by
  refine .isTaken_bind ?_
  rw [lookupHere?_cons h]
  split
  · exact .fail_bind _ _
  · next hfree =>
    have hnew : scope.get? (Symbol.procedure heading.name []).name = none := by
      simpa [Symbol.name] using hfree
    refine (define_writes h hnew).bind fun _ between hrun _ => ?_
    have hbetween : between.table = ⟨scope.define (.procedure heading.name []) :: outer⟩ := by
      rw [define_of_open h] at hrun
      cases hrun
      rfl
    have henter := enter_writes hbetween heading.name
    exact henter

theorem declareParams_writes (heading : Heading) (htold : before.Told)
    (h : before.table = ⟨scope :: outer⟩) :
    Writes (declareParams heading) before
      (heading.params.flatMap (TypedIdentifier.log scope.name)) := by
  have hset (params : List TypedName) (between : Analysis) :
      Writes (setEnclosingParams heading.name params) between [] :=
    .quiet rfl (.setEnclosingParams heading.name params rfl) rfl
  have hparams := (declareAll_writes heading.params htold h).bind fun params between _ _ =>
    hset params between
  rwa [List.append_nil] at hparams

section Declarations

variable (strict : Bool)

mutual

/-- **A declaration goes by steps, and logs what belongs to it** if it is accepted. -/
theorem declaration_writes (d : Declaration) {before : Analysis} {scope : Scope}
    {outer : List Scope} (htold : before.Told) (h : before.table = ⟨scope :: outer⟩) :
    Writes (declaration strict d) before (d.log scope.name scope.level) := by
  match d with
  | .var entry =>
    rw [declaration, Declaration.log]
    have hentry := (declare_writes entry htold h).bind fun _ after _ _ => .pure () after
    rwa [List.append_nil] at hentry
  | .procedure heading inner body =>
    rw [declaration_procedure_block]
    refine (openProcedure_writes heading h).bind fun _ opened hopen hsteps => ?_
    obtain ⟨-, hopened⟩ := (openProcedure_meets heading h).of_ok hopen
    have htold' := htold.steps hsteps
    refine (declareParams_writes heading htold' hopened).bind fun _ begun hparams hsteps => ?_
    obtain ⟨params, hresolves, hbegun⟩ := (declareParams_adds hopened).of_ok hparams
    refine (block_writes inner body (htold'.steps hsteps) hbegun).bind fun _ finished hblock _ => ?_
    obtain ⟨symbols, hlength, hfinished⟩ := (block_adds strict inner body hbegun).of_ok hblock
    have hsize : (((scope.inside heading.name).add (params.map .var)).add symbols).size =
        heading.params.length + inner.length := by
      simp [Scope.inside, Scope.size, Scope.add, hlength, hresolves.length_eq]
    rw [← hsize]
    exact leave_writes hfinished

theorem declarations_write (ds : List Declaration) {before : Analysis} {scope : Scope}
    {outer : List Scope} (htold : before.Told) (h : before.table = ⟨scope :: outer⟩) :
    Writes (declarations strict ds) before (Declaration.allLog scope.name scope.level ds) := by
  match ds with
  | [] => exact .pure () before
  | d :: ds =>
    rw [declarations, Declaration.allLog]
    refine (declaration_writes d htold h).bind fun _ between hrun hsteps => ?_
    obtain ⟨symbol, -, -, hbetween⟩ := (declaration_adds strict d h).of_ok hrun
    have hrest := declarations_write ds (htold.steps hsteps) hbetween
    exact hrest

theorem block_writes (ds : List Declaration) (body : List Statement) {before : Analysis}
    {scope : Scope} {outer : List Scope} (htold : before.Told)
    (h : before.table = ⟨scope :: outer⟩) :
    Writes (block strict ⟨ds, body⟩) before (Declaration.allLog scope.name scope.level ds) := by
  have hblock := (declarations_write ds htold h).bind fun _ between _ _ =>
    silent_inherited.statements strict body between
  rwa [List.append_nil] at hblock

end

end Declarations

end Analyzer

/-! ## Whole programs -/

namespace Program

/-- An analysis goes by steps behind the opening of the outermost scope. If the program is accepted,
then what is logged is the log of the program; if it is rejected, a scope is open at the end. -/
theorem analyze_writes (strict : Bool) (program : Program) (earlier : Analysis) {start : Analysis}
    (hstart : Analyzer.enter "global" .initial = .ok () start) :
    start.Steps (program.analyze strict earlier).2 ∧
      match program.analyze strict earlier with
      | (.ok (), final) => final.events.toList = program.log ∧ final.table = .empty
      | (.error _, stop) => stop.table.scopes ≠ [] := by
  obtain ⟨htable, hevents⟩ : start.table = ⟨[.outermost "global"]⟩ ∧
      start.events.toList = [.entering "global" 1] := by
    cases hstart
    exact ⟨rfl, rfl⟩
  have hblock := Analyzer.block_writes strict program.block.declarations program.block.body
    (.start hstart) htable
  rw [analyze, program_apply hstart, Analyzer.bind_apply]
  cases hrun : Analyzer.block strict program.block start with
  | error error stop =>
    obtain ⟨path, -, -, -, -, hlabels⟩ := Analyzer.exists_part_of_error hrun htable
    refine ⟨hblock.of_error hrun, fun hempty => ?_⟩
    rw [SymbolTable.labels, hempty, htable] at hlabels
    cases hlabels
  | ok _ finished =>
    obtain ⟨hsteps, hlog⟩ := hblock.of_ok hrun
    obtain ⟨symbols, hlength, hfinished⟩ :=
      (Analyzer.block_adds strict program.block.declarations program.block.body htable).of_ok hrun
    have hleave := leave_of_open hfinished
    dsimp only
    rw [hleave]
    refine ⟨hsteps.tail (.leave hfinished hleave), ?_, rfl⟩
    have hsize : ((Scope.outermost "global").add symbols).size =
        program.block.declarations.length + 2 := by
      rw [Scope.size_add, hlength, Nat.add_comm]
      rfl
    rw [Array.toList_push, hlog, hevents, hsize]
    rfl

end Program

/-- The log of a compilation: the parser starts and consumes tokens, and if they are a program, then
its analysis starts and logs its steps. -/
theorem Report.log_eq (strict : Bool) (source : String) :
    (Report.ofSource strict source).log =
      .parsing :: ((Report.ofSource strict source).consumed.map .consumed ++
        match Program.ofSource source with
        | .error _ => []
        | .ok program => .analysing program.name ::
            (program.analyze strict .initial).2.events.toList.map .step) := by
  rw [Report.ofSource, Program.ofSource]
  cases Reader.ofSource source with
  | error error => rfl
  | ok reader =>
    dsimp only
    rcases reader.parse with ⟨_ | _, _⟩
    · simp
    · rfl

theorem LogRecord.visible_trace (log : List LogRecord) :
    LogRecord.visible LogLevel.trace.rank log = log := by
  refine List.filter_eq_self.mpr fun record _ => decide_eq_true ?_
  cases record <;> simp [level, LogLevel.rank]

/-- **No symbol takes the place of another one**, and the log tells the scopes entered, the scopes
open and the names filed in them. -/
theorem Program.analyze_never_overwrites (strict : Bool) :
    (∀ (program : Program) (earlier : Analysis),
      (∃ start, Analyzer.enter "global" .initial = .ok () start ∧
        start.Steps (program.analyze strict earlier).2) ∧
      (program.analyze strict earlier).2.Told ∧
      match program.analyze strict earlier with
      | (.ok (), final) =>
        final.events.toList = program.log ∧ readLog? final.events.toList = some []
      | (.error _, stop) => stop.table.scopes ≠ [] ∧
        readLog? (stop.events.toList ++ closings (stop.table.scopes.map Scope.tally)) = some []) ∧
    ∀ source, LogRecord.visible LogLevel.trace.rank (Report.ofSource strict source).log =
      .parsing :: ((Report.ofSource strict source).consumed.map .consumed ++
        match Program.ofSource source with
        | .error _ => []
        | .ok program => .analysing program.name ::
            (program.analyze strict .initial).2.events.toList.map .step) := by
  constructor
  · intro program earlier
    obtain ⟨start, hstart⟩ : ∃ start, Analyzer.enter "global" .initial = .ok () start := ⟨_, rfl⟩
    obtain ⟨hsteps, hend⟩ := program.analyze_writes strict earlier hstart
    have htold := (Analysis.Told.start hstart).steps hsteps
    refine ⟨⟨start, hstart, hsteps⟩, htold, ?_⟩
    rcases hrun : program.analyze strict earlier with ⟨_ | _, final⟩
    · rw [hrun] at hend htold
      exact ⟨hend, readLog?_closings htold.reads⟩
    · rw [hrun] at hend htold
      have hreads := htold.reads
      rw [hend.2] at hreads
      exact ⟨hend.1, hreads⟩
  · intro source
    rw [LogRecord.visible_trace, Report.log_eq]

end LusoPascal
