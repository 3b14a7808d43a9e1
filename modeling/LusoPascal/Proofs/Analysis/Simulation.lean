import LusoPascal.Analysis.Program
import LusoPascal.Proofs.Analysis.Reference
import Mathlib.Data.List.Forall2

/-!
# An analysis follows the visit without state

The table of an analysis shows the environment of the visit, scope by scope. Every step of the
analysis keeps it so, adds to the records what the visit adds, and fails where the visit ends.

* `Stands`, `Shows`: a symbol stands for a meaning, and a scope shows a frame;
* `Follows`: an analyzer follows a visit from one state;
* `Follows.bind`, `Follows.lookup_bind`, and the like: how analyzers that follow visits compose;
* **`statement_follows`**, **`declaration_follows`**: every part of a program;
* **`Program.analyze_eq_visit`**: the whole program, whatever was analysed before.
-/

namespace LusoPascal

/-! ## Tables and environments -/

/-- A symbol stands for a meaning. The parameters that the symbol of a procedure lists are filled in
later and do not count. -/
inductive Stands : Symbol → Meaning → Prop
  | var (entry : TypedName) : Stands (.var entry) (.var entry.type)
  | procedure (heading : Heading) (params : List TypedName) :
      Stands (.procedure heading.name params) (.procedure heading)
  | type (type : BaseType) : Stands (.type type) (.type type)

theorem Stands.withParams {symbol : Symbol} {meaning : Meaning} (h : Stands symbol meaning)
    (params : List TypedName) : Stands (symbol.withParams params) meaning := by
  cases h with
  | var entry => exact .var entry
  | procedure heading _ => exact .procedure heading params
  | type type => exact .type type

/-- A scope shows a frame: the same name and level, and the same names with the same meanings. -/
structure Shows (scope : Scope) (frame : Frame) : Prop where
  name : scope.name = frame.name
  level : scope.level = frame.level
  meaning (name : String) : Option.Rel Stands (scope.get? name) (frame.meaning? name)

namespace Shows

variable {scope : Scope} {frame : Frame}

theorem inside (h : Shows scope frame) (name : String) :
    Shows (scope.inside name) (frame.inside name) where
  name := rfl
  level := congrArg (· + 1) h.level
  meaning _ := .none

theorem define (h : Shows scope frame) {symbol : Symbol} {meaning : Meaning}
    (hs : Stands symbol meaning) :
    Shows (scope.define symbol) (frame.declare symbol.name meaning) where
  name := h.name
  level := h.level
  meaning name := by
    rw [Scope.get?_define, Frame.meaning?, Frame.declare, lookup_cons_eq_ite]
    split
    · exact .some hs
    · exact h.meaning name

theorem setParams (h : Shows scope frame) (name : String) (params : List TypedName) :
    Shows (scope.setParams name params) frame where
  name := h.name
  level := h.level
  meaning other := by
    have hother := h.meaning other
    rw [Scope.get?_setParams]
    split
    · cases hscope : scope.get? other with
      | none => rwa [hscope] at hother
      | some symbol =>
        rw [hscope] at hother
        generalize frame.meaning? other = m at hother
        cases hother with
        | some hs => exact .some (hs.withParams params)
    · exact hother

end Shows

theorem shows_outermost : Shows (.outermost "global") .global where
  name := rfl
  level := rfl
  meaning name := by
    have hscope : (Scope.outermost "global").get? name =
        if name = "inteiro" then some (.type .inteiro)
        else if name = "logico" then some (.type .logico) else none := by
      change [("inteiro", Symbol.type .inteiro), ("logico", .type .logico)].lookup name = _
      rw [lookup_cons_eq_ite, lookup_cons_eq_ite, List.lookup_nil]
    have hframe : Frame.global.meaning? name =
        if name = "inteiro" then some (.type .inteiro)
        else if name = "logico" then some (.type .logico) else none := by
      change [("inteiro", Meaning.type .inteiro), ("logico", .type .logico)].lookup name = _
      rw [lookup_cons_eq_ite, lookup_cons_eq_ite, List.lookup_nil]
    rw [hscope, hframe]
    split
    · exact .some (.type .inteiro)
    · split
      · exact .some (.type .logico)
      · exact .none

/-- The open scopes of a table show the frames of an environment. -/
def SymbolTable.ShowsAll (table : SymbolTable) (env : Environment) : Prop :=
  List.Forall₂ Shows table.scopes env

namespace SymbolTable.ShowsAll

variable {table : SymbolTable} {env : Environment}

theorem resolve (h : table.ShowsAll env) (name : String) :
    Option.Rel (fun found meant => Stands found.1 meant.1 ∧ Shows found.2 meant.2)
      (table.resolve? name) (env.meaning? name) := by
  obtain ⟨scopes⟩ := table
  replace h : List.Forall₂ Shows scopes env := h
  induction h with
  | nil => exact .none
  | @cons scope frame scopes env hs _ ih =>
    rw [SymbolTable.resolve?_cons, Environment.meaning?]
    have hname := hs.meaning name
    generalize scope.get? name = found at hname
    generalize frame.meaning? name = meant at hname
    cases hname with
    | some hm => exact .some ⟨hm, hs⟩
    | none => exact ih

theorem lookup (h : table.ShowsAll env) (name : String) :
    Option.Rel Stands (table.lookup? name) ((env.meaning? name).map Prod.fst) := by
  have hfound := h.resolve name
  rw [SymbolTable.lookup?]
  generalize table.resolve? name = found at hfound
  generalize env.meaning? name = meant at hfound
  cases hfound with
  | some hm => exact .some hm.1
  | none => exact .none

theorem exists_cons {frame : Frame} {outer : Environment} (h : table.ShowsAll (frame :: outer)) :
    ∃ scope scopes, table = ⟨scope :: scopes⟩ ∧ Shows scope frame ∧
      (SymbolTable.mk scopes).ShowsAll outer := by
  obtain ⟨scopes⟩ := table
  replace h : List.Forall₂ Shows scopes (frame :: outer) := h
  cases h with
  | @cons scope _ rest _ hs hrest => exact ⟨scope, rest, rfl, hs, hrest⟩

end SymbolTable.ShowsAll

/-! ## Following a visit -/

/-- The records of an analysis grew by some scopes and some references. -/
structure Grew (before after : Analysis) (opened : List OpenedScope) (resolved : List Resolution) :
    Prop where
  scopes : after.scopes.toList = before.scopes.toList ++ opened
  resolutions : after.resolutions.toList = before.resolutions.toList ++ resolved

namespace Grew

variable {before between after : Analysis} {opened opened' : List OpenedScope}
  {resolved resolved' : List Resolution}

theorem refl (analysis : Analysis) : Grew analysis analysis [] [] :=
  ⟨(List.append_nil _).symm, (List.append_nil _).symm⟩

theorem trans (h : Grew before between opened resolved)
    (h' : Grew between after opened' resolved') :
    Grew before after (opened ++ opened') (resolved ++ resolved') where
  scopes := by rw [h'.scopes, h.scopes, List.append_assoc]
  resolutions := by rw [h'.resolutions, h.resolutions, List.append_assoc]

end Grew

namespace Analyzer

variable {α β γ δ : Type}

/-- An analyzer follows a visit from a state: it adds the same to the records, fails with the same
error, and otherwise ends with a result and a table that are as wanted. -/
def Follows (p : Analyzer α) (v : Visit β) (Wanted : α → β → SymbolTable → Prop)
    (before : Analysis) : Prop :=
  match p before with
  | .ok a after =>
    Grew before after v.opened v.resolved ∧ ∃ b, v.outcome = .ok b ∧ Wanted a b after.table
  | .error error after => Grew before after v.opened v.resolved ∧ v.outcome = .error error

theorem bind_apply (p : Analyzer α) (q : α → Analyzer β) (before : Analysis) :
    (p >>= q) before =
      match p before with
      | .ok a after => q a after
      | .error error after => .error error after := by
  change EStateM.bind p q before = _
  unfold EStateM.bind
  cases p before <;> rfl

namespace Follows

variable {p : Analyzer α} {v : Visit β} {before : Analysis} {P P' : α → β → SymbolTable → Prop}

theorem bind {q : α → Analyzer γ} {w : β → Visit δ} {Q : γ → δ → SymbolTable → Prop}
    (hp : Follows p v P before)
    (hq : ∀ a b after, P a b after.table → Follows (q a) (w b) Q after) :
    Follows (p >>= q) (v >>= w) Q before := by
  rw [Follows] at hp ⊢
  rw [bind_apply]
  cases hrun : p before with
  | error error after =>
    rw [hrun] at hp
    obtain ⟨hgrew, herror⟩ := hp
    rw [Visit.bind_of_error herror]
    exact ⟨hgrew, rfl⟩
  | ok a between =>
    rw [hrun] at hp
    obtain ⟨hgrew, b, hok, hb⟩ := hp
    rw [Visit.bind_of_ok hok]
    have hnext := hq a b between hb
    rw [Follows] at hnext
    dsimp only
    cases hrun' : q a between with
    | error error after =>
      rw [hrun'] at hnext
      exact ⟨hgrew.trans hnext.1, hnext.2⟩
    | ok c after =>
      rw [hrun'] at hnext
      exact ⟨hgrew.trans hnext.1, hnext.2⟩

theorem mono (hp : Follows p v P before) (h : ∀ a b table, P a b table → P' a b table) :
    Follows p v P' before := by
  rw [Follows] at hp ⊢
  cases hrun : p before with
  | error error after => rwa [hrun] at hp
  | ok a after =>
    rw [hrun] at hp
    obtain ⟨hgrew, b, hok, hb⟩ := hp
    exact ⟨hgrew, b, hok, h a b after.table hb⟩

theorem pure {a : α} {b : β} (h : P a b before.table) : Follows (pure a) (pure b) P before :=
  ⟨.refl before, b, rfl, h⟩

theorem fail_bind {violation : Violation} {line : Nat} {q : γ → Analyzer α} :
    Follows (fail violation line >>= q) (.violates violation line) P before :=
  ⟨.refl before, rfl⟩

theorem fail {violation : Violation} {line : Nat} :
    Follows (Analyzer.fail violation line) (.violates violation line) P before :=
  ⟨.refl before, rfl⟩

theorem step_bind {step : Analyzer γ} {q : γ → Analyzer α} {c : γ} {between : Analysis}
    (hrun : step before = .ok c between) (hscopes : between.scopes = before.scopes)
    (hresolutions : between.resolutions = before.resolutions)
    (hq : Follows (q c) v P between) : Follows (step >>= q) v P before := by
  have hgrew : Grew before between [] [] := by
    constructor
    · rw [hscopes, List.append_nil]
    · rw [hresolutions, List.append_nil]
  rw [Follows] at hq ⊢
  rw [bind_apply, hrun]
  dsimp only
  cases hrun' : q c between with
  | error error after =>
    rw [hrun'] at hq
    exact ⟨hgrew.trans hq.1, hq.2⟩
  | ok a after =>
    rw [hrun'] at hq
    exact ⟨hgrew.trans hq.1, hq.2⟩

section Table

variable {outer : Environment} {frame : Frame}

theorem lookup_bind {name : String} {q : Option Symbol → Analyzer α}
    (hq : Follows (q (before.table.lookup? name)) v P before) :
    Follows (lookup? name >>= q) v P before := hq

theorem resolve_bind {name : String} {q : Option (Symbol × Scope) → Analyzer α}
    (hq : Follows (q (before.table.resolve? name)) v P before) :
    Follows (resolve? name >>= q) v P before := hq

theorem isTaken_bind {name : String} {q : Bool → Analyzer α}
    (h : before.table.ShowsAll (frame :: outer))
    (hfree : frame.meaning? name = none → Follows (q false) v P before)
    (htaken : frame.meaning? name ≠ none → Follows (q true) v P before) :
    Follows (isTaken name >>= q) v P before := by
  change Follows (q (before.table.lookupHere? name).isSome) v P before
  obtain ⟨scope, scopes, htable, hs, -⟩ := h.exists_cons
  have hname := hs.meaning name
  have hhere : before.table.lookupHere? name = scope.get? name := by rw [htable]; rfl
  rw [hhere]
  generalize scope.get? name = found at hname
  cases hmeaning : frame.meaning? name with
  | none =>
    rw [hmeaning] at hname
    cases hname with
    | none => exact hfree hmeaning
  | some meaning =>
    rw [hmeaning] at hname
    cases hname with
    | some => exact htaken (by rw [hmeaning]; exact Option.some_ne_none _)

theorem define_bind {symbol : Symbol} {meaning : Meaning} {q : Unit → Analyzer α}
    (h : before.table.ShowsAll (frame :: outer)) (hs : Stands symbol meaning)
    (hq : ∀ after : Analysis,
      after.table.ShowsAll (frame.declare symbol.name meaning :: outer) →
        Follows (q ()) v P after) :
    Follows (define symbol >>= q) v P before := by
  obtain ⟨scope, scopes, htable, hscope, hscopes⟩ := h.exists_cons
  have hdefine : before.table.define? symbol = some ⟨scope.define symbol :: scopes⟩ := by
    rw [htable]; rfl
  have hrun : define symbol before = .ok ()
      { before with
        table := ⟨scope.define symbol :: scopes⟩
        events := before.events.push
          (.defining symbol ((before.table.current?.map Scope.name).getD "")) } := by
    rw [define_apply, hdefine]
  exact step_bind hrun rfl rfl (hq _ (.cons (hscope.define hs) hscopes))

theorem setEnclosingParams_bind {inside : Frame} {name : String} {params : List TypedName}
    {q : Unit → Analyzer α} (h : before.table.ShowsAll (inside :: frame :: outer))
    (hq : ∀ after : Analysis, after.table.ShowsAll (inside :: frame :: outer) →
      Follows (q ()) v P after) :
    Follows (setEnclosingParams name params >>= q) v P before := by
  obtain ⟨scope, scopes, htable, hscope, hscopes⟩ := h.exists_cons
  obtain ⟨enclosing, rest, hrest, henclosing, hshows⟩ := hscopes.exists_cons
  obtain rfl := SymbolTable.mk.inj hrest
  have hset : before.table.setEnclosingParams name params =
      ⟨scope :: enclosing.setParams name params :: rest⟩ := by
    rw [htable]; rfl
  have hrun : setEnclosingParams name params before =
      .ok () { before with table := before.table.setEnclosingParams name params } := rfl
  rw [hset] at hrun
  exact step_bind hrun rfl rfl
    (hq _ (.cons hscope (.cons (henclosing.setParams name params) hshows)))

theorem leave (h : before.table.ShowsAll (frame :: outer)) (b : β) :
    Follows leave (Pure.pure b) (fun _ b' table => b' = b ∧ table.ShowsAll outer) before := by
  obtain ⟨scope, scopes, htable, -, hscopes⟩ := h.exists_cons
  have hpop : before.table.pop? = some (scope, ⟨scopes⟩) := by rw [htable]; rfl
  have hrun : Analyzer.leave before = .ok ()
      { before with
        table := ⟨scopes⟩
        events := before.events.push (.leaving scope.name scope.level scope.size) } := by
    rw [leave_apply, hpop]
  rw [Follows, hrun]
  exact ⟨⟨(List.append_nil _).symm, (List.append_nil _).symm⟩, b, rfl, rfl, hscopes⟩

theorem enter (h : before.table.ShowsAll (frame :: outer)) (name : String) :
    Follows (enter name) (Visit.opens (frame.inside name) (some frame.name))
      (fun _ inside table => table.ShowsAll (inside :: frame :: outer)) before := by
  obtain ⟨scope, scopes, htable, hscope, hscopes⟩ := h.exists_cons
  have hnew : before.table.newScope name = scope.inside name := by rw [htable]; rfl
  have hcurrent : before.table.current?.map Scope.name = some frame.name := by
    rw [htable, ← hscope.name]; rfl
  have hlevel : (scope.inside name).level = (frame.inside name).level :=
    (hscope.inside name).level
  have hpush : before.table.push name = ⟨scope.inside name :: scope :: scopes⟩ := by
    rw [htable]; rfl
  have hrun : Analyzer.enter name before = .ok ()
      { before with
        table := before.table.push name
        scopes := before.scopes.push
          ⟨name, (before.table.newScope name).level, before.table.current?.map Scope.name⟩
        events := before.events.push (.entering name (before.table.newScope name).level) } := rfl
  rw [hnew, hcurrent, hlevel, hpush] at hrun
  rw [Follows, hrun]
  exact ⟨⟨Array.toList_push, (List.append_nil _).symm⟩, _, rfl,
    .cons (hscope.inside name) (.cons hscope hscopes)⟩

end Table

end Follows

/-! ## References -/

section References

variable {before : Analysis} {env : Environment}

/-- The table still shows the environment. -/
abbrev Same (env : Environment) : Unit → Unit → SymbolTable → Prop :=
  fun _ _ table => table.ShowsAll env

theorem record_follows (h : before.table.ShowsAll env) {scope : Scope} {frame : Frame}
    (hs : Shows scope frame) (name : String) (line : Nat) :
    Follows (record name line scope)
      (⟨[], [⟨name, line, frame.name, frame.level⟩], .ok ()⟩ : Visit Unit) (Same env) before := by
  have hrun : record name line scope before = .ok ()
      { before with
        resolutions := before.resolutions.push ⟨name, line, scope.name, scope.level⟩ } := rfl
  rw [hs.name, hs.level] at hrun
  rw [Follows, hrun]
  exact ⟨⟨(List.append_nil _).symm, Array.toList_push⟩, (), rfl, h⟩

/-- To resolve a name and record where is to visit what mentions it. -/
theorem mention_follows (h : before.table.ShowsAll env) (mention : Mention) :
    Follows (do
      match ← resolve? mention.name with
      | some (_, scope) => record mention.name mention.line scope
      | none => fail mention.violation mention.line) (env.resolve mention) (Same env) before := by
  refine .resolve_bind ?_
  have hfound := h.resolve mention.name
  rw [Environment.resolve]
  generalize before.table.resolve? mention.name = found at hfound
  generalize env.meaning? mention.name = meant at hfound
  cases hfound with
  | none => exact .fail
  | some hm => exact record_follows h hm.2 _ _

theorem reference_follows (h : before.table.ShowsAll env) (ident : Identifier) :
    Follows (reference ident) (env.resolve ident.mention) (Same env) before :=
  mention_follows h ident.mention

/-- Unless the analysis is strict, a call is a reference to the name called. -/
theorem call_false (c : Call) :
    call false c = (do
      match ← resolve? c.name with
      | some (_, scope) => record c.name c.line scope
      | none => fail (.unknownProcedure c.name) c.line) := by
  rw [call]
  congr
  funext found
  cases found with
  | none => rfl
  | some found => exact if_neg Bool.false_ne_true

theorem call_follows (h : before.table.ShowsAll env) (c : Call) :
    Follows (call false c) (env.resolve c.mention) (Same env) before := by
  rw [call_false]
  exact mention_follows h c.mention

theorem Follows.one {p : Analyzer Unit} {mention : Mention}
    (h : Follows p (env.resolve mention) (Same env) before) :
    Follows p (env.resolveAll [mention]) (Same env) before := by
  have hone : env.resolveAll [mention] = env.resolve mention := bind_pure_unit
  rwa [hone]

theorem Follows.append {p q : Analyzer Unit} {ms ns : List Mention}
    (hp : Follows p (env.resolveAll ms) (Same env) before)
    (hq : ∀ after : Analysis, after.table.ShowsAll env →
      Follows q (env.resolveAll ns) (Same env) after) :
    Follows (p >>= fun _ => q) (env.resolveAll (ms ++ ns)) (Same env) before := by
  rw [Environment.resolveAll_append]
  exact hp.bind fun _ _ after h => hq after h

theorem expression_follows (h : before.table.ShowsAll env) (x : Expression) :
    Follows (expression x) (env.resolveAll x.mentions) (Same env) before := by
  induction x generalizing before with
  | binary left op right ihl ihr => exact (ihl h).append fun after h => ihr h
  | unary op operand ih => exact ih h
  | number | boolean => exact .pure h
  | var ident => exact (reference_follows h ident).one

mutual

theorem statement_follows {before : Analysis} {env : Environment}
    (h : before.table.ShowsAll env) (s : Statement) :
    Follows (statement false s) (env.resolveAll s.mentions) (Same env) before := by
  match s with
  | .compound children => exact statements_follow h children
  | .assign target op value =>
    exact (reference_follows h target).one.append fun after h => expression_follows h value
  | .ifThen condition thenBranch =>
    exact (expression_follows h condition).append fun after h => statement_follows h thenBranch
  | .ifThenElse condition thenBranch elseBranch =>
    exact (expression_follows h condition).append fun after h =>
      (statement_follows h thenBranch).append fun after h => statement_follows h elseBranch
  | .loop condition body =>
    exact (expression_follows h condition).append fun after h => statement_follows h body
  | .call c => exact (call_follows h c).one
  | .empty => exact .pure h

theorem statements_follow {before : Analysis} {env : Environment}
    (h : before.table.ShowsAll env) (ss : List Statement) :
    Follows (statements false ss) (env.resolveAll (Statement.allMentions ss)) (Same env)
      before := by
  match ss with
  | [] => exact .pure h
  | s :: ss => exact (statement_follows h s).append fun after h => statements_follow h ss

end

end References

/-! ## Declarations -/

/-- The table shows the frame that the visit gives, inside the same others. -/
abbrev Extended {α : Type} (outer : Environment) : α → Frame → SymbolTable → Prop :=
  fun _ frame table => table.ShowsAll (frame :: outer)

section Variables

variable {before : Analysis} {outer : Environment} {frame : Frame}

theorem declare_follows (h : before.table.ShowsAll (frame :: outer)) (entry : TypedIdentifier) :
    Follows (declare entry) (declareVariable outer frame entry) (Extended outer) before := by
  have hfound := h.lookup entry.type.name
  rw [declare, typeNamed, bind_assoc]
  refine Follows.lookup_bind ?_
  rw [declareVariable]
  generalize before.table.lookup? entry.type.name = found at hfound
  cases hmeaning : Environment.meaning? entry.type.name (frame :: outer) with
  | none =>
    rw [hmeaning] at hfound
    cases hfound with
    | none => exact .fail_bind
  | some meant =>
    rw [hmeaning] at hfound
    obtain ⟨meaning, where_⟩ := meant
    cases hfound with
    | some hs =>
      cases hs with
      | var | procedure => exact .fail_bind
      | type type =>
        rw [pure_bind]
        dsimp only
        refine Follows.isTaken_bind h (fun hfree => ?_) fun htaken => ?_
        · rw [if_pos hfree]
          exact .define_bind h (.var ⟨entry.ident.name, type⟩) fun after h => .pure h
        · rw [if_neg htaken]
          exact .fail_bind

theorem declareAll_follows (h : before.table.ShowsAll (frame :: outer))
    (entries : List TypedIdentifier) :
    Follows (declareAll entries) (declareVariables outer frame entries) (Extended outer)
      before := by
  induction entries generalizing before frame with
  | nil => exact .pure h
  | cons entry rest ih =>
    have hpure : declareVariables outer frame (entry :: rest) =
        declareVariable outer frame entry >>= fun frame =>
          declareVariables outer frame rest >>= pure := by
      rw [declareVariables]
      simp only [bind_pure]
    rw [hpure]
    exact (declare_follows h entry).bind fun _ _ _ h =>
      (ih h).bind fun _ _ _ h => .pure h

end Variables

mutual

/-- A declaration follows its visit: what it declares in the frame stays, and what it declares
further in does not. -/
theorem declaration_follows {before : Analysis} {outer : Environment} {frame : Frame}
    (h : before.table.ShowsAll (frame :: outer)) (d : Declaration) :
    Follows (declaration false d) (d.visit outer frame) (Extended outer) before := by
  match d with
  | .var entry =>
    have hvisit : declareVariable outer frame entry =
        declareVariable outer frame entry >>= pure := (bind_pure _).symm
    rw [Declaration.visit, hvisit]
    exact (declare_follows h entry).bind fun _ _ _ h => .pure h
  | .procedure heading inner body =>
    rw [Declaration.visit]
    refine Follows.isTaken_bind h (fun hfree => ?_) fun htaken => ?_
    · rw [if_pos hfree]
      refine .define_bind h (.procedure heading []) fun after h => ?_
      refine (Follows.enter h heading.name).bind fun _ inside after h => ?_
      refine (declareAll_follows h heading.params).bind fun params inside after h => ?_
      refine .setEnclosingParams_bind h fun after h => ?_
      refine (declarations_follow h inner).bind fun _ inside after h => ?_
      refine (statements_follow h body).bind fun _ _ after h => ?_
      refine (Follows.leave h _).mono ?_
      rintro _ _ table ⟨rfl, h⟩
      exact h
    · rw [if_neg htaken]
      exact .fail_bind

theorem declarations_follow {before : Analysis} {outer : Environment} {frame : Frame}
    (h : before.table.ShowsAll (frame :: outer)) (ds : List Declaration) :
    Follows (declarations false ds) (Declaration.visitAll outer frame ds) (Extended outer)
      before := by
  match ds with
  | [] => exact .pure h
  | d :: ds =>
    exact (declaration_follows h d).bind fun _ _ after h => declarations_follow h ds

end

theorem enter_global_follows :
    Follows (enter "global") (Visit.opens .global none) (Extended []) Analysis.initial :=
  ⟨⟨rfl, rfl⟩, _, rfl, .cons shows_outermost .nil⟩

/-- A program follows its visit, once all that was analysed before is forgotten. -/
theorem program_follows (p : Program) :
    Follows (enter "global" >>= fun _ => block false p.block >>= fun _ => leave) p.visit
      (fun _ _ _ => True) Analysis.initial := by
  refine enter_global_follows.bind fun _ frame after h => ?_
  rw [block, bind_assoc]
  refine (declarations_follow h p.block.declarations).bind fun _ frame after h => ?_
  have hvisit (v : Visit Unit) : v = v >>= fun _ => pure () := (bind_pure v).symm
  rw [hvisit (Environment.resolveAll _ _)]
  refine (statements_follow h p.block.body).bind fun _ _ after h => ?_
  exact (Follows.leave h ()).mono fun _ _ _ _ => trivial

end Analyzer

/-- **An analysis gives what the visit gives**: its result, the scopes that it opens and the
references that it resolves, up to the first violation, whatever was analysed before. -/
theorem Program.analyze_eq_visit (program : Program) (earlier : Analysis) :
    (program.analyze false earlier).1 = program.visit.outcome ∧
      (program.analyze false earlier).2.scopes.toList = program.visit.opened ∧
      (program.analyze false earlier).2.resolutions.toList = program.visit.resolved := by
  have h := Analyzer.program_follows program
  rw [Analyzer.Follows] at h
  have hrun : Analyzer.program false program earlier =
      (Analyzer.enter "global" >>= fun _ =>
        Analyzer.block false program.block >>= fun _ => Analyzer.leave) Analysis.initial := rfl
  rw [analyze, hrun]
  split at h
  · next after hok =>
    obtain ⟨⟨hscopes, hresolutions⟩, b, houtcome, -⟩ := h
    rw [hok]
    exact ⟨houtcome.symm, hscopes, hresolutions⟩
  · next error after herror =>
    obtain ⟨⟨hscopes, hresolutions⟩, houtcome⟩ := h
    rw [herror]
    exact ⟨houtcome.symm, hscopes, hresolutions⟩

end LusoPascal
