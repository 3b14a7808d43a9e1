import LusoPascal.Proofs.Analysis.Discipline
import LusoPascal.Proofs.Analysis.Strictness
import LusoPascal.Proofs.Grammar.Image
import LusoPascal.Proofs.Grammar.Stream

/-!
# The words for types are never lost

Types share the name space of variables and procedures. But a name that a text holds is no reserved
word, so nothing that is declared hides the two words for types, and no declaration is rejected
because of them.

* `SymbolTable.KnowsTypes`: the two words stand for their types;
* `Scope.Files`: a scope files what was declared in it, and maybe the types;
* `Declaration.scopes`, `SemanticError.Repeats`: the scopes of a program, and a name that one of
  them declares twice;
* `Reaches`: the state in which the analysis comes to declare a variable or a parameter;
* **`declaration_files`**, **`Reaches.knowsTypes`**: the types are known everywhere;
* **`Report.builtin_types_stay_known`**: for all texts.
-/

namespace LusoPascal

/-! ## Names and words for types -/

theorem BaseType.word_mem_reservedWords (type : BaseType) :
    type.word ∈ reservedWords.map Prod.fst := by
  cases type <;> decide

theorem IsName.ne_word {name : String} (h : IsName name) (type : BaseType) : name ≠ type.word := by
  rintro rfl
  exact h.notReserved type.word_mem_reservedWords

theorem IsName.ofWord?_eq_none {name : String} (h : IsName name) :
    BaseType.ofWord? name = none := by
  rw [BaseType.ofWord?, List.find?_eq_none]
  intro type _ hword
  exact h.ne_word type (eq_of_beq hword).symm

theorem TypedIdentifier.WellFormed.exists_builtin {entry : TypedIdentifier} (h : entry.WellFormed) :
    ∃ type, entry.type.builtin? = some type ∧ entry.type.name = type.word := by
  obtain ⟨hkind, spelling, hspelling, hlexeme⟩ := h.type
  have hname : entry.type.name = spelling := by rw [TypeName.name, Token.text, hlexeme]
  rw [TypeName.builtin?, hname]
  generalize entry.type.token.kind = kind at hkind hspelling ⊢
  rcases List.mem_pair.mp hkind with rfl | rfl <;> obtain rfl := Option.some.inj hspelling
  · exact ⟨.inteiro, rfl, rfl⟩
  · exact ⟨.logico, rfl, rfl⟩

/-! ## Scopes that keep the types -/

/-- The two words stand for their types. -/
def SymbolTable.KnowsTypes (table : SymbolTable) : Prop :=
  ∀ type : BaseType, table.lookup? type.word = some (.type type)

namespace SymbolTable

variable {scope : Scope} {outer : List Scope}

namespace KnowsTypes

theorem define (h : (mk (scope :: outer)).KnowsTypes) {symbol : Symbol}
    (hname : ∀ type : BaseType, symbol.name ≠ type.word) :
    (mk (scope.define symbol :: outer)).KnowsTypes := by
  intro type
  rw [lookup?_cons, Scope.get?_define, if_neg (hname type).symm, ← lookup?_cons, h type]

theorem inside (h : (mk (scope :: outer)).KnowsTypes) (name : String) :
    (mk (scope.inside name :: scope :: outer)).KnowsTypes := by
  intro type
  rw [lookup?_cons, h type]
  rfl

theorem setParams (h : (mk (scope :: outer)).KnowsTypes) (name : String) (params : List TypedName) :
    (mk (scope.setParams name params :: outer)).KnowsTypes := by
  intro type
  have htype := h type
  rw [lookup?_cons] at htype ⊢
  rw [Scope.get?_setParams]
  cases hfound : scope.get? type.word with
  | none =>
    rw [hfound] at htype
    rwa [Option.map_none, ite_self]
  | some symbol =>
    rw [hfound] at htype
    obtain rfl : symbol = .type type := Option.some.inj htype
    rw [Option.map_some, show (Symbol.type type).withParams params = .type type from rfl, ite_self]
    rfl

/-- The scopes around the current one may change as long as the types are known there. -/
theorem change (h : (mk (scope :: outer)).KnowsTypes) {outer' : List Scope}
    (h' : (mk outer').KnowsTypes) : (mk (scope :: outer')).KnowsTypes := by
  intro type
  have htype := h type
  rw [lookup?_cons] at htype ⊢
  cases hfound : scope.get? type.word with
  | none => exact h' type
  | some symbol =>
    rw [hfound] at htype
    exact htype

end KnowsTypes

end SymbolTable

/-! ## The scopes of a program -/

namespace Declaration

def name : Declaration → String
  | var entry => entry.ident.name
  | procedure heading _ _ => heading.name

/-- The error of declaring a name that is taken. -/
def redeclared : Declaration → SemanticError
  | var entry => ⟨.redeclaredVariable entry.ident.name, entry.ident.line⟩
  | procedure heading _ _ => ⟨.redeclaredProcedure heading.name, heading.line⟩

mutual

/-- The scopes that a declaration opens, each as the list of what is declared in it. The parameters
of a procedure share the scope of its block. -/
def scopes : Declaration → List (List Declaration)
  | var _ => []
  | procedure heading inner _ => (heading.params.map var ++ inner) :: allScopes inner

def allScopes : List Declaration → List (List Declaration)
  | [] => []
  | d :: ds => d.scopes ++ allScopes ds

end

mutual

/-- The variables and parameters declared by a declaration, also in the scopes that it opens. -/
def entries : Declaration → List TypedIdentifier
  | var entry => [entry]
  | procedure heading inner _ => heading.params ++ allEntries inner

def allEntries : List Declaration → List TypedIdentifier
  | [] => []
  | d :: ds => d.entries ++ allEntries ds

end

theorem WellFormed.isName {d : Declaration} (h : d.WellFormed) : IsName d.name := by
  cases d with
  | var entry => exact TypedIdentifier.WellFormed.ident h |>.isName
  | procedure heading inner body => exact h.1.1

end Declaration

/-- An error about a declaration is that of a name declared twice in one of some scopes, and the
name is no word for a type. -/
def SemanticError.Repeats (error : SemanticError) (scopes : List (List Declaration)) : Prop :=
  error.violation.isDeclaring = true → ∃ scope ∈ scopes, ∃ first second,
    [first, second].Sublist scope ∧ first.name = second.name ∧ error = second.redeclared ∧
      BaseType.ofWord? second.name = none

namespace SemanticError.Repeats

variable {error : SemanticError} {scopes scopes' : List (List Declaration)}

theorem mono (h : error.Repeats scopes)
    (hscopes : ∀ scope ∈ scopes, ∃ scope' ∈ scopes', scope.Sublist scope') :
    error.Repeats scopes' := by
  intro herror
  obtain ⟨scope, hscope, first, second, hsublist, hrest⟩ := h herror
  obtain ⟨scope', hscope', hsublist'⟩ := hscopes scope hscope
  exact ⟨scope', hscope', first, second, hsublist.trans hsublist', hrest⟩

theorem of_mem {done : List Declaration} {first : Declaration} (second : Declaration)
    (hfirst : first ∈ done) (hname : first.name = second.name) (hsecond : second.WellFormed) :
    second.redeclared.Repeats ((done ++ [second]) :: scopes) := fun _ =>
  ⟨_, List.mem_cons_self, first, second,
    (List.singleton_sublist.mpr hfirst).append (List.Sublist.refl [second]), hname, rfl,
    hsecond.isName.ofWord?_eq_none⟩

theorem of_not_declaring (h : error.violation.isDeclaring = false) : error.Repeats scopes := by
  intro herror
  rw [h] at herror
  cases herror

end SemanticError.Repeats

/-! ## What a scope files -/

/-- A scope files names that were declared in it; whatever else it files is a type. -/
def Scope.Files (scope : Scope) (done : List Declaration) : Prop :=
  ∀ name symbol, scope.get? name = some symbol →
    (∃ d ∈ done, d.name = name) ∨ ∃ type : BaseType, name = type.word ∧ symbol = .type type

namespace Scope.Files

variable {scope : Scope} {done : List Declaration}

theorem outermost (name : String) : (Scope.outermost name).Files [] := by
  intro word symbol hfound
  change [("inteiro", Symbol.type .inteiro), ("logico", .type .logico)].lookup word = _ at hfound
  rw [lookup_cons_eq_ite, lookup_cons_eq_ite, List.lookup_nil] at hfound
  split at hfound
  · next hword => exact .inr ⟨.inteiro, hword, (Option.some.inj hfound).symm⟩
  · split at hfound
    · next hword => exact .inr ⟨.logico, hword, (Option.some.inj hfound).symm⟩
    · cases hfound

theorem inside (scope : Scope) (name : String) : (scope.inside name).Files [] := nofun

theorem define (h : scope.Files done) {symbol : Symbol} {d : Declaration}
    (hname : symbol.name = d.name) : (scope.define symbol).Files (done ++ [d]) := by
  intro name found hfound
  rw [Scope.get?_define] at hfound
  split at hfound
  · next hsame => exact .inl ⟨d, List.mem_concat_self, by rw [hsame, hname]⟩
  · exact (h name found hfound).imp_left fun ⟨e, he, hename⟩ =>
      ⟨e, List.mem_append_left _ he, hename⟩

theorem setParams (h : scope.Files done) (name : String) (params : List TypedName) :
    (scope.setParams name params).Files done := by
  intro other found hfound
  rw [Scope.get?_setParams] at hfound
  split at hfound
  · obtain ⟨symbol, hsymbol, rfl⟩ := Option.map_eq_some_iff.mp hfound
    rcases h other symbol hsymbol with hdone | ⟨type, hword, rfl⟩
    · exact .inl hdone
    · exact .inr ⟨type, hword, rfl⟩
  · exact h other found hfound

/-- A name that is taken was declared before. -/
theorem exists_of_isName (h : scope.Files done) {name : String} (hname : IsName name)
    (htaken : (scope.get? name).isSome = true) : ∃ d ∈ done, d.name = name := by
  obtain ⟨symbol, hsymbol⟩ := Option.isSome_iff_exists.mp htaken
  rcases h name symbol hsymbol with hdone | ⟨type, hword, -⟩
  · exact hdone
  · exact absurd hword (hname.ne_word type)

end Scope.Files

/-- The current scope files what was declared in it, inside given scopes, and the types are
known. -/
structure SymbolTable.Files (table : SymbolTable) (done : List Declaration) (outer : List Scope) :
    Prop where
  files : ∃ scope, table = ⟨scope :: outer⟩ ∧ scope.Files done
  types : table.KnowsTypes

/-! ## The analysis keeps the types -/

namespace Analyzer

variable {before after : Analysis} {done : List Declaration} {outer : List Scope}

theorem declare_files {entry : TypedIdentifier} (hwf : entry.WellFormed)
    (h : before.table.Files done outer) :
    Meets (declare entry) before
      (fun _ after => after.table.Files (done ++ [.var entry]) outer)
      fun error _ => error.Repeats [done ++ [.var entry]] := by
  obtain ⟨⟨scope, htable, hfiles⟩, htypes⟩ := h
  refine (declare_meets entry htable).mono ?_ ?_
  · rintro typed after ⟨hname, -, -, hafter⟩
    rw [htable] at htypes
    have hname' (type : BaseType) : (Symbol.var typed).name ≠ type.word := by
      rw [Symbol.name, hname]
      exact hwf.ident.isName.ne_word type
    exact hafter ▸ ⟨⟨_, rfl, hfiles.define hname⟩, htypes.define hname'⟩
  · rintro error stop ⟨-, ⟨-, hunknown⟩ | ⟨rfl, htaken⟩⟩
    · obtain ⟨type, -, hword⟩ := hwf.exists_builtin
      exact absurd (hword ▸ htypes type) (hunknown type)
    · obtain ⟨first, hfirst, hname⟩ := hfiles.exists_of_isName hwf.ident.isName htaken
      exact .of_mem (.var entry) hfirst hname hwf

theorem declareAll_files {entries : List TypedIdentifier}
    (hwf : ∀ entry ∈ entries, entry.WellFormed) (h : before.table.Files done outer) :
    Meets (declareAll entries) before
      (fun _ after => after.table.Files (done ++ entries.map .var) outer)
      fun error _ => error.Repeats [done ++ entries.map .var] := by
  induction entries generalizing before done with
  | nil => exact .pure (by rwa [List.map_nil, List.append_nil])
  | cons entry rest ih =>
    obtain ⟨hentry, hrest⟩ := List.forall_mem_cons.mp hwf
    have hsplit : done ++ (entry :: rest).map Declaration.var =
        done ++ [.var entry] ++ rest.map Declaration.var := by
      rw [List.append_assoc]
      rfl
    rw [hsplit]
    refine ((declare_files hentry h).mono (fun _ _ => id) fun error _ herror => ?_).bind
      fun typed between hbetween => (ih hrest hbetween).bind fun _ after hafter => .pure hafter
    exact herror.mono fun scope hscope =>
      ⟨_, List.mem_singleton_self _, List.mem_singleton.mp hscope ▸ List.sublist_append_left _ _⟩

section Procedure

variable {heading : Heading} {inner : List Declaration} {body : List Statement}

/-- The types are known inside a procedure, and its name is filed around it. -/
theorem openProcedure_files (hwf : (Declaration.procedure heading inner body).WellFormed)
    (h : before.table.Files done outer) :
    Meets (openProcedure heading) before
      (fun _ after => ∃ scope, scope.Files (done ++ [.procedure heading inner body]) ∧
        (SymbolTable.mk (scope :: outer)).KnowsTypes ∧ after.table.Files [] (scope :: outer))
      fun error _ => error.Repeats ((done ++ [.procedure heading inner body]) ::
        (Declaration.procedure heading inner body).scopes) := by
  obtain ⟨⟨scope, htable, hfiles⟩, htypes⟩ := h
  have hname := hwf.isName
  refine (openProcedure_meets heading htable).mono ?_ ?_
  · rintro _ after ⟨-, hafter⟩
    rw [htable] at htypes
    have htypes' : (SymbolTable.mk (scope.define (.procedure heading.name []) :: outer)).KnowsTypes :=
      htypes.define hname.ne_word
    exact ⟨_, hfiles.define (d := .procedure heading inner body) rfl, htypes',
      hafter ▸ ⟨⟨_, rfl, .inside _ _⟩, htypes'.inside heading.name⟩⟩
  · rintro error stop ⟨-, rfl, htaken⟩
    obtain ⟨first, hfirst, hsame⟩ := hfiles.exists_of_isName hname htaken
    exact .of_mem (.procedure heading inner body) hfirst hsame hwf

/-- The parameters are filed inside the procedure, and the symbol around it is completed. -/
theorem declareParams_files {scope : Scope} (hwf : ∀ param ∈ heading.params, param.WellFormed)
    (hscope : scope.Files done) (htypes : (SymbolTable.mk (scope :: outer)).KnowsTypes)
    (h : before.table.Files [] (scope :: outer)) :
    Meets (declareParams heading) before
      (fun _ after => ∃ scope, scope.Files done ∧ (SymbolTable.mk (scope :: outer)).KnowsTypes ∧
        after.table.Files (heading.params.map .var) (scope :: outer))
      fun error _ => error.Repeats [heading.params.map .var] := by
  refine (declareAll_files hwf h).bind fun params between hbetween => ?_
  obtain ⟨⟨inside, htable, hinside⟩, hknows⟩ := hbetween
  refine (setEnclosingParams_meets heading.name params htable).mono (fun _ after hafter => ?_)
    fun _ _ => id
  rw [htable] at hknows
  have htypes' := htypes.setParams heading.name params
  exact ⟨_, hscope.setParams heading.name params, htypes',
    hafter ▸ ⟨⟨inside, rfl, hinside⟩, hknows.change htypes'⟩⟩

theorem leave_files {scope : Scope} {inside : List Declaration} (hscope : scope.Files done)
    (htypes : (SymbolTable.mk (scope :: outer)).KnowsTypes)
    (h : before.table.Files inside (scope :: outer)) {Stopped : SemanticError → Analysis → Prop} :
    Meets leave before (fun _ after => after.table.Files done outer) Stopped := by
  obtain ⟨⟨inside, htable, -⟩, -⟩ := h
  exact (leave_meets htable).mono (fun _ after hafter => hafter ▸ ⟨⟨scope, rfl, hscope⟩, htypes⟩)
    fun _ _ => id

end Procedure

section Declaration

variable (strict : Bool)

theorem statements_files (ss : List Statement) (h : before.table.Files done outer)
    (scopes : List (List Declaration)) :
    Meets (statements strict ss) before (fun _ after => after.table.Files done outer)
      fun error _ => error.Repeats scopes :=
  (keeps_inherited.statements strict ss before).mono (fun _ _ hafter => hafter ▸ h)
    fun _ _ hstop => .of_not_declaring hstop.2

mutual

/-- **A declaration files its name**, and is rejected only for names declared twice. -/
theorem declaration_files (d : Declaration) (hwf : d.WellFormed) {before : Analysis}
    {done : List Declaration} {outer : List Scope} (h : before.table.Files done outer) :
    Meets (declaration strict d) before (fun _ after => after.table.Files (done ++ [d]) outer)
      fun error _ => error.Repeats ((done ++ [d]) :: d.scopes) := by
  match d with
  | .var entry =>
    rw [declaration]
    exact (declare_files hwf h).bind fun _ after hafter => .pure hafter
  | .procedure heading inner body =>
    obtain ⟨⟨-, hparams⟩, ⟨-, hinner⟩, -, -⟩ := id hwf
    rw [declaration_procedure]
    refine (openProcedure_files hwf h).bind fun _ opened => ?_
    rintro ⟨scope, hscope, htypes, hopened⟩
    refine ((declareParams_files hparams hscope htypes hopened).mono (fun _ _ => id)
      fun error _ herror => ?_).bind fun _ begun => ?_
    · refine herror.mono fun scope hmem => ⟨heading.params.map .var ++ inner, ?_, ?_⟩
      · exact List.mem_cons_of_mem _ List.mem_cons_self
      · exact List.mem_singleton.mp hmem ▸ List.sublist_append_left _ _
    · rintro ⟨scope, hscope, htypes, hbegun⟩
      refine ((declarations_files inner hinner hbegun).mono (fun _ _ => id)
        fun error _ herror => ?_).bind fun _ _ hinside => ?_
      · exact herror.mono fun scope hmem => ⟨scope, List.mem_cons_of_mem _ hmem, .refl _⟩
      · exact (statements_files strict body hinside _).bind fun _ _ hinside =>
          leave_files hscope htypes hinside

theorem declarations_files (ds : List Declaration) (hwf : Declaration.AllWellFormed ds)
    {before : Analysis} {done : List Declaration} {outer : List Scope}
    (h : before.table.Files done outer) :
    Meets (declarations strict ds) before (fun _ after => after.table.Files (done ++ ds) outer)
      fun error _ => error.Repeats ((done ++ ds) :: Declaration.allScopes ds) := by
  match ds with
  | [] => exact .pure (by rwa [List.append_nil])
  | d :: ds =>
    have hsplit : done ++ d :: ds = done ++ [d] ++ ds := by
      rw [List.append_assoc]
      rfl
    rw [declarations, hsplit]
    refine ((declaration_files d hwf.1 h).mono (fun _ _ => id) fun error _ herror => ?_).bind
      fun _ between hbetween => ((declarations_files ds hwf.2 hbetween).mono (fun _ _ => id)
        fun error _ herror => ?_)
    · refine herror.mono fun scope hmem => ?_
      rcases List.mem_cons.mp hmem with rfl | hmem
      · exact ⟨_, List.mem_cons_self, List.sublist_append_left _ _⟩
      · exact ⟨scope, List.mem_cons_of_mem _ (List.mem_append_left _ hmem), .refl _⟩
    · refine herror.mono fun scope hmem => ?_
      rcases List.mem_cons.mp hmem with rfl | hmem
      · exact ⟨_, List.mem_cons_self, .refl _⟩
      · exact ⟨scope, List.mem_cons_of_mem _ (List.mem_append_right _ hmem), .refl _⟩

end

end Declaration

/-! ## Where types are looked up -/

/-- `Reaches strict ds before entry here`: the analysis of declarations, begun in one state, comes
to declare a variable or a parameter in another one. -/
inductive Reaches (strict : Bool) : List Declaration → Analysis → TypedIdentifier → Analysis → Prop
  | var {entry : TypedIdentifier} {rest : List Declaration} {here : Analysis} :
      Reaches strict (.var entry :: rest) here entry here
  | param {heading : Heading} {inner rest : List Declaration} {body : List Statement}
      {earlier later : List TypedIdentifier} {params : List TypedName} {entry : TypedIdentifier}
      {before opened here : Analysis} (hopen : openProcedure heading before = .ok () opened)
      (hparams : heading.params = earlier ++ entry :: later)
      (hrun : declareAll earlier opened = .ok params here) :
      Reaches strict (.procedure heading inner body :: rest) before entry here
  | inner {heading : Heading} {inner rest : List Declaration} {body : List Statement}
      {entry : TypedIdentifier} {before opened begun here : Analysis}
      (hopen : openProcedure heading before = .ok () opened)
      (hbegin : declareParams heading opened = .ok () begun)
      (h : Reaches strict inner begun entry here) :
      Reaches strict (.procedure heading inner body :: rest) before entry here
  | later {d : Declaration} {rest : List Declaration} {entry : TypedIdentifier}
      {before between here : Analysis} (hrun : declaration strict d before = .ok () between)
      (h : Reaches strict rest between entry here) : Reaches strict (d :: rest) before entry here

/-- **The types are known wherever a variable or a parameter is declared.** -/
theorem Reaches.knowsTypes {strict : Bool} {ds : List Declaration} {entry : TypedIdentifier}
    {here : Analysis} (h : Reaches strict ds before entry here)
    (hwf : Declaration.AllWellFormed ds) (hbefore : before.table.Files done outer) :
    entry.WellFormed ∧ here.table.KnowsTypes := by
  induction h generalizing done outer with
  | var => exact ⟨hwf.1, hbefore.types⟩
  | param hopen hparams hrun =>
    obtain ⟨scope, -, -, hopened⟩ := (openProcedure_files hwf.1 hbefore).of_ok hopen
    have hparams' := hwf.1.1.2
    rw [hparams, List.forall_mem_append, List.forall_mem_cons] at hparams'
    exact ⟨hparams'.2.1, ((declareAll_files hparams'.1 hopened).of_ok hrun).types⟩
  | inner hopen hbegin _ ih =>
    obtain ⟨scope, hscope, htypes, hopened⟩ := (openProcedure_files hwf.1 hbefore).of_ok hopen
    obtain ⟨_, -, -, hbegun⟩ := (declareParams_files hwf.1.1.2 hscope htypes hopened).of_ok hbegin
    exact ih hwf.1.2.1.2 hbegun
  | later hrun _ ih => exact ih hwf.2 ((declaration_files strict _ hwf.1 hbefore).of_ok hrun)

/-- Where the types are known, the word for a type is looked up to what its category names. -/
theorem typeNamed_of_knowsTypes {entry : TypedIdentifier} (hwf : entry.WellFormed)
    {here : Analysis} (h : here.table.KnowsTypes) :
    ∃ type, entry.type.builtin? = some type ∧
      typeNamed entry.type entry.ident.line here = .ok type here := by
  obtain ⟨type, hbuiltin, hword⟩ := hwf.exists_builtin
  refine ⟨type, hbuiltin, ?_⟩
  rw [typeNamed, lookup?_bind, hword, h type]
  rfl

section Complete

variable (strict : Bool)

mutual

theorem reaches_of_declaration_ok (d : Declaration) {before after : Analysis}
    (h : declaration strict d before = .ok () after) {entry : TypedIdentifier}
    (hentry : entry ∈ d.entries) (rest : List Declaration) :
    ∃ here, Reaches strict (d :: rest) before entry here := by
  match d with
  | .var entry' =>
    obtain rfl := List.mem_singleton.mp hentry
    exact ⟨before, .var⟩
  | .procedure heading inner body =>
    rw [declaration_procedure] at h
    obtain ⟨_, opened, hopen, h⟩ := bind_eq_ok.mp h
    obtain ⟨_, begun, hbegin, h⟩ := bind_eq_ok.mp h
    obtain ⟨_, inside, hinner, -⟩ := bind_eq_ok.mp h
    rcases List.mem_append.mp hentry with hparam | hinside
    · obtain ⟨earlier, later, hparams⟩ := List.append_of_mem hparam
      obtain ⟨params, _, hrun, -⟩ := bind_eq_ok.mp hbegin
      rw [hparams, declareAll_append] at hrun
      obtain ⟨_, here, hrun', -⟩ := bind_eq_ok.mp hrun
      exact ⟨here, .param hopen hparams hrun'⟩
    · obtain ⟨here, hreaches⟩ := reaches_of_ok inner hinner hinside
      exact ⟨here, .inner hopen hbegin hreaches⟩

theorem reaches_of_ok (ds : List Declaration) {before after : Analysis}
    (h : declarations strict ds before = .ok () after) {entry : TypedIdentifier}
    (hentry : entry ∈ Declaration.allEntries ds) : ∃ here, Reaches strict ds before entry here := by
  match ds with
  | [] => cases hentry
  | d :: ds =>
    obtain ⟨_, between, hrun, hrest⟩ := bind_eq_ok.mp h
    rcases List.mem_append.mp hentry with hfirst | hlater
    · exact reaches_of_declaration_ok d hrun hfirst ds
    · obtain ⟨here, hreaches⟩ := reaches_of_ok ds hrest hlater
      exact ⟨here, .later hrun hreaches⟩

end

end Complete

end Analyzer

/-! ## Whole programs -/

namespace Program

variable {program : Program} {strict : Bool}

/-- The scopes of a program, each as the list of what is declared in it. -/
def scopes (program : Program) : List (List Declaration) :=
  program.block.declarations :: Declaration.allScopes program.block.declarations

/-- The analysis of a program comes to declare a variable or a parameter in a state. -/
def Reaches (strict : Bool) (program : Program) (entry : TypedIdentifier) (here : Analysis) :
    Prop :=
  ∃ start, Analyzer.enter "global" .initial = .ok () start ∧
    Analyzer.Reaches strict program.block.declarations start entry here

theorem files_start {start : Analysis} (h : Analyzer.enter "global" .initial = .ok () start) :
    start.table.Files [] [] := by
  cases h
  refine ⟨⟨_, rfl, .outermost "global"⟩, fun type => ?_⟩
  cases type <;> rfl

theorem analyze_repeats (hwf : program.WellFormed) {earlier : Analysis} {error : SemanticError}
    (h : (program.analyze strict earlier).1 = .error error) : error.Repeats program.scopes := by
  obtain ⟨start, hstart⟩ : ∃ start, Analyzer.enter "global" .initial = .ok () start := ⟨_, rfl⟩
  have hblock : Analyzer.Meets (Analyzer.block strict program.block) start (fun _ _ => True)
      fun error _ => error.Repeats program.scopes :=
    (Analyzer.declarations_files strict _ hwf.block.1.2 (files_start hstart)).bind
      fun _ _ hfiles => (Analyzer.statements_files strict program.block.body hfiles _).mono
        (fun _ _ _ => trivial) fun _ _ => id
  have hmeets : Analyzer.Meets (Analyzer.block strict program.block >>= fun _ => Analyzer.leave)
      start (fun _ _ => True) fun error _ => error.Repeats program.scopes :=
    hblock.bind fun _ _ _ => trivial
  rw [analyze, program_apply hstart] at h
  cases hrun : (Analyzer.block strict program.block >>= fun _ => Analyzer.leave) start with
  | ok _ after => rw [hrun] at h; cases h
  | error error' stop =>
    rw [hrun] at h
    obtain rfl := Except.error.inj h
    exact hmeets.of_error hrun

theorem reaches_of_analyze_ok {earlier : Analysis} (h : (program.analyze strict earlier).1 = .ok ())
    {entry : TypedIdentifier} (hentry : entry ∈ Declaration.allEntries program.block.declarations) :
    ∃ here, program.Reaches strict entry here := by
  obtain ⟨start, hstart⟩ : ∃ start, Analyzer.enter "global" .initial = .ok () start := ⟨_, rfl⟩
  rw [analyze, program_apply hstart] at h
  cases hrun : (Analyzer.block strict program.block >>= fun _ => Analyzer.leave) start with
  | error error stop => rw [hrun] at h; cases h
  | ok _ after =>
    obtain ⟨_, _, hblock, -⟩ := Analyzer.bind_eq_ok.mp hrun
    obtain ⟨_, _, hdeclarations, -⟩ := Analyzer.bind_eq_ok.mp hblock
    obtain ⟨here, hreaches⟩ := Analyzer.reaches_of_ok strict _ hdeclarations hentry
    exact ⟨here, start, hstart, hreaches⟩

end Program

/-- A compilation fails in the analysis just if a text holds a program that its analysis rejects. -/
theorem Report.outcome_semantic_iff {strict : Bool} {source : String} {error : SemanticError} :
    (Report.ofSource strict source).outcome = .error (.semantic error) ↔
      ∃ program, Program.ofSource source = .ok program ∧
        (program.analyze strict .initial).1 = .error error := by
  rw [Report.outcome_eq]
  rcases Program.ofSource source with error' | program
  · cases error' <;> simp [ParseError.toFailure]
  · dsimp only
    rcases hrun : (program.analyze strict .initial).1 with error' | _ <;>
      simp [hrun, Except.mapError, Except.map]

/-- **The words for types are never lost**, so no text is rejected for an unknown type, and a name
that is declared twice is no word for a type. -/
theorem Report.builtin_types_stay_known (strict : Bool) (source : String) :
    (∀ name line,
      (Report.ofSource strict source).outcome ≠ .error (.semantic ⟨.unknownType name, line⟩)) ∧
    ∀ program, Program.ofSource source = .ok program →
      (∀ entry here, program.Reaches strict entry here → ∃ type,
        entry.type.builtin? = some type ∧
          Analyzer.typeNamed entry.type entry.ident.line here = .ok type here) ∧
      ((Report.ofSource strict source).outcome = .ok program →
        ∀ entry ∈ Declaration.allEntries program.block.declarations,
          ∃ here, program.Reaches strict entry here) ∧
      ∀ error, (Report.ofSource strict source).outcome = .error (.semantic error) →
        error.violation.isDeclaring = true → ∃ scope ∈ program.scopes, ∃ first second,
          [first, second].Sublist scope ∧ first.name = second.name ∧ error = second.redeclared ∧
            BaseType.ofWord? second.name = none := by
  refine ⟨fun name line houtcome => ?_, fun program hprogram => ⟨?_, ?_, ?_⟩⟩
  · obtain ⟨program, hprogram, hrun⟩ := outcome_semantic_iff.mp houtcome
    have hrepeats := Program.analyze_repeats (Program.wellFormed_of_ofSource hprogram) hrun
    obtain ⟨_, -, _, second, -, -, herror, -⟩ := hrepeats rfl
    cases second <;> cases herror
  · rintro entry here ⟨start, hstart, hreaches⟩
    have hwf := (Program.wellFormed_of_ofSource hprogram).block.1.2
    obtain ⟨hentry, hknows⟩ := hreaches.knowsTypes hwf (Program.files_start hstart)
    exact Analyzer.typeNamed_of_knowsTypes hentry hknows
  · intro houtcome entry hentry
    rw [outcome_eq, hprogram] at houtcome
    dsimp only at houtcome
    rcases hrun : (program.analyze strict .initial).1 with error | ⟨⟩
    · rw [hrun] at houtcome
      cases houtcome
    · exact Program.reaches_of_analyze_ok hrun hentry
  · intro error houtcome
    obtain ⟨program', hprogram', hrun⟩ := outcome_semantic_iff.mp houtcome
    obtain rfl := Except.ok.inj (hprogram.symm.trans hprogram')
    exact Program.analyze_repeats (Program.wellFormed_of_ofSource hprogram) hrun

end LusoPascal
