import LusoPascal.Proofs.Scope.Stack
import LusoPascal.Proofs.Tree.Relabel

/-!
# Scopes under other names

A table of scopes whose names are changed one for one can be updated and searched as before, under
the new names. A word in place of a type is not changed, and stands for a type afterwards just where
it did before.

* `Relabelling.scopeName`: the names of scopes; the outermost one is no procedure's;
* `Symbol.relabel`, `Scope.relabel`, `SymbolTable.relabel`: the scopes and what they file;
* `SymbolTable.IsStack`: the tables that steps lead to;
* `SymbolTable.push_relabel`, `SymbolTable.define?_relabel`, and the like: updates;
* **`SymbolTable.resolve?_relabel`**: what a name stands for, and where;
* **`SymbolTable.lookup?_relabel_eq_type_iff`**: what a word stands for.
-/

namespace LusoPascal

variable (rule : Relabelling)

/-- The name of the scope at a level: the outermost scope keeps its name, and any other one has that
of its procedure. -/
def Relabelling.scopeName (level : Nat) (name : String) : String :=
  if level = 1 then "global" else rule.name name

theorem Relabelling.scopeName_succ {level : Nat} (h : 0 < level) (name : String) :
    rule.scopeName (level + 1) name = rule.name name :=
  if_neg (by omega)

/-- A typed name changed. -/
def TypedName.relabel (entry : TypedName) : TypedName := ⟨rule.name entry.name, entry.type⟩

/-- What a changed name stands for. -/
def Symbol.relabel : Symbol → Symbol
  | var entry => var (entry.relabel rule)
  | procedure name params => procedure (rule.name name) (params.map (TypedName.relabel rule))
  | constant entry => constant (entry.relabel rule)
  | type t => type t

def Scope.relabel (scope : Scope) : Scope :=
  ⟨rule.scopeName scope.level scope.name, scope.level,
    scope.bindings.map (Prod.map rule.name (Symbol.relabel rule))⟩

def SymbolTable.relabel (table : SymbolTable) : SymbolTable :=
  ⟨table.scopes.map (Scope.relabel rule)⟩

/-! ## Symbols -/

namespace Symbol

@[simp] theorem name_relabel (symbol : Symbol) :
    (symbol.relabel rule).name = rule.name symbol.name := by
  cases symbol with
  | type t => exact (rule.name_word t).symm
  | var | procedure | constant => rfl

theorem withParams_relabel (params : List TypedName) (symbol : Symbol) :
    (symbol.relabel rule).withParams (params.map (TypedName.relabel rule)) =
      (symbol.withParams params).relabel rule := by
  cases symbol <;> rfl

theorem relabel_eq_type_iff {symbol : Symbol} {t : BaseType} :
    symbol.relabel rule = .type t ↔ symbol = .type t := by
  cases symbol with
  | type => rfl
  | var | procedure | constant => exact iff_of_false Symbol.noConfusion Symbol.noConfusion

end Symbol

/-! ## Scopes -/

section Bindings

variable {α β : Type} (g : α → β)

theorem lookup_map_relabel (name : String) (bindings : List (String × α)) :
    (bindings.map (Prod.map rule.name g)).lookup (rule.name name) =
      (bindings.lookup name).map g := by
  induction bindings with
  | nil => rfl
  | cons entry rest ih =>
    obtain ⟨key, value⟩ := entry
    rw [List.map_cons, Prod.map_apply, lookup_cons_eq_ite, lookup_cons_eq_ite, ih]
    simp only [rule.injective.eq_iff, apply_ite (Option.map g), Option.map_some]

theorem fileUnder_map_relabel (name : String) (value : α) (bindings : List (String × α)) :
    fileUnder (rule.name name) (g value) (bindings.map (Prod.map rule.name g)) =
      (fileUnder name value bindings).map (Prod.map rule.name g) := by
  induction bindings with
  | nil => rfl
  | cons entry rest ih =>
    obtain ⟨key, old⟩ := entry
    by_cases hkey : key = name
    · simp [fileUnder, hkey]
    · simp [fileUnder, hkey, rule.injective.ne hkey, ih]

end Bindings

namespace Scope

variable (scope : Scope)

theorem get?_relabel (name : String) :
    (scope.relabel rule).get? (rule.name name) = (scope.get? name).map (Symbol.relabel rule) :=
  lookup_map_relabel _ _ _ _

theorem define_relabel (symbol : Symbol) :
    (scope.relabel rule).define (symbol.relabel rule) = (scope.define symbol).relabel rule := by
  rw [define, Symbol.name_relabel]
  exact congrArg (Scope.mk _ _) (fileUnder_map_relabel rule _ _ _ _)

theorem outermost_relabel : (outermost "global").relabel rule = outermost "global" := by
  let bare : Scope := ⟨"global", 1, []⟩
  calc (outermost "global").relabel rule
      = ((bare.define (.type .inteiro)).define (.type .logico)).relabel rule := rfl
    _ = ((bare.relabel rule).define ((Symbol.type .inteiro).relabel rule)).define
          ((Symbol.type .logico).relabel rule) := by rw [← define_relabel, ← define_relabel]
    _ = outermost "global" := rfl

theorem setParams_relabel (name : String) (params : List TypedName) :
    (scope.relabel rule).setParams (rule.name name) (params.map (TypedName.relabel rule)) =
      (scope.setParams name params).relabel rule := by
  refine congrArg (Scope.mk _ _) ?_
  rw [relabel, setParams, List.map_map, List.map_map]
  refine List.map_congr_left fun entry _ => ?_
  by_cases hkey : entry.1 = name
  · simp [hkey, Symbol.withParams_relabel]
  · simp [hkey, rule.injective.ne hkey]

theorem Filed.relabel {scope : Scope} (h : scope.Filed) : (scope.relabel rule).Filed where
  nodup := by
    have hkeys : (scope.relabel rule).bindings.map Prod.fst =
        (scope.bindings.map Prod.fst).map rule.name := by
      rw [Scope.relabel, List.map_map, List.map_map]
      rfl
    rw [hkeys]
    exact h.nodup.map rule.injective
  own := by
    rw [Scope.relabel, List.forall_mem_map]
    intro entry hentry
    rw [Prod.map_fst, Prod.map_snd, Symbol.name_relabel, h.own entry hentry]

end Scope

/-! ## Tables -/

namespace SymbolTable

/-- A table that looks like a stack of association lists, as all do that are built step by step. -/
def IsStack (table : SymbolTable) : Prop := ∃ stack, Refines table stack

namespace IsStack

variable {table next : SymbolTable} {scope : Scope} {outer : List Scope}

theorem empty : empty.IsStack := ⟨[], .empty⟩

theorem step (h : table.IsStack) (step : TableStep) (hstep : table.step? step = some next) :
    next.IsStack := by
  obtain ⟨stack, hrefines⟩ := h
  have hnext := hrefines.step step
  rw [hstep] at hnext
  generalize Stack.step? stack step = stack' at hnext
  cases hnext with
  | some hnext => exact ⟨_, hnext⟩

theorem filed (h : table.IsStack) : ∀ scope ∈ table.scopes, scope.Filed :=
  h.elim fun _ hrefines => hrefines.filed

theorem level_pos (h : (mk (scope :: outer)).IsStack) : 0 < scope.level := by
  obtain ⟨stack, hrefines⟩ := h
  obtain ⟨_, ledgers, -, -, hlevel, -⟩ := hrefines.exists_ledger
  omega

end IsStack

variable (table : SymbolTable)

/-- A scope that is opened inside another one has a name of its own. -/
theorem push_relabel (h : table.IsStack) (hopen : 0 < table.depth) (name : String) :
    (table.relabel rule).push (rule.name name) = (table.push name).relabel rule := by
  obtain ⟨_ | ⟨scope, outer⟩⟩ := table
  · cases hopen
  · have hname := rule.scopeName_succ h.level_pos name
    rw [push, push, relabel, relabel, List.map_cons]
    exact congrArg (fun name => mk (⟨name, scope.level + 1, []⟩ :: _)) hname.symm

theorem define?_relabel (symbol : Symbol) :
    (table.relabel rule).define? (symbol.relabel rule) =
      (table.define? symbol).map (relabel rule) := by
  obtain ⟨_ | ⟨scope, outer⟩⟩ := table
  · rfl
  · exact congrArg (fun scope => some (mk (scope :: _))) (scope.define_relabel rule symbol)

theorem setEnclosingParams_relabel (name : String) (params : List TypedName) :
    (table.relabel rule).setEnclosingParams (rule.name name)
        (params.map (TypedName.relabel rule)) =
      (table.setEnclosingParams name params).relabel rule := by
  obtain ⟨_ | ⟨scope, _ | ⟨enclosing, outer⟩⟩⟩ := table
  · rfl
  · rfl
  · exact congrArg (fun enclosing => mk (_ :: enclosing :: _))
      (enclosing.setParams_relabel rule name params)

/-- **What a changed name stands for, and where.** -/
theorem resolve?_relabel (name : String) :
    (table.relabel rule).resolve? (rule.name name) =
      (table.resolve? name).map (Prod.map (Symbol.relabel rule) (Scope.relabel rule)) := by
  obtain ⟨scopes⟩ := table
  induction scopes with
  | nil => rfl
  | cons scope outer ih =>
    have hscope := scope.get?_relabel rule name
    rw [relabel, List.map_cons, resolve?_cons, hscope, resolve?_cons]
    cases scope.get? name with
    | some symbol => rfl
    | none => exact ih

theorem lookup?_relabel (name : String) :
    (table.relabel rule).lookup? (rule.name name) =
      (table.lookup? name).map (Symbol.relabel rule) := by
  rw [lookup?, resolve?_relabel, lookup?, Option.map_map, Option.map_map]
  rfl

theorem lookupHere?_relabel (name : String) :
    (table.relabel rule).lookupHere? (rule.name name) =
      (table.lookupHere? name).map (Symbol.relabel rule) := by
  obtain ⟨_ | ⟨scope, outer⟩⟩ := table
  · rfl
  · exact scope.get?_relabel rule name

variable {table}

theorem name_of_lookup? (h : ∀ scope ∈ table.scopes, scope.Filed) {name : String} {symbol : Symbol}
    (hlookup : table.lookup? name = some symbol) : symbol.name = name := by
  obtain ⟨⟨found, scope⟩, hresolve, rfl⟩ := Option.map_eq_some_iff.mp hlookup
  obtain ⟨_, hmem, hget⟩ := List.exists_of_findSome?_eq_some hresolve
  obtain ⟨_, hfiled, hpair⟩ := Option.map_eq_some_iff.mp hget
  obtain ⟨rfl, rfl⟩ := Prod.mk.inj hpair
  exact (h _ hmem).name_of_get? hfiled

/-- **A word that is not changed stands for a type just where it did before.** Only the word for a
type is filed as one, and that word is kept. -/
theorem lookup?_relabel_eq_type_iff (h : table.IsStack) {word : String}
    {type : BaseType} :
    (table.relabel rule).lookup? word = some (.type type) ↔
      table.lookup? word = some (.type type) := by
  have h' : ∀ scope ∈ (table.relabel rule).scopes, scope.Filed :=
    List.forall_mem_map.mpr fun scope hscope => (h.filed scope hscope).relabel rule
  have hkept : (table.relabel rule).lookup? type.word = some (.type type) ↔
      table.lookup? type.word = some (.type type) := by
    rw [← rule.name_word type, lookup?_relabel, rule.name_word type]
    simp [Option.map_eq_some_iff, Symbol.relabel_eq_type_iff]
  constructor
  · intro hlookup
    obtain rfl : type.word = word := name_of_lookup? h' hlookup
    exact hkept.mp hlookup
  · intro hlookup
    obtain rfl : type.word = word := name_of_lookup? h.filed hlookup
    exact hkept.mpr hlookup

end SymbolTable

end LusoPascal
