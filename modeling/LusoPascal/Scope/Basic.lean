import LusoPascal.Scope.Symbol

/-!
# Scopes

A scope files symbols under names. Filing under a name in use replaces the symbol in place, so no
name occurs twice.

* `Scope`, `Scope.get?`, `Scope.size`: the bindings, what a name stands for, how many names;
* `Scope.define`, `Scope.setParams`: file a symbol, and replace the parameters of a procedure;
* `Scope.outermost`, `Scope.inside`: a new scope that holds the types, and one that holds nothing;
* **`Scope.get?_define`**, **`Scope.get?_setParams`**: what the two updates do to every name.
-/

namespace LusoPascal

/-- A named scope at a level of nesting, with the symbols filed in it. -/
structure Scope where
  name : String
  level : Nat
  bindings : List (String × Symbol)
deriving DecidableEq

/-- File a value under a name, in place of the one filed there or behind all others. -/
def fileUnder {α : Type} (name : String) (value : α) : List (String × α) → List (String × α)
  | [] => [(name, value)]
  | entry :: rest =>
    if entry.1 == name then (name, value) :: rest else entry :: fileUnder name value rest

theorem lookup_cons_eq_ite {α : Type} (name key : String) (value : α)
    (rest : List (String × α)) :
    ((key, value) :: rest).lookup name = if name = key then some value else rest.lookup name := by
  by_cases h : name = key
  · simp [h]
  · simp [List.lookup_cons, beq_false_of_ne h, h]

theorem lookup_fileUnder {α : Type} (name other : String) (value : α)
    (bindings : List (String × α)) :
    (fileUnder name value bindings).lookup other =
      if other = name then some value else bindings.lookup other := by
  induction bindings with
  | nil => simp [fileUnder, lookup_cons_eq_ite]
  | cons entry rest ih =>
    obtain ⟨key, old⟩ := entry
    by_cases hk : key = name
    · subst hk
      by_cases h : other = key <;> simp [fileUnder, lookup_cons_eq_ite, h]
    · by_cases h : other = key
      · subst h
        simp [fileUnder, hk]
      · simp [fileUnder, lookup_cons_eq_ite, hk, h, ih]

namespace Scope

/-- What a name stands for in a scope. -/
def get? (scope : Scope) (name : String) : Option Symbol := scope.bindings.lookup name

/-- The number of names in a scope. -/
def size (scope : Scope) : Nat := scope.bindings.length

/-- File a symbol under its own name. -/
def define (scope : Scope) (symbol : Symbol) : Scope :=
  { scope with bindings := fileUnder symbol.name symbol scope.bindings }

/-- Replace the parameters of the procedure that a name stands for; nothing changes if it stands
for anything else. -/
def setParams (scope : Scope) (name : String) (params : List TypedName) : Scope :=
  { scope with
    bindings := scope.bindings.map fun entry =>
      if entry.1 == name then (entry.1, entry.2.withParams params) else entry }

/-- A scope on level one; it holds the types. -/
def outermost (name : String) : Scope :=
  BaseType.all.foldl (fun scope type => scope.define (.type type)) ⟨name, 1, []⟩

/-- An empty scope inside another one. -/
def inside (enclosing : Scope) (name : String) : Scope := ⟨name, enclosing.level + 1, []⟩

@[simp] theorem get?_define (scope : Scope) (symbol : Symbol) (name : String) :
    (scope.define symbol).get? name =
      if name = symbol.name then some symbol else scope.get? name :=
  lookup_fileUnder _ _ _ _

@[simp] theorem get?_setParams (scope : Scope) (params : List TypedName) (name other : String) :
    (scope.setParams name params).get? other =
      if other = name then (scope.get? other).map (·.withParams params)
      else scope.get? other := by
  obtain ⟨scopeName, level, bindings⟩ := scope
  simp only [setParams, get?]
  induction bindings with
  | nil => simp
  | cons entry rest ih =>
    obtain ⟨key, symbol⟩ := entry
    by_cases hk : key = name
    · subst hk
      by_cases ho : other = key
      · simp [ho]
      · simpa [lookup_cons_eq_ite, ho] using ih
    · by_cases ho : other = key
      · subst ho
        simp [hk]
      · simpa [lookup_cons_eq_ite, hk, ho] using ih

end Scope

end LusoPascal
