import LusoPascal.Proofs.Scope.Stack

/-!
# To leave a scope is to restore the table

Between the step that opens a scope and the step that closes it again, the scopes that were open
before are out of reach, with one exception: while just the new scope is open on top of them,
parameters can be filled in for the procedures of the innermost of them.

* `SymbolTable.runFrom?`, `SymbolTable.depths`: steps from any table, and how many scopes are open
  on the way;
* `SymbolTable.updatesAt`: the updates of parameters on the way, while a given number of scopes is
  open;
* `Symbol.Amended`, `Scope.Amended`: nothing but parameters is changed, and only by an update;
* `Scope.updateAll`, `Scope.Amended.updateAll`: updates amend a scope;
* `SymbolTable.AmendedAll.resolve?`, `SymbolTable.AmendedAll.place?`: names are found where they
  were, in amended scopes;
* **`SymbolTable.step?_inside`**, **`SymbolTable.runFrom?_inside`**: what one step, and then any
  number of them, can reach from inside a scope;
* **`SymbolTable.leaving_restores`**: what is left when the scope is closed.
-/

namespace LusoPascal

/-- An update of parameters: the name of a procedure, and its parameters from now on. -/
abbrev ParamsUpdate := String × List TypedName

/-- The update that a step makes, if it makes one. -/
def TableStep.update? : TableStep → Option ParamsUpdate
  | setEnclosingParams name params => some (name, params)
  | push _ | pop | define _ => none

namespace SymbolTable

/-- The table behind some steps. -/
def runFrom? (table : SymbolTable) (steps : List TableStep) : Option SymbolTable :=
  steps.foldlM step? table

/-- How many scopes are open before the first of some steps and behind each of them. -/
def depths (table : SymbolTable) : List TableStep → List Nat
  | [] => [table.depth]
  | step :: steps => table.depth :: ((table.step? step).map fun next => next.depths steps).getD []

/-- The updates of parameters among some steps that are made while just `depth` scopes are open. -/
def updatesAt (depth : Nat) (table : SymbolTable) : List TableStep → List ParamsUpdate
  | [] => []
  | step :: steps =>
    (if table.depth = depth then step.update?.toList else []) ++
      ((table.step? step).map fun next => next.updatesAt depth steps).getD []

theorem runFrom?_cons (table : SymbolTable) (step : TableStep) (steps : List TableStep) :
    table.runFrom? (step :: steps) = (table.step? step).bind fun next => next.runFrom? steps :=
  List.foldlM_cons

theorem runFrom?_append (table : SymbolTable) (steps more : List TableStep) :
    table.runFrom? (steps ++ more) = (table.runFrom? steps).bind fun next => next.runFrom? more :=
  List.foldlM_append

theorem depth_mem_depths (table : SymbolTable) (steps : List TableStep) :
    table.depth ∈ table.depths steps := by
  cases steps <;> exact List.mem_cons_self

theorem depths_cons {table next : SymbolTable} {step : TableStep}
    (h : table.step? step = some next) (steps : List TableStep) :
    table.depths (step :: steps) = table.depth :: next.depths steps := by
  rw [depths, h]
  rfl

theorem getLast?_depths {table behind : SymbolTable} {steps : List TableStep}
    (h : table.runFrom? steps = some behind) :
    (table.depths steps).getLast? = some behind.depth := by
  induction steps generalizing table with
  | nil =>
    obtain rfl := Option.some.inj h
    rfl
  | cons step steps ih =>
    rw [runFrom?_cons] at h
    obtain ⟨next, hstep, hrest⟩ := Option.bind_eq_some_iff.mp h
    rw [depths_cons hstep, List.getLast?_cons, ih hrest]
    rfl

end SymbolTable

/-! ## Amended scopes -/

/-- A symbol, and what some updates of parameters can make of it where it is filed under a key. -/
inductive Symbol.Amended (updates : List ParamsUpdate) (key : String) : Symbol → Symbol → Prop
  | kept (symbol : Symbol) : Amended updates key symbol symbol
  | params {name : String} {old new : List TypedName} (h : (key, new) ∈ updates) :
      Amended updates key (.procedure name old) (.procedure name new)

namespace Symbol.Amended

variable {updates : List ParamsUpdate} {key : String} {s t u : Symbol}

theorem trans (hst : Amended updates key s t) (htu : Amended updates key t u) :
    Amended updates key s u := by
  cases hst with
  | kept => exact htu
  | params hmem =>
    cases htu with
    | kept => exact .params hmem
    | params hmem' => exact .params hmem'

theorem withParams (s : Symbol) {params : List TypedName} (h : (key, params) ∈ updates) :
    Amended updates key s (s.withParams params) := by
  cases s with
  | procedure name old => exact .params h
  | var | constant | type => exact .kept _

end Symbol.Amended

/-- A scope, and what some updates of parameters can make of it: the same names in the same order,
which stand for the same things but for the parameters of procedures. -/
structure Scope.Amended (updates : List ParamsUpdate) (before after : Scope) : Prop where
  name : after.name = before.name
  level : after.level = before.level
  bindings : List.Forall₂
    (fun entry entry' => entry'.1 = entry.1 ∧ Symbol.Amended updates entry.1 entry.2 entry'.2)
    before.bindings after.bindings

/-- A scope behind updates of parameters. -/
def Scope.updateAll (scope : Scope) (updates : List ParamsUpdate) : Scope :=
  updates.foldl (fun scope update => scope.setParams update.1 update.2) scope

theorem Scope.updateAll_append (scope : Scope) (made more : List ParamsUpdate) :
    scope.updateAll (made ++ more) = (scope.updateAll made).updateAll more :=
  List.foldl_append

namespace Scope.Amended

variable {updates : List ParamsUpdate} {s t : Scope}

theorem refl (updates : List ParamsUpdate) (scope : Scope) : Amended updates scope scope where
  name := rfl
  level := rfl
  bindings := List.forall₂_same.mpr fun _ _ => ⟨rfl, .kept _⟩

theorem setParams (h : Amended updates s t) {name : String} {params : List TypedName}
    (hmem : (name, params) ∈ updates) : Amended updates s (t.setParams name params) where
  name := h.name
  level := h.level
  bindings := by
    refine List.forall₂_map_right_iff.mpr (h.bindings.imp ?_)
    rintro entry entry' ⟨hkey, hsymbol⟩
    split
    · next hname =>
      obtain rfl : entry'.1 = name := by simpa using hname
      rw [hkey] at hmem
      exact ⟨hkey, hsymbol.trans (.withParams _ hmem)⟩
    · exact ⟨hkey, hsymbol⟩

/-- **Updates amend a scope.** -/
theorem updateAll (h : Amended updates s t) {made : List ParamsUpdate} (hmade : made ⊆ updates) :
    Amended updates s (t.updateAll made) := by
  induction made generalizing t with
  | nil => exact h
  | cons update made ih =>
    obtain ⟨hmem, hrest⟩ := List.cons_subset.mp hmade
    exact ih (h.setParams hmem) hrest

theorem get? (h : Amended updates s t) (name : String) :
    Option.Rel (Symbol.Amended updates name) (s.get? name) (t.get? name) := by
  have hbindings := h.bindings
  rw [Scope.get?, Scope.get?]
  generalize s.bindings = bindings at hbindings
  generalize t.bindings = bindings' at hbindings
  induction hbindings with
  | nil => exact .none
  | @cons entry entry' rest rest' hentry _ ih =>
    obtain ⟨key, symbol⟩ := entry
    obtain ⟨_, symbol'⟩ := entry'
    obtain ⟨rfl, hsymbol⟩ := hentry
    rw [lookup_cons_eq_ite, lookup_cons_eq_ite]
    split
    · next hname => exact .some (hname ▸ hsymbol)
    · exact ih

end Scope.Amended

/-! ## Amended tables -/

namespace SymbolTable

/-- The place of the scope that a name is found in, counted from the innermost one. -/
def place? (table : SymbolTable) (name : String) : Option Nat :=
  table.scopes.findIdx? fun scope => (scope.get? name).isSome

/-- A table, and what some updates of parameters can make of it, scope by scope. -/
def AmendedAll (updates : List ParamsUpdate) (before after : SymbolTable) : Prop :=
  List.Forall₂ (Scope.Amended updates) before.scopes after.scopes

namespace AmendedAll

variable {updates : List ParamsUpdate} {before after : SymbolTable}

/-- **A name is found in the scope where it was found before.** -/
theorem place? (h : AmendedAll updates before after) (name : String) :
    after.place? name = before.place? name := by
  obtain ⟨scopes⟩ := before
  obtain ⟨scopes'⟩ := after
  replace h : List.Forall₂ (Scope.Amended updates) scopes scopes' := h
  rw [SymbolTable.place?, SymbolTable.place?]
  induction h with
  | nil => rfl
  | @cons scope scope' outer outer' hscope _ ih =>
    have hname := hscope.get? name
    have hisSome : (scope'.get? name).isSome = (scope.get? name).isSome := by
      generalize scope.get? name = found at hname ⊢
      generalize scope'.get? name = found' at hname ⊢
      cases hname <;> rfl
    rw [List.findIdx?_cons, List.findIdx?_cons, hisSome, ih]

/-- **What is found is amended**, and so is the scope that files it. -/
theorem resolve? (h : AmendedAll updates before after) (name : String) :
    Option.Rel (fun found found' => Symbol.Amended updates name found.1 found'.1 ∧
      Scope.Amended updates found.2 found'.2) (before.resolve? name) (after.resolve? name) := by
  obtain ⟨scopes⟩ := before
  obtain ⟨scopes'⟩ := after
  replace h : List.Forall₂ (Scope.Amended updates) scopes scopes' := h
  induction h with
  | nil => exact .none
  | @cons scope scope' outer outer' hscope _ ih =>
    have hname := hscope.get? name
    rw [resolve?_cons, resolve?_cons]
    generalize scope.get? name = found at hname ⊢
    generalize scope'.get? name = found' at hname ⊢
    cases hname with
    | none => exact ih
    | some hsymbol => exact .some ⟨hsymbol, hscope⟩

theorem lookup? (h : AmendedAll updates before after) (name : String) :
    Option.Rel (Symbol.Amended updates name) (before.lookup? name) (after.lookup? name) := by
  have hfound := h.resolve? name
  rw [SymbolTable.lookup?, SymbolTable.lookup?]
  generalize before.resolve? name = found at hfound ⊢
  generalize after.resolve? name = found' at hfound ⊢
  cases hfound with
  | none => exact .none
  | some hboth => exact .some hboth.1

theorem lookupHere? (h : AmendedAll updates before after) (name : String) :
    Option.Rel (Symbol.Amended updates name) (before.lookupHere? name)
      (after.lookupHere? name) := by
  obtain ⟨scopes⟩ := before
  obtain ⟨scopes'⟩ := after
  replace h : List.Forall₂ (Scope.Amended updates) scopes scopes' := h
  cases h with
  | nil => exact .none
  | cons hscope => exact hscope.get? name

end AmendedAll

/-! ## Steps inside a scope -/

section Inside

variable {inside outer : List Scope} {scope : Scope}

/-- **What one step can reach from inside a scope**: the scope below only if no other is open in
between, and nothing further out. -/
theorem step?_inside (step : TableStep) (hinside : inside ≠ [])
    (habove : ∀ next, (mk (inside ++ scope :: outer)).step? step = some next →
      outer.length + 1 < next.depth) :
    ∃ inside', inside' ≠ [] ∧ (mk (inside ++ scope :: outer)).step? step =
      some ⟨inside' ++ scope.updateAll (if inside.length = 1 then step.update?.toList else []) ::
        outer⟩ := by
  obtain ⟨first, rest, rfl⟩ := List.exists_cons_of_ne_nil hinside
  have hnone (h : step.update? = none) : scope.updateAll
      (if (first :: rest).length = 1 then step.update?.toList else []) = scope := by
    rw [h, Option.toList_none, ite_self]
    rfl
  cases step with
  | push name =>
    rw [hnone rfl]
    exact ⟨first.inside name :: first :: rest, List.cons_ne_nil _ _, rfl⟩
  | pop =>
    rw [hnone rfl]
    refine ⟨rest, ?_, rfl⟩
    rintro rfl
    exact absurd (habove _ rfl) (Nat.lt_irrefl _)
  | define symbol =>
    rw [hnone rfl]
    exact ⟨first.define symbol :: rest, List.cons_ne_nil _ _, rfl⟩
  | setEnclosingParams name params =>
    cases rest with
    | nil => exact ⟨[first], List.cons_ne_nil _ _, rfl⟩
    | cons second rest =>
      exact ⟨first :: second.setParams name params :: rest, List.cons_ne_nil _ _, rfl⟩

/-- **What any number of steps can reach from inside a scope**, as long as the scope opened on top
of it is not closed: updates of parameters, made while just that one is open. -/
theorem runFrom?_inside (steps : List TableStep) (hinside : inside ≠ [])
    (habove : ∀ n ∈ (mk (inside ++ scope :: outer)).depths steps, outer.length + 1 < n) :
    ∃ inside', (mk (inside ++ scope :: outer)).runFrom? steps =
      some ⟨inside' ++ scope.updateAll
        ((mk (inside ++ scope :: outer)).updatesAt (outer.length + 2) steps) :: outer⟩ := by
  induction steps generalizing inside scope with
  | nil => exact ⟨inside, rfl⟩
  | cons step steps ih =>
    have hdepth : (mk (inside ++ scope :: outer)).depth = inside.length + (outer.length + 1) :=
      List.length_append
    have hnext : ∀ next, (mk (inside ++ scope :: outer)).step? step = some next →
        outer.length + 1 < next.depth := by
      intro next hstep
      rw [depths_cons hstep] at habove
      exact habove _ (List.mem_cons_of_mem _ (next.depth_mem_depths steps))
    obtain ⟨inside₁, hne, hstep⟩ := step?_inside step hinside hnext
    rw [depths_cons hstep] at habove
    obtain ⟨inside₂, hrun⟩ := ih hne fun n hn => habove n (List.mem_cons_of_mem _ hn)
    have hjust : inside.length = 1 ↔
        (mk (inside ++ scope :: outer)).depth = outer.length + 2 := by omega
    refine ⟨inside₂, ?_⟩
    rw [runFrom?_cons, hstep, Option.bind_some, hrun, updatesAt, hstep, Option.map_some,
      Option.getD_some, Scope.updateAll_append]
    simp only [hjust]

end Inside

/-! ## To open a scope and to close it -/

/-- **To leave a scope is to restore the table**, but for the parameters that were updated while
just one scope more was open. -/
theorem leaving_restores {before : SymbolTable} (hopen : 0 < before.depth) {name : String}
    {steps : List TableStep} (habove : ∀ n ∈ (before.push name).depths steps, before.depth < n)
    (hback : ((before.push name).depths steps).getLast? = some (before.depth + 1)) :
    let updates := (before.push name).updatesAt (before.depth + 1) steps
    ∃ after, before.runFrom? (.push name :: (steps ++ [.pop])) = some after ∧
      after.scopes = (before.scopes.modifyHead fun scope => scope.updateAll updates) ∧
      before.AmendedAll updates after ∧
      ∀ name, after.place? name = before.place? name ∧
        Option.Rel (fun found found' => Symbol.Amended updates name found.1 found'.1 ∧
          Scope.Amended updates found.2 found'.2) (before.resolve? name) (after.resolve? name) ∧
        Option.Rel (Symbol.Amended updates name) (before.lookup? name) (after.lookup? name) ∧
        Option.Rel (Symbol.Amended updates name) (before.lookupHere? name)
          (after.lookupHere? name) := by
  intro updates
  obtain ⟨scopes⟩ := before
  obtain ⟨scope, outer, rfl⟩ := List.exists_cons_of_length_pos hopen
  have hinside : [scope.inside name] ≠ [] := List.cons_ne_nil _ _
  obtain ⟨inside, hrun⟩ := runFrom?_inside steps hinside habove
  replace hrun : ((mk (scope :: outer)).push name).runFrom? steps =
    some ⟨inside ++ scope.updateAll updates :: outer⟩ := hrun
  -- the depths come back to just one scope more
  obtain ⟨last, rfl⟩ : ∃ last, inside = [last] := by
    rw [getLast?_depths hrun, Option.some.injEq] at hback
    have hlength : inside.length + (outer.length + 1) = outer.length + 1 + 1 :=
      List.length_append.symm.trans hback
    exact List.length_eq_one_iff.mp (by omega)
  have hamended : AmendedAll updates ⟨scope :: outer⟩ ⟨scope.updateAll updates :: outer⟩ :=
    .cons ((Scope.Amended.refl _ _).updateAll (List.Subset.refl _))
      (List.forall₂_same.mpr fun _ _ => .refl _ _)
  refine ⟨⟨scope.updateAll updates :: outer⟩, ?_, rfl, hamended, fun name =>
    ⟨hamended.place? name, hamended.resolve? name, hamended.lookup? name,
      hamended.lookupHere? name⟩⟩
  have hpush : (mk (scope :: outer)).step? (.push name) = some ((mk (scope :: outer)).push name) :=
    rfl
  rw [runFrom?_cons, hpush, Option.bind_some, runFrom?_append, hrun]
  rfl

/-- Four updates between the opening of a scope and its end: the last one that just this scope is
open for gives a procedure its parameters, and the others leave nothing behind. -/
theorem leaving_restores_procedure :
    let parameter : TypedName := ⟨"a", .logico⟩
    let outermost := (Scope.outermost "global").define (.var ⟨"x", .inteiro⟩)
    let before : SymbolTable := ⟨[outermost.define (.procedure "p" [])]⟩
    let steps : List TableStep := [.setEnclosingParams "p" [], .define (.procedure "p" []),
      .push "p", .setEnclosingParams "p" [parameter, parameter],
      .define (.var ⟨"x", .logico⟩), .pop, .setEnclosingParams "x" [parameter],
      .setEnclosingParams "p" [parameter]]
    let updates : List ParamsUpdate := [("p", []), ("x", [parameter]), ("p", [parameter])]
    0 < before.depth ∧ (∀ n ∈ (before.push "q").depths steps, before.depth < n) ∧
      ((before.push "q").depths steps).getLast? = some (before.depth + 1) ∧
      ∃ after, before.runFrom? (.push "q" :: (steps ++ [.pop])) = some after ∧
        after.scopes = [outermost.define (.procedure "p" [parameter])] ∧
        before.AmendedAll updates after ∧ after.place? "x" = some 0 := by
  intro parameter outermost before steps updates
  have hopen : 0 < before.depth := by decide
  have habove : ∀ n ∈ (before.push "q").depths steps, before.depth < n := by decide
  have hback : ((before.push "q").depths steps).getLast? = some (before.depth + 1) := by decide
  have hupdates : (before.push "q").updatesAt (before.depth + 1) steps = updates := by decide
  obtain ⟨after, hrun, hscopes, hamended, hfinds⟩ := leaving_restores hopen habove hback
  rw [hupdates] at hscopes hamended
  exact ⟨hopen, habove, hback, after, hrun, hscopes, hamended, (hfinds "x").1.trans (by decide)⟩

end SymbolTable

end LusoPascal
