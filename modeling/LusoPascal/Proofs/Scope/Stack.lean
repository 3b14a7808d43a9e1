import Mathlib.Data.List.Dedup
import LusoPascal.Scope.Table

/-!
# Scopes against association lists

The open scopes are compared with the plainest thing that they can be: a stack of association
lists that only grow at the front. A list keeps all that was ever filed in its scope, the latest
first, and neither levels nor sizes are stored.

* `TableStep`, `SymbolTable.run?`: the steps on a table, and runs of any length;
* `Ledger`, `Stack.run?`: the association lists, and the same runs on them;
* `ScopeView`, `TableView`: all that can be observed;
* `Scope.Filed`, `Refines`: no name is filed twice, and each symbol under its own name; a table
  looks like a stack;
* `Refines.step`: every step keeps it so;
* **`SymbolTable.run?_refines`**: after every run, the table looks like the stack, and what it says
  of a name can be told from the stack.
-/

namespace LusoPascal

/-- A step on the open scopes. -/
inductive TableStep where
  | push (name : String)
  | pop
  | define (symbol : Symbol)
  | setEnclosingParams (name : String) (params : List TypedName)
deriving DecidableEq

/-- What can be observed of a scope. -/
structure ScopeView where
  name : String
  level : Nat
  size : Nat
  get? : String → Option Symbol

/-- What can be observed of the open scopes, and of all of them one by one. -/
structure TableView where
  depth : Nat
  scopes : List ScopeView
  current? : Option ScopeView
  enclosing? : Option ScopeView
  resolve? : String → Option (Symbol × ScopeView)
  lookup? : String → Option Symbol
  lookupHere? : String → Option Symbol

/-! ## Tables -/

/-- What can be observed of a scope. -/
def Scope.view (scope : Scope) : ScopeView := ⟨scope.name, scope.level, scope.size, scope.get?⟩

namespace SymbolTable

/-- The table behind a step. Where no scope is open, none is closed and nothing can be filed. -/
def step? (table : SymbolTable) : TableStep → Option SymbolTable
  | .push name => some (table.push name)
  | .pop => some ((table.pop?.map Prod.snd).getD table)
  | .define symbol => table.define? symbol
  | .setEnclosingParams name params => some (table.setEnclosingParams name params)

def run? (steps : List TableStep) : Option SymbolTable := steps.foldlM step? empty

/-- What can be observed of a table. -/
def view (table : SymbolTable) : TableView where
  depth := table.depth
  scopes := table.scopes.map Scope.view
  current? := table.current?.map Scope.view
  enclosing? := table.enclosing?.map Scope.view
  resolve? name := (table.resolve? name).map fun found => (found.1, found.2.view)
  lookup? name := table.lookup? name
  lookupHere? name := table.lookupHere? name

end SymbolTable

/-! ## Stacks of association lists -/

/-- A name, and all that was filed since a scope was opened under it, the latest first. -/
structure Ledger where
  name : String
  entries : List (String × Symbol)

namespace Ledger

/-- The types, as the outermost ledger files them. -/
def seeds : List (String × Symbol) := BaseType.all.map fun type => (type.word, .type type)

/-- File a symbol on top. -/
def file (ledger : Ledger) (symbol : Symbol) : Ledger :=
  { ledger with entries := (symbol.name, symbol) :: ledger.entries }

/-- File what a name stands for once more, with other parameters. -/
def amend (ledger : Ledger) (name : String) (params : List TypedName) : Ledger :=
  match ledger.entries.lookup name with
  | some symbol => { ledger with entries := (name, symbol.withParams params) :: ledger.entries }
  | none => ledger

@[simp] theorem name_amend (ledger : Ledger) (name : String) (params : List TypedName) :
    (ledger.amend name params).name = ledger.name := by
  rw [amend]
  split <;> rfl

theorem lookup_amend (ledger : Ledger) (name other : String) (params : List TypedName) :
    (ledger.amend name params).entries.lookup other =
      if other = name then (ledger.entries.lookup other).map (·.withParams params)
      else ledger.entries.lookup other := by
  by_cases hother : other = name
  · subst hother
    cases h : ledger.entries.lookup other <;> simp [amend, h]
  · cases h : ledger.entries.lookup name <;> simp [amend, h, lookup_cons_eq_ite, hother]

/-- What can be observed of a ledger: its names are counted once, and the latest entry counts. -/
def view (ledger : Ledger) (level : Nat) : ScopeView where
  name := ledger.name
  level
  size := (ledger.entries.map Prod.fst).dedup.length
  get? name := ledger.entries.lookup name

end Ledger

namespace Stack

/-- The stack behind a step, innermost ledger first. -/
def step? : List Ledger → TableStep → Option (List Ledger)
  | [], .push name => some [⟨name, Ledger.seeds⟩]
  | stack, .push name => some (⟨name, []⟩ :: stack)
  | stack, .pop => some stack.tail
  | [], .define _ => none
  | ledger :: outer, .define symbol => some (ledger.file symbol :: outer)
  | ledger :: enclosing :: outer, .setEnclosingParams name params =>
    some (ledger :: enclosing.amend name params :: outer)
  | stack, .setEnclosingParams _ _ => some stack

def run? (steps : List TableStep) : Option (List Ledger) := steps.foldlM step? []

/-- What can be observed of the ledgers; the level of a ledger is its place above the bottom. -/
def views : List Ledger → List ScopeView
  | [] => []
  | ledger :: outer => ledger.view (outer.length + 1) :: views outer

/-- What can be observed of a stack. -/
def view (stack : List Ledger) : TableView where
  depth := stack.length
  scopes := views stack
  current? := (views stack)[0]?
  enclosing? := (views stack)[1]?
  resolve? name :=
    (views stack).findSome? fun ledger => (ledger.get? name).map fun symbol => (symbol, ledger)
  lookup? name := stack.findSome? fun ledger => ledger.entries.lookup name
  lookupHere? name := stack.head?.bind fun ledger => ledger.entries.lookup name

theorem length_views (stack : List Ledger) : (views stack).length = stack.length := by
  induction stack with
  | nil => rfl
  | cons ledger outer ih => rw [views, List.length_cons, List.length_cons, ih]

end Stack

/-! ## What a scope files -/

/-- No name is filed twice, and each symbol is filed under its own name. -/
structure Scope.Filed (scope : Scope) : Prop where
  nodup : (scope.bindings.map Prod.fst).Nodup
  own : ∀ entry ∈ scope.bindings, entry.2.name = entry.1

theorem map_fst_fileUnder {α : Type} (name : String) (value : α) (bindings : List (String × α)) :
    (fileUnder name value bindings).map Prod.fst =
      if name ∈ bindings.map Prod.fst then bindings.map Prod.fst
      else bindings.map Prod.fst ++ [name] := by
  induction bindings with
  | nil => rfl
  | cons entry rest ih =>
    by_cases hname : entry.1 = name
    · simp [fileUnder, hname]
    · rw [fileUnder, if_neg (by simpa using hname), List.map_cons, ih]
      by_cases hmem : name ∈ rest.map Prod.fst <;> simp [hmem, Ne.symm hname]

theorem mem_fileUnder {α : Type} {name : String} {value : α} {bindings : List (String × α)}
    {entry : String × α} (h : entry ∈ fileUnder name value bindings) :
    entry = (name, value) ∨ entry ∈ bindings := by
  induction bindings with
  | nil => exact .inl (List.mem_singleton.mp h)
  | cons first rest ih =>
    rw [fileUnder] at h
    split at h <;> rcases List.mem_cons.mp h with rfl | h
    · exact .inl rfl
    · exact .inr (List.mem_cons_of_mem _ h)
    · exact .inr List.mem_cons_self
    · exact (ih h).imp_right (List.mem_cons_of_mem _)

theorem mem_keys_iff {α : Type} {name : String} {bindings : List (String × α)} :
    name ∈ bindings.map Prod.fst ↔ (bindings.lookup name).isSome = true := by
  induction bindings with
  | nil => simp
  | cons entry rest ih =>
    obtain ⟨key, value⟩ := entry
    by_cases hname : name = key <;> simp_all [lookup_cons_eq_ite]

namespace Scope.Filed

variable {scope : Scope}

theorem empty (name : String) (level : Nat) : (Scope.mk name level []).Filed where
  nodup := List.nodup_nil
  own := List.forall_mem_nil _

theorem define (h : scope.Filed) (symbol : Symbol) : (scope.define symbol).Filed where
  nodup := by
    rw [Scope.define, map_fst_fileUnder]
    split
    · exact h.nodup
    · next hnew => exact List.nodup_append_comm.mp (List.nodup_cons.mpr ⟨hnew, h.nodup⟩)
  own entry hentry := by
    rcases mem_fileUnder hentry with rfl | hentry
    · rfl
    · exact h.own entry hentry

theorem outermost (name : String) : (Scope.outermost name).Filed :=
  ((empty name 1).define (.type .inteiro)).define (.type .logico)

theorem setParams (h : scope.Filed) (name : String) (params : List TypedName) :
    (scope.setParams name params).Filed where
  nodup := by
    have hkeys : (scope.setParams name params).bindings.map Prod.fst =
        scope.bindings.map Prod.fst := by
      rw [Scope.setParams, List.map_map]
      refine List.map_congr_left fun entry _ => ?_
      dsimp only [Function.comp]
      split <;> rfl
    rw [hkeys]
    exact h.nodup
  own := by
    rw [Scope.setParams, List.forall_mem_map]
    intro entry hentry
    split
    · rw [Symbol.name_withParams]
      exact h.own entry hentry
    · exact h.own entry hentry

theorem name_of_get? (h : scope.Filed) {name : String} {symbol : Symbol}
    (hget : scope.get? name = some symbol) : symbol.name = name := by
  obtain ⟨before, behind, hsplit, -⟩ := List.lookup_eq_some_iff.mp hget
  exact h.own (name, symbol) (by rw [hsplit]; simp)

/-- A scope whose names stand for what they stand for in a list has as many names as that. -/
theorem size_eq (h : scope.Filed) {entries : List (String × Symbol)}
    (hget : ∀ name, scope.get? name = entries.lookup name) :
    scope.size = (entries.map Prod.fst).dedup.length := by
  have hperm : (scope.bindings.map Prod.fst).Perm (entries.map Prod.fst).dedup := by
    rw [List.perm_ext_iff_of_nodup h.nodup (List.nodup_dedup _)]
    intro name
    rw [List.mem_dedup, mem_keys_iff, mem_keys_iff, ← hget name]
    rfl
  rw [Scope.size, ← hperm.length_eq, List.length_map]

theorem view_eq (h : scope.Filed) {ledger : Ledger} (hname : scope.name = ledger.name)
    (hget : ∀ name, scope.get? name = ledger.entries.lookup name) :
    scope.view = ledger.view scope.level := by
  rw [Scope.view, Ledger.view, hname, h.size_eq hget, funext hget]

end Scope.Filed

/-! ## A table looks like a stack -/

/-- The scopes of a table look like the ledgers of a stack. -/
structure Refines (table : SymbolTable) (stack : List Ledger) : Prop where
  filed : ∀ scope ∈ table.scopes, scope.Filed
  views : table.scopes.map Scope.view = Stack.views stack

namespace Refines

variable {table : SymbolTable} {stack : List Ledger} {scope : Scope} {outer : List Scope}

theorem empty : Refines .empty [] := ⟨List.forall_mem_nil _, rfl⟩

theorem exists_ledger (h : Refines ⟨scope :: outer⟩ stack) :
    ∃ ledger ledgers, stack = ledger :: ledgers ∧ scope.name = ledger.name ∧
      scope.level = ledgers.length + 1 ∧ (∀ name, scope.get? name = ledger.entries.lookup name) ∧
      scope.Filed ∧ Refines ⟨outer⟩ ledgers := by
  obtain ⟨hscope, houter⟩ := List.forall_mem_cons.mp h.filed
  have hviews := h.views
  cases stack with
  | nil => cases hviews
  | cons ledger ledgers =>
    obtain ⟨hview, hviews⟩ := List.cons.inj hviews
    exact ⟨ledger, ledgers, rfl, congrArg ScopeView.name hview, congrArg ScopeView.level hview,
      congrFun (congrArg ScopeView.get? hview), hscope, houter, hviews⟩

theorem cons {ledger : Ledger} {ledgers : List Ledger} (h : Refines ⟨outer⟩ ledgers)
    (hfiled : scope.Filed) (hname : scope.name = ledger.name)
    (hlevel : scope.level = ledgers.length + 1)
    (hget : ∀ name, scope.get? name = ledger.entries.lookup name) :
    Refines ⟨scope :: outer⟩ (ledger :: ledgers) where
  filed := List.forall_mem_cons.mpr ⟨hfiled, h.filed⟩
  views := by rw [List.map_cons, Stack.views, hfiled.view_eq hname hget, hlevel, h.views]

theorem stack_eq_nil (h : Refines ⟨[]⟩ stack) : stack = [] := by
  have hlength := congrArg List.length h.views
  rw [Stack.length_views] at hlength
  exact List.length_eq_zero_iff.mp hlength.symm

theorem push (h : Refines table stack) (name : String) :
    Option.Rel Refines (some (table.push name)) (Stack.step? stack (.push name)) := by
  obtain ⟨scopes⟩ := table
  cases scopes with
  | nil =>
    obtain rfl := h.stack_eq_nil
    exact .some (cons h (.outermost name) rfl rfl fun _ => rfl)
  | cons scope outer =>
    obtain ⟨ledger, ledgers, rfl, -, hlevel, -⟩ := h.exists_ledger
    exact .some (cons h (.empty name _) rfl (congrArg (· + 1) hlevel) fun _ => rfl)

theorem define (h : Refines table stack) (symbol : Symbol) :
    Option.Rel Refines (table.define? symbol) (Stack.step? stack (.define symbol)) := by
  obtain ⟨scopes⟩ := table
  cases scopes with
  | nil =>
    obtain rfl := h.stack_eq_nil
    exact .none
  | cons scope outer =>
    obtain ⟨ledger, ledgers, rfl, hname, hlevel, hget, hfiled, houter⟩ := h.exists_ledger
    refine .some (houter.cons (hfiled.define symbol) hname hlevel fun name => ?_)
    rw [Scope.get?_define, Ledger.file, lookup_cons_eq_ite, hget]

theorem setEnclosingParams (h : Refines table stack) (name : String) (params : List TypedName) :
    Option.Rel Refines (some (table.setEnclosingParams name params))
      (Stack.step? stack (.setEnclosingParams name params)) := by
  obtain ⟨scopes⟩ := table
  match scopes with
  | [] =>
    obtain rfl := h.stack_eq_nil
    exact .some h
  | [scope] =>
    obtain ⟨ledger, ledgers, rfl, -, -, -, -, houter⟩ := h.exists_ledger
    obtain rfl := houter.stack_eq_nil
    exact .some h
  | scope :: enclosing :: outer =>
    obtain ⟨ledger, ledgers, rfl, hname, hlevel, hget, hfiled, hrest⟩ := h.exists_ledger
    obtain ⟨ledger', ledgers, rfl, hname', hlevel', hget', hfiled', houter⟩ := hrest.exists_ledger
    have hamend : Refines ⟨enclosing.setParams name params :: outer⟩
        (ledger'.amend name params :: ledgers) := by
      refine houter.cons (hfiled'.setParams name params) ?_ hlevel' fun other => ?_
      · rw [Ledger.name_amend]
        exact hname'
      · rw [Scope.get?_setParams, Ledger.lookup_amend, hget']
    exact .some (hamend.cons hfiled hname hlevel hget)

/-- **Every step keeps it so**, and is impossible in both or in neither. -/
theorem step (h : Refines table stack) (step : TableStep) :
    Option.Rel Refines (table.step? step) (Stack.step? stack step) := by
  cases step with
  | push name => exact h.push name
  | define symbol => exact h.define symbol
  | setEnclosingParams name params => exact h.setEnclosingParams name params
  | pop =>
    obtain ⟨scopes⟩ := table
    cases scopes with
    | nil =>
      obtain rfl := h.stack_eq_nil
      exact .some h
    | cons scope outer =>
      obtain ⟨ledger, ledgers, rfl, -, -, -, -, houter⟩ := h.exists_ledger
      exact .some houter

/-- **So does every run.** -/
theorem run (h : Refines table stack) (steps : List TableStep) :
    Option.Rel Refines (steps.foldlM SymbolTable.step? table) (steps.foldlM Stack.step? stack) := by
  induction steps generalizing table stack with
  | nil => exact .some h
  | cons step steps ih =>
    have hstep := h.step step
    rw [List.foldlM_cons, List.foldlM_cons]
    generalize table.step? step = table' at hstep ⊢
    generalize Stack.step? stack step = stack' at hstep ⊢
    cases hstep with
    | none => exact .none
    | some h' => exact ih h'

theorem depth_eq (h : Refines table stack) : table.depth = stack.length := by
  rw [← Stack.length_views, ← h.views, List.length_map]
  rfl

theorem lookup?_eq (h : Refines table stack) (name : String) :
    table.lookup? name = stack.findSome? fun ledger => ledger.entries.lookup name := by
  obtain ⟨scopes⟩ := table
  induction scopes generalizing stack with
  | nil =>
    obtain rfl := h.stack_eq_nil
    rfl
  | cons scope outer ih =>
    obtain ⟨ledger, ledgers, rfl, -, -, hget, -, houter⟩ := h.exists_ledger
    rw [SymbolTable.lookup?, SymbolTable.resolve?_cons, hget, List.findSome?_cons]
    cases ledger.entries.lookup name with
    | some symbol => rfl
    | none => exact ih houter

theorem lookupHere?_eq (h : Refines table stack) (name : String) :
    table.lookupHere? name = stack.head?.bind fun ledger => ledger.entries.lookup name := by
  obtain ⟨scopes⟩ := table
  cases scopes with
  | nil =>
    obtain rfl := h.stack_eq_nil
    rfl
  | cons scope outer =>
    obtain ⟨ledger, ledgers, rfl, -, -, hget, -⟩ := h.exists_ledger
    exact hget name

/-- **A table and the stack that it looks like cannot be told apart.** -/
theorem view_eq (h : Refines table stack) : table.view = Stack.view stack := by
  have hplace (i : Nat) : table.scopes[i]?.map Scope.view = (Stack.views stack)[i]? := by
    rw [← h.views, List.getElem?_map]
  have hresolve (name : String) :
      (table.resolve? name).map (fun found => (found.1, found.2.view)) =
        (Stack.views stack).findSome? fun ledger =>
          (ledger.get? name).map fun symbol => (symbol, ledger) := by
    rw [← h.views, List.findSome?_map, SymbolTable.resolve?, List.map_findSome?]
    simp only [Function.comp_def, Option.map_map]
    rfl
  simp only [SymbolTable.view, Stack.view, h.depth_eq, h.views, SymbolTable.current?,
    SymbolTable.enclosing?, hplace, hresolve, h.lookup?_eq, h.lookupHere?_eq]

theorem levels_eq (h : Refines table stack) :
    table.scopes.map Scope.level = (List.range' 1 table.depth).reverse := by
  obtain ⟨scopes⟩ := table
  induction scopes generalizing stack with
  | nil => rfl
  | cons scope outer ih =>
    obtain ⟨ledger, ledgers, rfl, -, hlevel, -, -, houter⟩ := h.exists_ledger
    have hdepth : (SymbolTable.mk (scope :: outer)).depth = outer.length + 1 := rfl
    rw [List.map_cons, ih houter, hlevel, ← houter.depth_eq, hdepth, List.range'_1_concat,
      List.reverse_append, Nat.add_comm]
    rfl

theorem view_newScope (h : Refines table stack) (name : String) :
    (table.newScope name).view =
      if table.depth = 0 then Ledger.view ⟨name, Ledger.seeds⟩ 1
      else Ledger.view ⟨name, []⟩ (table.depth + 1) := by
  obtain ⟨scopes⟩ := table
  cases scopes with
  | nil => exact (Scope.Filed.outermost name).view_eq rfl fun _ => rfl
  | cons scope outer =>
    obtain ⟨ledger, ledgers, rfl, -, hlevel, -⟩ := h.exists_ledger
    have hopen : (SymbolTable.mk (scope :: outer)).depth ≠ 0 := Nat.succ_ne_zero outer.length
    rw [if_neg hopen, h.depth_eq, List.length_cons, ← hlevel]
    rfl

/-- What a name stands for is what the topmost ledger that files it says. -/
theorem resolve?_eq_some_iff (h : Refines table stack) {name : String} {symbol : Symbol} :
    table.resolve? name = some (symbol, scope) ↔
      ∃ inner ledger ledgers, stack = inner ++ ledger :: ledgers ∧
        (∀ ledger ∈ inner, ledger.entries.lookup name = none) ∧
        ledger.entries.lookup name = some symbol ∧ table.scopes[inner.length]? = some scope := by
  obtain ⟨scopes⟩ := table
  induction scopes generalizing stack with
  | nil =>
    obtain rfl := h.stack_eq_nil
    simp [SymbolTable.resolve?]
  | cons first outer ih =>
    obtain ⟨top, ledgers, rfl, -, -, hget, -, houter⟩ := h.exists_ledger
    rw [SymbolTable.resolve?_cons, hget]
    cases htop : top.entries.lookup name with
    | none =>
      rw [Option.map_none, Option.none_or, ih houter]
      constructor
      · rintro ⟨inner, ledger, rest, rfl, hnone, hsome, hplace⟩
        exact ⟨top :: inner, ledger, rest, rfl, List.forall_mem_cons.mpr ⟨htop, hnone⟩, hsome,
          hplace⟩
      · rintro ⟨_ | ⟨_, inner⟩, ledger, rest, hstack, hnone, hsome, hplace⟩
        · obtain ⟨rfl, -⟩ := List.cons.inj hstack
          rw [htop] at hsome
          cases hsome
        · exact ⟨inner, ledger, rest, (List.cons.inj hstack).2, (List.forall_mem_cons.mp hnone).2,
            hsome, hplace⟩
    | some found =>
      rw [Option.map_some, Option.some_or]
      constructor
      · rintro heq
        obtain ⟨rfl, rfl⟩ := Prod.mk.inj (Option.some.inj heq)
        exact ⟨[], top, ledgers, rfl, List.forall_mem_nil _, htop, rfl⟩
      · rintro ⟨_ | ⟨_, inner⟩, ledger, rest, hstack, hnone, hsome, hplace⟩
        · obtain ⟨rfl, -⟩ := List.cons.inj hstack
          obtain rfl := Option.some.inj (htop.symm.trans hsome)
          obtain rfl := Option.some.inj hplace
          rfl
        · obtain ⟨rfl, -⟩ := List.cons.inj hstack
          have := (List.forall_mem_cons.mp hnone).1
          rw [htop] at this
          cases this

end Refines

/-! ## After any run -/

/-- What a table says of levels, types, names and meanings, told from a stack of ledgers. -/
structure SymbolTable.Tells (table : SymbolTable) (stack : List Ledger) : Prop where
  /-- The levels count from one, upwards from the bottom. -/
  levels : table.scopes.map Scope.level = (List.range' 1 table.depth).reverse
  /-- A new scope files the types if no scope is open, and nothing otherwise. -/
  opens : ∀ name, (table.push name).current?.map Scope.view =
    some (if table.depth = 0 then Ledger.view ⟨name, Ledger.seeds⟩ 1
      else Ledger.view ⟨name, []⟩ (table.depth + 1))
  /-- Every symbol is filed under its own name. -/
  own : ∀ scope ∈ table.scopes, ∀ name symbol, scope.get? name = some symbol → symbol.name = name
  /-- A name means the latest entry under it in the topmost ledger that has one. -/
  resolves : ∀ name symbol scope, table.resolve? name = some (symbol, scope) ↔
    ∃ inner ledger outer, stack = inner ++ ledger :: outer ∧
      (∀ ledger ∈ inner, ledger.entries.lookup name = none) ∧
      ledger.entries.lookup name = some symbol ∧ table.scopes[inner.length]? = some scope
  /-- Where it was found can be left out. -/
  finds : ∀ name, table.lookup? name = (table.resolve? name).map Prod.fst
  /-- A name means nothing here unless the top ledger has an entry under it. -/
  findsHere : ∀ name, table.lookupHere? name = stack.head?.bind (·.entries.lookup name)

/-- **After every run**, the table and the stack show the same, or the run is impossible on both;
and what the table says can be told from the stack. -/
theorem SymbolTable.run?_refines (steps : List TableStep) :
    (run? steps).map view = (Stack.run? steps).map Stack.view ∧
      ∀ table stack, run? steps = some table → Stack.run? steps = some stack →
        table.Tells stack := by
  have hrel : Option.Rel Refines (run? steps) (Stack.run? steps) := Refines.empty.run steps
  generalize run? steps = table? at hrel ⊢
  generalize Stack.run? steps = stack? at hrel ⊢
  cases hrel with
  | none => exact ⟨rfl, fun _ _ h => nomatch h⟩
  | @some table stack h =>
    refine ⟨congrArg some h.view_eq, ?_⟩
    rintro _ _ ⟨⟩ ⟨⟩
    exact ⟨h.levels_eq, fun name => congrArg some (h.view_newScope name),
      fun scope hscope _ _ => (h.filed scope hscope).name_of_get?,
      fun _ _ _ => h.resolve?_eq_some_iff, fun _ => rfl, h.lookupHere?_eq⟩

end LusoPascal
