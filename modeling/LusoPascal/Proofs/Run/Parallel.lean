/-!
# Two runs in step

Two computations that may fail run in step if they end alike from any two states that belong
together: both with a value or both with an error, which belong together as well, and so do the
states that they end in.

* `EndsAlike`: two results that belong together;
* `Parallel`: two computations that run in step;
* **`Parallel.bind`**, `Parallel.map`, `Parallel.ite`: rules for one computation after another.
-/

namespace LusoPascal

variable {σ σ' ε ε' α α' β β' : Type}

/-- Two values that belong together, or two errors, and the states that go with them. -/
inductive EndsAlike (State : σ → σ' → Prop) (Error : ε → ε' → Prop) (Value : α → α' → Prop) :
    EStateM.Result ε σ α → EStateM.Result ε' σ' α' → Prop
  | ok {a : α} {a' : α'} {s : σ} {s' : σ'} (hvalue : Value a a') (hstate : State s s') :
      EndsAlike State Error Value (.ok a s) (.ok a' s')
  | error {e : ε} {e' : ε'} {s : σ} {s' : σ'} (herror : Error e e') (hstate : State s s') :
      EndsAlike State Error Value (.error e s) (.error e' s')

/-- From states that belong together, two computations end alike. -/
def Parallel (State : σ → σ' → Prop) (Error : ε → ε' → Prop) (Value : α → α' → Prop)
    (p : EStateM ε σ α) (p' : EStateM ε' σ' α') : Prop :=
  ∀ ⦃s : σ⦄ ⦃s' : σ'⦄, State s s' → EndsAlike State Error Value (p s) (p' s')

namespace Parallel

variable {State : σ → σ' → Prop} {Error : ε → ε' → Prop} {Value : α → α' → Prop}
  {Value' : β → β' → Prop} {p : EStateM ε σ α} {p' : EStateM ε' σ' α'}

theorem pure {a : α} {a' : α'} (h : Value a a') :
    Parallel State Error Value (pure a) (pure a') := fun _ _ hs => .ok h hs

theorem throw {e : ε} {e' : ε'} (h : Error e e') :
    Parallel State Error Value (throw e : EStateM ε σ α) (throw e' : EStateM ε' σ' α') :=
  fun _ _ hs => .error h hs

/-- **One computation after another.** -/
theorem bind {q : α → EStateM ε σ β} {q' : α' → EStateM ε' σ' β'}
    (hp : Parallel State Error Value p p')
    (hq : ∀ a a', Value a a' → Parallel State Error Value' (q a) (q' a')) :
    Parallel State Error Value' (p >>= q) (p' >>= q') := by
  intro s s' hs
  have hfirst := hp hs
  change EndsAlike State Error Value' (EStateM.bind p q s) (EStateM.bind p' q' s')
  unfold EStateM.bind
  generalize p s = first at hfirst ⊢
  generalize p' s' = first' at hfirst ⊢
  cases hfirst with
  | ok hvalue hstate => exact hq _ _ hvalue hstate
  | error herror hstate => exact .error herror hstate

theorem map {f : α → β} {f' : α' → β'} (hp : Parallel State Error Value p p')
    (h : ∀ a a', Value a a' → Value' (f a) (f' a')) :
    Parallel State Error Value' (f <$> p) (f' <$> p') := by
  rw [map_eq_pure_bind, map_eq_pure_bind]
  exact hp.bind fun a a' ha => pure (h a a' ha)

theorem ite {c : Prop} [Decidable c] {q : EStateM ε σ α} {q' : EStateM ε' σ' α'}
    (hp : Parallel State Error Value p p') (hq : Parallel State Error Value q q') :
    Parallel State Error Value (if c then p else q) (if c then p' else q') := by
  split
  · exact hp
  · exact hq

end Parallel

end LusoPascal
