import LusoPascal.Proofs.Grammar.Reading

/-!
# Where one rule enters another

A rule that is written over another one, left open, enters it at a reader if the outcome depends on
what the other rule does there. Nothing has to be counted for this, and nothing has to be recorded:
it is enough to put another rule in its place that differs at that reader only.

* `Enters`: one rule enters another one at a reader;
* `Enters.bind_cases`: the part that enters it, for one production after another;
* **`Enters.of_breaksOff`**: a rule enters another one where it would break off along with it;
* `Consumes`, `EntersAfter`: how much a rule consumes, and how much before it enters another one;
* **`EntersAfter.bind`**, `EntersAfter.const_bind`, `EntersAfter.separated`, and the like: rules for
  the steps and the repetitions.
-/

namespace LusoPascal

namespace Production

open Delivery

variable {ι α β γ : Type}

/-! ## Entering a rule -/

/-- A rule, written over the members of a family `p`, enters the family at `here` if another family
that differs from `p` nowhere else would lead to another outcome. -/
def Enters (rule : (ι → Production α) → Production β) (p : ι → Production α)
    (reader here : Reader) : Prop :=
  ∃ q : ι → Production α, (∀ i other, other ≠ here → q i other = p i other) ∧
    rule q reader ≠ rule p reader

namespace Enters

variable {p : ι → Production α} {reader here : Reader}

theorem not_const {rule : Production β} : ¬ Enters (fun _ => rule) p reader here :=
  fun ⟨_, _, hne⟩ => hne rfl

theorem eq_of_member {i : ι} (h : Enters (fun q => q i) p reader here) : reader = here := by
  obtain ⟨q, hq, hne⟩ := h
  by_contra hother
  exact hne (hq i reader hother)

/-- **One production after another** enters the family in the first one, or in the second one after
the first one has ended. -/
theorem bind_cases {first : (ι → Production α) → Production β}
    {next : (ι → Production α) → β → Production γ}
    (h : Enters (fun q => first q >>= next q) p reader here) :
    Enters first p reader here ∨
      ∃ b between, first p reader = .ok b between ∧ Enters (fun q => next q b) p between here := by
  obtain ⟨q, hq, hne⟩ := h
  by_cases hfirst : first q reader = first p reader
  · dsimp only at hne
    rw [bind_apply, bind_apply, hfirst] at hne
    cases hrun : first p reader with
    | ok b between =>
      rw [hrun] at hne
      exact .inr ⟨b, between, rfl, q, hq, hne⟩
    | error halt behind =>
      rw [hrun] at hne
      exact absurd rfl hne
  · exact .inl ⟨q, hq, hfirst⟩

open Classical in
/-- **A rule enters the family at `here`** if it would break off there with whatever the family
broke off with. -/
theorem of_breaksOff {rule : (ι → Production α) → Production β}
    (h : ∀ q : ι → Production α, ∀ halt, (∀ i, q i here = .error halt here) →
      rule q reader = .error halt here) : Enters rule p reader here := by
  have hhalt : ∃ halt, rule p reader ≠ .error halt here := by
    by_cases hspent : rule p reader = .error .spent here
    · refine ⟨.rejected (.syntactic ⟨.expectedType, here.ahead⟩), ?_⟩
      rw [hspent]
      nofun
    · exact ⟨.spent, hspent⟩
  obtain ⟨halt, hne⟩ := hhalt
  refine ⟨fun i other => if other = here then .error halt here else p i other,
    fun i other hother => if_neg hother, fun heq => hne ?_⟩
  rw [← heq]
  exact h _ halt fun i => if_pos rfl

end Enters

/-! ## What is consumed before -/

/-- A production that ends has consumed `n` tokens or more. -/
def Consumes (n : Nat) (p : Production α) : Prop := Sound p fun w _ => n ≤ w.length

theorem Sound.consumes {Rule : List Delivery → α → Prop} {p : Production α} (hp : Sound p Rule)
    {n : Nat} (h : ∀ {w a}, Rule w a → n ≤ w.length) : Consumes n p :=
  fun d => (hp d).mono fun _ _ _ hw => h hw

theorem Sound.consumes_zero {Rule : List Delivery → α → Prop} {p : Production α}
    (hp : Sound p Rule) : Consumes 0 p := hp.consumes fun _ => Nat.zero_le _

namespace Consumes

/-- What only looks at a reader consumes nothing. -/
theorem of_looks {p : Production α} (h : ∀ reader, ∃ a, p reader = .ok a reader) :
    Consumes 0 p := by
  intro d log a behind hrun
  obtain ⟨b, hlooks⟩ := h (d.reader log)
  obtain ⟨-, rfl⟩ := EStateM.Result.ok.inj (hlooks.symm.trans hrun)
  exact ⟨[], d, rfl, .nil d, le_rfl⟩

theorem ahead : Consumes 0 ahead := of_looks fun _ => ⟨_, rfl⟩

theorem line : Consumes 0 line := of_looks fun _ => ⟨_, rfl⟩

theorem isAhead (kind : TokenKind) : Consumes 0 (isAhead kind) := of_looks fun _ => ⟨_, rfl⟩

theorem take : Consumes 1 take := fun d => by
  rw [← bind_pure Production.take]
  exact Ensures.take_bind fun e _ => Ensures.pure le_rfl

theorem expect (kind : TokenKind) : Consumes 1 (expect kind) := fun d => by
  rw [← bind_pure (Production.expect kind)]
  exact Ensures.expect_bind fun _ e _ => Ensures.pure le_rfl

theorem map {n : Nat} {p : Production α} (hp : Consumes n p) (f : α → β) : Consumes n (f <$> p) :=
  fun d => (hp d).map

theorem discard {n : Nat} {p : Production α} (hp : Consumes n p) : Consumes n (discard p) :=
  hp.map _

end Consumes

/-- Before a rule enters the family it has consumed `n` tokens or more. -/
def EntersAfter (n : Nat) (rule : (ι → Production α) → Production β) (p : ι → Production α) :
    Prop :=
  ∀ ⦃d : Delivery⦄ ⦃log : Array Located⦄ ⦃here : Reader⦄, Enters rule p (d.reader log) here →
    ∃ w e, here = e.reader (logged log w) ∧ Span d w e ∧ n ≤ w.length

namespace EntersAfter

variable {m n : Nat} {p : ι → Production α} {rule rule' : (ι → Production α) → Production β}

theorem exists_span {d : Delivery} {log : Array Located} {here : Reader}
    (h : EntersAfter 1 rule p) (henters : Enters rule p (d.reader log) here) :
    ∃ w e, here = e.reader (logged log w) ∧ Span d w e ∧ w ≠ [] := by
  obtain ⟨w, e, hhere, hspan, hw⟩ := h henters
  exact ⟨w, e, hhere, hspan, List.ne_nil_of_length_pos hw⟩

theorem const {rule : Production β} : EntersAfter n (fun _ => rule) p :=
  fun _ _ _ h => absurd h Enters.not_const

theorem member (i : ι) : EntersAfter 0 (fun q => q i) p := by
  intro d log here h
  obtain rfl := h.eq_of_member
  exact ⟨[], d, rfl, .nil d, le_rfl⟩

/-- **One production after another.** What the first one consumes counts for the second one. -/
theorem bind_of_le {k : Nat} {first : (ι → Production α) → Production β}
    {next : (ι → Production α) → β → Production γ} (hends : Consumes m (first p))
    (hfirst : EntersAfter k first p) (hnext : ∀ b, EntersAfter n (fun q => next q b) p)
    (hle : k ≤ m + n) : EntersAfter k (fun q => first q >>= next q) p := by
  intro d log here h
  rcases h.bind_cases with h | ⟨b, between, hrun, h⟩
  · exact hfirst h
  · obtain ⟨u, e, rfl, hu, hm⟩ := hends d hrun
    obtain ⟨v, f, rfl, hv, hn⟩ := hnext b h
    refine ⟨u ++ v, f, by rw [logged_append], hu.append hv, ?_⟩
    rw [List.length_append]
    exact hle.trans (Nat.add_le_add hm hn)

theorem bind {first : (ι → Production α) → Production β}
    {next : (ι → Production α) → β → Production γ} (hends : Consumes m (first p))
    (hfirst : EntersAfter n first p) (hnext : ∀ b, EntersAfter n (fun q => next q b) p) :
    EntersAfter n (fun q => first q >>= next q) p :=
  bind_of_le hends hfirst hnext (Nat.le_add_left n m)

/-- A first production that does not enter the family. -/
theorem const_bind {first : Production β} {next : (ι → Production α) → β → Production γ}
    (hends : Consumes m first) (hnext : ∀ b, EntersAfter n (fun q => next q b) p) :
    EntersAfter n (fun q => first >>= next q) p :=
  bind hends const hnext

theorem succ_bind {first : Production β} {next : (ι → Production α) → β → Production γ}
    (hends : Consumes 1 first) (hnext : ∀ b, EntersAfter n (fun q => next q b) p) :
    EntersAfter (n + 1) (fun q => first >>= next q) p :=
  bind_of_le hends const hnext (Nat.add_comm n 1).le

/-- A second production that does not enter the family. -/
theorem bind_const {first : (ι → Production α) → Production β} {next : β → Production γ}
    (hfirst : EntersAfter n first p) : EntersAfter n (fun q => first q >>= next) p := by
  intro d log here h
  rcases h.bind_cases with h | ⟨_, _, -, h⟩
  · exact hfirst h
  · exact absurd h Enters.not_const

theorem ite {c : Prop} [Decidable c] (hrule : EntersAfter n rule p)
    (hrule' : EntersAfter n rule' p) :
    EntersAfter n (fun q => if c then rule q else rule' q) p := by
  by_cases hc : c
  · simpa only [if_pos hc] using hrule
  · simpa only [if_neg hc] using hrule'

/-! ## Repetitions -/

section Repetition

variable {item : (ι → Production α) → Production β} (hitem : EntersAfter n item p)
  (hends : Consumes m (item p))

include hitem hends

theorem separated (separator : TokenKind) :
    ∀ budget, EntersAfter n (fun q => separated separator (item q) budget) p
  | 0 => const
  | budget + 1 => by
    refine bind hends hitem fun first => const_bind (.isAhead separator) fun _ => ite ?_ const
    exact const_bind (Consumes.take.discard) fun _ =>
      bind_const (separated separator budget)

theorem whileAhead (begins : TokenKind → Bool) :
    ∀ budget, EntersAfter n (fun q => whileAhead begins (item q) budget) p
  | 0 => const
  | budget + 1 => by
    refine const_bind .ahead fun token => ite ?_ const
    exact bind hends hitem fun first => bind_const (whileAhead begins budget)

theorem chain (isOperator : TokenKind → Bool) (combine : β → Token → β → β) :
    ∀ budget (left : β), EntersAfter n (fun q => chain isOperator combine (item q) budget left) p
  | 0, _ => const
  | budget + 1, left => by
    refine const_bind .ahead fun token => ite ?_ const
    refine const_bind (Consumes.take) fun operator => ?_
    refine bind hends hitem fun right => ?_
    exact chain isOperator combine budget (combine left operator right)

end Repetition

end EntersAfter

end Production

end LusoPascal
