import LusoPascal.Proofs.Grammar.Reading
import LusoPascal.Proofs.Token.Written

/-!
# How a production fails

A run that fails stops in front of the token at fault, or behind a token after which no other one
can be fetched. A production is **mendable** for a rule if wherever it rejects a token, each token
that it names instead could go on with what was consumed, as the rule says; and if a budget above
the number of tokens left is never spent.

* `Delivery.remaining`: how many tokens are left;
* `Failed`, `Fails`: a run that failed, and what is known about all of them;
* `Fails.bind`, `Fails.expect_bind`, and the like: rules for one production after another;
* `Mendable`: a sound production that fails as its rule says;
* **`separated_mendable`**, **`whileAhead_mendable`**, `chain_fails`: the repetitions.
-/

namespace LusoPascal

/-- The kinds of tokens that would have been right instead. A defect names them, except that it
does not say that a list of commands could be closed where an identifier is astray. -/
def Defect.wanted : Defect → List TokenKind
  | expected kind => [kind]
  | expectedType => [.inteiro, .logico]
  | strayIdentifier => [.fim]

namespace Delivery

/-- How many tokens are left before the end of the text or the first fault. -/
def remaining (d : Delivery) : Nat := d.before.trail.length

variable {d e : Delivery} {w : List Delivery}

theorem ne_endOfInput_of_class {isClass : TokenKind → Bool} (hd : isClass d.kind = true)
    (hend : isClass .endOfInput = false) : d.kind ≠ .endOfInput := by
  intro hkind
  rw [hkind, hend] at hd
  cases hd

theorem remaining_of_behind (hd : d.kind ≠ .endOfInput) (h : e.before = d.behind) :
    e.remaining + 1 = d.remaining := by
  rw [remaining, remaining, trail_of_ne_end hd, h, List.length_cons]

theorem Span.remaining (h : Span d w e) (hw : ∀ c ∈ w, c.kind ≠ .endOfInput) :
    e.remaining + w.length = d.remaining := by
  rw [Delivery.remaining, Delivery.remaining, h.trail_eq hw, List.length_append, Nat.add_comm]

end Delivery

/-- Some tree belongs to the deliveries. -/
def Derivable {α : Type} (Rule : List Delivery → α → Prop) (w : List Delivery) : Prop :=
  ∃ a, Rule w a

theorem Derivable.exists_append {α : Type} {Rule : List Delivery → α → Prop} {w : List Delivery}
    {a : α} (h : Rule w a) : ∃ x, Derivable Rule (w ++ x) :=
  ⟨[], a, by rwa [List.append_nil]⟩

namespace Production

open Delivery

variable {α β : Type}

/-! ## Runs that fail -/

/-- How a run from `d` on fails: in front of a token, where every kind that is wanted instead goes on
as the rule says; or behind the last token that was consumed, where the next one is a fault. -/
inductive Failed (d : Delivery) (log : Array Located) (Rule : List Delivery → Prop) :
    Halt → Reader → Prop
  | syntactic {w : List Delivery} {e : Delivery} {defect : Defect} (hspan : Span d w e)
      (hw : ∀ c ∈ w, c.kind ≠ .endOfInput)
      (hmend : ∀ kind ∈ defect.wanted, ∃ c v, c.kind = kind ∧ Rule (w ++ c :: v)) :
      Failed d log Rule (.rejected (.syntactic ⟨defect, e.located⟩)) (e.reader (logged log w))
  | lexical {w : List Delivery} {last : Delivery} {error : LexicalError} (hspan : Span d w last)
      (hw : ∀ c ∈ w ++ [last], c.kind ≠ .endOfInput)
      (hfault : last.behind.next.1 = .error error) :
      Failed d log Rule (.rejected (.lexical error))
        ⟨last.located, last.behind.next.2, logged log (w ++ [last])⟩

/-- All runs of a production from `d` on that fail do so as a rule says. -/
def Fails (p : Production α) (d : Delivery) (Rule : List Delivery → Prop) : Prop :=
  ∀ ⦃log : Array Located⦄ ⦃halt : Halt⦄ ⦃behind : Reader⦄,
    p (d.reader log) = .error halt behind → Failed d log Rule halt behind

/-- A sound production that fails as its rule says, where fewer tokens than its budget are left. -/
structure Mendable (p : Production α) (Rule : List Delivery → α → Prop) (budget : Nat) :
    Prop where
  sound : Sound p Rule
  inner {w : List Delivery} {a : α} (h : Rule w a) : ∀ c ∈ w, c.IsInner
  fails {d : Delivery} (h : d.remaining < budget) : Fails p d (Derivable Rule)

theorem Failed.append {d e : Delivery} {u : List Delivery} {log : Array Located}
    {Rule : List Delivery → Prop} {halt : Halt} {behind : Reader} (hu : Span d u e)
    (hinner : ∀ c ∈ u, c.kind ≠ .endOfInput)
    (h : Failed e (logged log u) (fun v => Rule (u ++ v)) halt behind) :
    Failed d log Rule halt behind := by
  cases h with
  | @syntactic w f defect hspan hw hmend =>
    rw [← logged_append]
    refine .syntactic (hu.append hspan) (List.forall_mem_append.mpr ⟨hinner, hw⟩) ?_
    intro kind hkind
    obtain ⟨c, v, hc, hv⟩ := hmend kind hkind
    exact ⟨c, v, hc, by rwa [List.append_assoc]⟩
  | @lexical w last error hspan hw hfault =>
    rw [← logged_append, ← List.append_assoc]
    refine .lexical (hu.append hspan) ?_ hfault
    rw [List.append_assoc]
    exact List.forall_mem_append.mpr ⟨hinner, hw⟩

namespace Fails

variable {p : Production α} {q : α → Production β} {d : Delivery} {Rule Rule' : List Delivery → Prop}
  {First : List Delivery → α → Prop} {budget : Nat} {kind : TokenKind}

/-- What a rule derives may be completed to what another one derives. -/
theorem complete (hp : Fails p d Rule) (h : ∀ {w}, Rule w → ∃ x, Rule' (w ++ x)) :
    Fails p d Rule' := by
  intro log halt behind hrun
  cases hp hrun with
  | syntactic hspan hw hmend =>
    refine .syntactic hspan hw fun kind hkind => ?_
    obtain ⟨c, v, hc, hv⟩ := hmend kind hkind
    obtain ⟨x, hx⟩ := h hv
    exact ⟨c, v ++ x, hc, by simpa using hx⟩
  | lexical hspan hw hfault => exact .lexical hspan hw hfault

theorem mono (hp : Fails p d Rule) (h : ∀ {w}, Rule w → Rule' w) : Fails p d Rule' :=
  hp.complete fun {w} hw => ⟨[], by rw [List.append_nil]; exact h hw⟩

theorem pure {a : α} : Fails (pure a) d Rule := by
  rintro log halt behind ⟨⟩

/-- The first part fails as its own rule says, and what that derives can be completed; or the second
part fails behind it. -/
theorem bind (hp : Mendable p First budget) (hd : d.remaining < budget)
    (hcomplete : ∀ {u a}, First u a → ∃ x, Rule (u ++ x))
    (hq : ∀ {u a e}, First u a → e.remaining + u.length = d.remaining →
      Fails (q a) e fun v => Rule (u ++ v)) :
    Fails (p >>= q) d Rule := by
  intro log halt behind hrun
  rw [bind_apply] at hrun
  cases hfirst : p (d.reader log) with
  | error halt' behind' =>
    rw [hfirst] at hrun
    obtain ⟨rfl, rfl⟩ := EStateM.Result.error.inj hrun
    exact (hp.fails hd).complete (fun ⟨_, h⟩ => hcomplete h) hfirst
  | ok a between =>
    rw [hfirst] at hrun
    obtain ⟨u, e, rfl, hu, hrule⟩ := hp.sound d hfirst
    have hinner : ∀ c ∈ u, c.kind ≠ .endOfInput := fun c hc => (hp.inner hrule c hc).2
    exact (hq hrule (hu.remaining hinner) hrun).append hu hinner

theorem discard_bind {r : Unit → Production β} (hp : Fails (p >>= fun _ => r ()) d Rule) :
    Fails (discard p >>= r) d Rule := by
  rwa [discard_eq_map, map_eq_pure_bind, bind_assoc]

theorem reject_bind {defect : Defect}
    (hmend : ∀ kind ∈ defect.wanted, ∃ c v, c.kind = kind ∧ Rule (c :: v)) :
    Fails (reject defect >>= q) d Rule := by
  intro log halt behind hrun
  rw [bind_apply, reject_apply] at hrun
  obtain ⟨rfl, rfl⟩ := EStateM.Result.error.inj hrun
  exact .syntactic (.nil d) (by simp) hmend

theorem take_bind {q : Token → Production β} (hd : d.kind ≠ .endOfInput)
    (hq : ∀ {e}, e.remaining + 1 = d.remaining → Fails (q d.token) e fun v => Rule (d :: v)) :
    Fails (take >>= q) d Rule := by
  intro log halt behind hrun
  rw [bind_apply, take_apply] at hrun
  cases hnext : d.behind.next.1 with
  | error error =>
    have hnext' : (d.reader log).cursor.next = (.error error, d.behind.next.2) :=
      Prod.ext hnext rfl
    rw [hnext'] at hrun
    obtain ⟨rfl, rfl⟩ := EStateM.Result.error.inj hrun
    exact .lexical (.nil d) (by simpa using hd) hnext
  | ok located =>
    let e : Delivery := ⟨d.behind, located, hnext⟩
    have hnext' : (d.reader log).cursor.next = (.ok e.located, e.behind) := Prod.ext hnext rfl
    rw [hnext'] at hrun
    have hspan : Span d [d] e := .single rfl
    exact (hq (remaining_of_behind hd rfl) hrun).append (u := [d]) hspan (by simpa using hd)

theorem expect_bind {q : Token → Production β} (hkind : kind ≠ .endOfInput)
    (hcomplete : ∀ {c}, c.kind = kind → ∃ x, Rule (c :: x))
    (hq : d.kind = kind → ∀ {e}, e.remaining + 1 = d.remaining →
      Fails (q d.token) e fun v => Rule (d :: v)) :
    Fails (expect kind >>= q) d Rule := by
  intro log halt behind hrun
  by_cases hd : d.kind = kind
  · rw [bind_apply, expect_of_kind hd, ← bind_apply] at hrun
    exact take_bind (hd ▸ hkind) (hq hd) hrun
  · rw [bind_apply, expect_of_ne hd] at hrun
    obtain ⟨rfl, rfl⟩ := EStateM.Result.error.inj hrun
    refine .syntactic (.nil d) (by simp) ?_
    intro wanted hwanted
    obtain rfl := List.mem_singleton.mp hwanted
    obtain ⟨c, hc⟩ := TokenKind.exists_delivery _ hkind
    obtain ⟨x, hx⟩ := hcomplete hc
    exact ⟨c, x, hc, hx⟩

theorem ahead_bind {q : Token → Production β} (hq : Fails (q d.token) d Rule) :
    Fails (ahead >>= q) d Rule := hq

theorem line_bind {q : Nat → Production β} (hq : Fails (q d.line) d Rule) :
    Fails (line >>= q) d Rule := hq

theorem assignAhead_bind {q : Bool → Production β} (hq : Fails (q d.rawAssign) d Rule) :
    Fails (assignAhead >>= q) d Rule := hq

theorem isAhead_bind {p q : Production β} (hp : d.kind = kind → Fails p d Rule)
    (hq : d.kind ≠ kind → Fails q d Rule) :
    Fails (isAhead kind >>= fun yes => if yes = true then p else q) d Rule := by
  change Fails (if (d.kind == kind) = true then p else q) d Rule
  split
  · next h => exact hp (beq_iff_eq.mp h)
  · next h => exact hq fun hk => h (beq_iff_eq.mpr hk)

theorem ifAhead {a : α} (hp : d.kind = kind → Fails p d Rule) :
    Fails (Production.ifAhead kind p a) d Rule :=
  isAhead_bind hp fun _ => pure

theorem bind_pure {g : α → β} (hp : Fails p d Rule) : Fails (p >>= fun a => Pure.pure (g a)) d Rule := by
  intro log halt behind hrun
  rw [bind_apply] at hrun
  cases hfirst : p (d.reader log) with
  | error halt' behind' =>
    rw [hfirst] at hrun
    obtain ⟨rfl, rfl⟩ := EStateM.Result.error.inj hrun
    exact hp hfirst
  | ok a between =>
    rw [hfirst] at hrun
    cases hrun

end Fails

theorem ifAhead_mendable {p : Production α} {Rule : List Delivery → α → Prop} {budget : Nat}
    (kind : TokenKind) (hp : Mendable p Rule budget) (a : α) :
    Mendable (ifAhead kind p a) (fun w b => w = [] ∧ b = a ∨ Rule w b) budget where
  sound d := .ifAhead (fun _ => (hp.sound d).mono fun _ _ _ h => .inr h) fun _ => .inl ⟨rfl, rfl⟩
  inner h := by
    rcases h with ⟨rfl, -⟩ | h
    · simp
    · exact hp.inner h
  fails hd := .ifAhead fun _ => (hp.fails hd).mono fun ⟨b, h⟩ => ⟨b, .inr h⟩

/-! ## Repetitions -/

section Repetition

variable {separator : TokenKind} {begins : TokenKind → Bool} {item : Production α}
  {Item : List Delivery → α → Prop} {size : Nat}

theorem separated_fails (hitem : Mendable item Item size) (hs : separator ≠ .endOfInput)
    {budget : Nat} (hb : budget ≤ size) {d : Delivery} (hd : d.remaining < budget) :
    Fails (separated separator item budget) d (Derivable (Separated separator Item)) := by
  induction budget generalizing d with
  | zero => exact absurd hd (Nat.not_lt_zero _)
  | succ budget ih =>
    refine .bind hitem (Nat.lt_of_lt_of_le hd hb)
      (fun hu => Derivable.exists_append (.one hu)) fun {u a e} hu hr => ?_
    refine .isAhead_bind (fun he => ?_) fun _ => .pure
    refine .discard_bind (.take_bind (he ▸ hs) fun {f} hr' => .bind_pure ?_)
    refine (ih (by omega) (by omega)).mono fun {w} ⟨as, hw⟩ => ?_
    exact ⟨a :: as, .more hu he hw⟩

theorem whileAhead_fails (hitem : Mendable item Item size)
    (hne : ∀ {w : List Delivery} {a : α}, Item w a → w ≠ []) {budget : Nat}
    (hb : budget ≤ size) {d : Delivery} (hd : d.remaining < budget) :
    Fails (whileAhead begins item budget) d (Derivable (Repeated Item)) := by
  induction budget generalizing d with
  | zero => exact absurd hd (Nat.not_lt_zero _)
  | succ budget ih =>
    have hone {u : List Delivery} {a : α} (hu : Item u a) :
        ∃ x, Derivable (Repeated Item) (u ++ x) := ⟨[], [a], .cons hu .nil⟩
    refine .ahead_bind ?_
    split
    · refine .bind hitem (Nat.lt_of_lt_of_le hd hb) hone fun {u a e} hu hr => .bind_pure ?_
      have hpos := List.length_pos_iff.mpr (hne hu)
      refine (ih (by omega) (by omega)).mono fun {w} ⟨as, hw⟩ => ?_
      exact ⟨a :: as, .cons hu hw⟩
    · exact .pure

/-- **Separated items are mendable if each one is.** -/
theorem separated_mendable (hitem : Mendable item Item size)
    (hs : separator ≠ .dot ∧ separator ≠ .endOfInput) {budget : Nat} (hb : budget ≤ size) :
    Mendable (separated separator item budget) (Separated separator Item) budget where
  sound := separated_sound hitem.sound budget
  inner h := h.inner hitem.inner hs
  fails hd := separated_fails hitem hs.2 hb hd

/-- **Repeated items are mendable if each one is** and takes a token. -/
theorem whileAhead_mendable (hitem : Mendable item Item size)
    (hne : ∀ {w : List Delivery} {a : α}, Item w a → w ≠ []) {budget : Nat}
    (hb : budget ≤ size) :
    Mendable (whileAhead begins item budget) (Repeated Item) budget where
  sound := whileAhead_sound hitem.sound budget
  inner h := h.inner hitem.inner
  fails hd := whileAhead_fails hitem hne hb hd

/-- A chain goes on from whatever its first operand is derived as. -/
theorem chain_fails {isOperator : TokenKind → Bool} {combine : α → Token → α → α}
    {Chain : List Delivery → α → Prop} (hitem : Mendable item Item size)
    (hend : isOperator .endOfInput = false)
    (hstep : ∀ {v w : List Delivery} {op : Delivery} {l r : α}, Chain v l →
      isOperator op.kind = true → Item w r → Chain (v ++ op :: w) (combine l op.token r))
    {budget : Nat} (hb : budget ≤ size) {v : List Delivery} {left : α} (hv : Chain v left)
    {d : Delivery} (hd : d.remaining < budget) :
    Fails (chain isOperator combine item budget left) d fun w => Derivable Chain (v ++ w) := by
  induction budget generalizing d v left with
  | zero => exact absurd hd (Nat.not_lt_zero _)
  | succ budget ih =>
    refine .ahead_bind ?_
    split
    · next hop =>
      refine .take_bind (ne_endOfInput_of_class hop hend) fun {e} hr => ?_
      have hone {w : List Delivery} {r : α} (hw : Item w r) :
          ∃ x, Derivable Chain (v ++ d :: (w ++ x)) :=
        ⟨[], _, by rw [List.append_nil]; exact hstep hv hop hw⟩
      refine .bind hitem (by omega) hone fun {w r f} hw hr' => ?_
      refine (ih (by omega) (hstep hv hop hw) (by omega)).mono fun {u} ⟨x, hu⟩ => ?_
      exact ⟨x, by simpa using hu⟩
    · exact .pure

end Repetition

end Production

end LusoPascal
