import LusoPascal.Grammar.Reader
import LusoPascal.Proofs.Grammar.Derivation

/-!
# What a production reads

A production is **sound** for a rule if it only ever consumes deliveries that the rule derives, and
**complete** if it consumes any that the rule derives and that a suitable token follows.

* `Delivery.reader`, `logged`: a reader whose token ahead is a delivery, and its record;
* `Sound`, `Complete`, `Reads`: the two properties, and a single successful run;
* `Sound.bind`, `Reads.bind`: rules for one production after another;
* `ifAhead`: a part that may be missing;
* **`separated_sound`**, **`separated_complete`**, **`whileAhead_sound`**,
  **`whileAhead_complete`**: the repetitions.
-/

namespace LusoPascal

namespace Delivery

/-- A reader whose token ahead is a delivery. -/
def reader (d : Delivery) (log : Array Located) : Reader := ⟨d.located, d.behind, log⟩

end Delivery

/-- A record to which the tokens of deliveries are added. -/
def logged (log : Array Located) (w : List Delivery) : Array Located :=
  w.foldl (fun log d => log.push d.located) log

@[simp] theorem logged_nil (log : Array Located) : logged log [] = log := rfl

@[simp] theorem logged_cons (log : Array Located) (d : Delivery) (w : List Delivery) :
    logged log (d :: w) = logged (log.push d.located) w := rfl

@[simp] theorem logged_append (log : Array Located) (v w : List Delivery) :
    logged log (v ++ w) = logged (logged log v) w := List.foldl_append

namespace Production

open Delivery

variable {α β : Type}

/-! ## Single runs -/

theorem bind_of_ok {p : Production α} {q : α → Production β} {reader behind : Reader} {a : α}
    (h : p reader = .ok a behind) : (p >>= q) reader = q a behind := by
  rw [bind_apply, h]

theorem bind_eq_ok {p : Production α} {q : α → Production β} {reader behind : Reader} {b : β} :
    (p >>= q) reader = .ok b behind ↔
      ∃ a between, p reader = .ok a between ∧ q a between = .ok b behind := by
  constructor
  · intro h
    rw [bind_apply] at h
    cases hp : p reader with
    | ok a between => rw [hp] at h; exact ⟨a, between, rfl, h⟩
    | error halt between => rw [hp] at h; cases h
  · rintro ⟨a, between, hp, hq⟩
    rw [bind_of_ok hp, hq]

theorem pure_eq_ok {reader behind : Reader} {a b : α} :
    (pure a : Production α) reader = .ok b behind ↔ a = b ∧ reader = behind := by
  change EStateM.Result.ok a reader = .ok b behind ↔ _
  rw [EStateM.Result.ok.injEq]

theorem map_apply (f : α → β) (p : Production α) (reader : Reader) :
    (f <$> p) reader =
      match p reader with
      | .ok a behind => .ok (f a) behind
      | .error halt behind => .error halt behind := by
  change EStateM.map f p reader = _
  unfold EStateM.map
  cases p reader <;> rfl

theorem discard_eq_map (p : Production α) : discard p = (fun _ => ()) <$> p := rfl

theorem ahead_bind (q : Token → Production β) (d : Delivery) (log : Array Located) :
    (ahead >>= q) (d.reader log) = q d.token (d.reader log) := rfl

theorem assignAhead_bind (q : Bool → Production β) (d : Delivery) (log : Array Located) :
    (assignAhead >>= q) (d.reader log) = q d.rawAssign (d.reader log) := rfl

theorem expect_of_kind {kind : TokenKind} {d : Delivery} (hd : d.kind = kind)
    (log : Array Located) : expect kind (d.reader log) = take (d.reader log) := by
  rw [expect_apply]
  exact if_pos hd

theorem expect_of_ne {kind : TokenKind} {d : Delivery} (hd : d.kind ≠ kind)
    (log : Array Located) :
    expect kind (d.reader log) =
      .error (.rejected (.syntactic ⟨.expected kind, d.located⟩)) (d.reader log) := by
  rw [expect_apply]
  exact if_neg hd

/-- `Reads p d w a e`: from `d` on, `p` consumes `w` and returns `a`, and then `e` is ahead. -/
def Reads (p : Production α) (d : Delivery) (w : List Delivery) (a : α) (e : Delivery) : Prop :=
  ∀ log, p (d.reader log) = .ok a (e.reader (logged log w))

namespace Reads

variable {p : Production α} {q : α → Production β} {c d e f : Delivery} {v w : List Delivery}
  {a : α} {b : β}

theorem pure (a : α) (d : Delivery) : Reads (pure a) d [] a d := fun _ => rfl

theorem bind (hp : Reads p d v a e) (hq : Reads (q a) e w b f) :
    Reads (p >>= q) d (v ++ w) b f := by
  intro log
  rw [bind_of_ok (hp log), hq, logged_append]

theorem bind_nil (hp : Reads p d w a e) (hq : Reads (q a) e [] b f) :
    Reads (p >>= q) d w b f := by
  rw [← List.append_nil w]
  exact hp.bind hq

theorem map (g : α → β) (hp : Reads p d w a e) : Reads (g <$> p) d w (g a) e := by
  intro log
  rw [map_apply, hp log]

theorem discard (hp : Reads p d w a e) : Reads (discard p) d w () e := by
  rw [discard_eq_map]
  exact hp.map _

theorem ahead {q : Token → Production β} (hq : Reads (q d.token) d w b e) :
    Reads (ahead >>= q) d w b e := hq

theorem ahead_pos {begins : TokenKind → Bool} {p q : Production β} (hd : begins d.kind = true)
    (hp : Reads p d w b e) :
    Reads (Production.ahead >>= fun t => if begins t.kind = true then p else q) d w b e := by
  change Reads (if begins d.kind = true then p else q) d w b e
  rwa [if_pos hd]

theorem ahead_neg {begins : TokenKind → Bool} {p q : Production β} (hd : begins d.kind = false)
    (hq : Reads q d w b e) :
    Reads (Production.ahead >>= fun t => if begins t.kind = true then p else q) d w b e := by
  change Reads (if begins d.kind = true then p else q) d w b e
  rwa [if_neg (by rw [hd]; exact Bool.false_ne_true)]

theorem line {q : Nat → Production β} (hq : Reads (q d.line) d w b e) :
    Reads (line >>= q) d w b e := hq

theorem isAhead_pos {kind : TokenKind} {p q : Production β} (hd : d.kind = kind)
    (hp : Reads p d w b e) :
    Reads (isAhead kind >>= fun yes => if yes = true then p else q) d w b e := by
  change Reads (if (d.kind == kind) = true then p else q) d w b e
  rwa [if_pos (beq_iff_eq.mpr hd)]

theorem isAhead_neg {kind : TokenKind} {p q : Production β} (hd : d.kind ≠ kind)
    (hq : Reads q d w b e) :
    Reads (isAhead kind >>= fun yes => if yes = true then p else q) d w b e := by
  change Reads (if (d.kind == kind) = true then p else q) d w b e
  rwa [if_neg (by rwa [beq_iff_eq])]

theorem assignAhead {q : Bool → Production β} (hq : Reads (q d.rawAssign) d w b e) :
    Reads (assignAhead >>= q) d w b e := hq

theorem take (h : Span d [c] e) : Reads Production.take d [c] c.token e := by
  intro log
  obtain ⟨rfl, m, hm, hnil⟩ := Span.cons_iff.mp h
  obtain rfl := Span.nil_iff.mp hnil
  have hnext : (c.reader log).cursor.next = (.ok m.located, m.behind) := by
    rw [← m.next_before, hm]
    rfl
  rw [take_apply, hnext]
  rfl

theorem expect {kind : TokenKind} (hc : c.kind = kind) (h : Span d [c] e) :
    Reads (Production.expect kind) d [c] c.token e := by
  intro log
  obtain ⟨rfl, -⟩ := Span.cons_iff.mp h
  rw [expect_of_kind hc]
  exact take h log

end Reads

/-! ## Soundness -/

/-- `Ensures p d Post`: if `p` succeeds from `d` on, then `Post w a e` holds of the deliveries `w`
that it consumes, of its result `a` and of the delivery `e` that is then ahead. -/
def Ensures (p : Production α) (d : Delivery) (Post : List Delivery → α → Delivery → Prop) : Prop :=
  ∀ ⦃log : Array Located⦄ ⦃a : α⦄ ⦃behind : Reader⦄, p (d.reader log) = .ok a behind →
    ∃ w e, behind = e.reader (logged log w) ∧ Span d w e ∧ Post w a e

/-- A production consumes nothing but what a rule derives. -/
def Sound (p : Production α) (Rule : List Delivery → α → Prop) : Prop :=
  ∀ d, Ensures p d fun w a _ => Rule w a

namespace Ensures

variable {p : Production α} {q : α → Production β} {d : Delivery}
  {P P' : List Delivery → α → Delivery → Prop} {R : List Delivery → β → Delivery → Prop}

theorem mono (hp : Ensures p d P) (h : ∀ w a e, P w a e → P' w a e) : Ensures p d P' := by
  intro log a behind hrun
  obtain ⟨w, e, hbehind, hspan, hw⟩ := hp hrun
  exact ⟨w, e, hbehind, hspan, h w a e hw⟩

theorem pure {a : α} (h : P [] a d) : Ensures (pure a) d P := by
  intro log b behind hrun
  obtain ⟨rfl, rfl⟩ := pure_eq_ok.mp hrun
  exact ⟨[], d, rfl, .nil d, h⟩

theorem bind (hp : Ensures p d P)
    (hq : ∀ u a e, P u a e → Ensures (q a) e fun v b f => R (u ++ v) b f) :
    Ensures (p >>= q) d R := by
  intro log b behind hrun
  obtain ⟨a, between, hrunp, hrunq⟩ := bind_eq_ok.mp hrun
  obtain ⟨u, e, rfl, hu, hP⟩ := hp hrunp
  obtain ⟨v, f, rfl, hv, hR⟩ := hq u a e hP hrunq
  exact ⟨u ++ v, f, by rw [logged_append], hu.append hv, hR⟩

theorem map {g : α → β} (hp : Ensures p d fun w a e => R w (g a) e) : Ensures (g <$> p) d R := by
  rw [map_eq_pure_bind]
  refine hp.bind fun u a e h => pure ?_
  rwa [List.append_nil]

theorem discard_bind {r : Unit → Production β} (hp : Ensures (p >>= fun _ => r ()) d R) :
    Ensures (discard p >>= r) d R := by
  rwa [discard_eq_map, map_eq_pure_bind, bind_assoc]

theorem reject_bind {defect : Defect} {q : α → Production β} :
    Ensures (reject defect >>= q) d R := by
  intro log b behind hrun
  rw [bind_apply, reject_apply] at hrun
  cases hrun

theorem spent : Ensures (spent : Production α) d P := by
  intro log a behind hrun
  cases hrun

theorem take_bind {q : Token → Production β}
    (hq : ∀ e, e.before = d.behind → Ensures (q d.token) e fun v b f => R (d :: v) b f) :
    Ensures (take >>= q) d R := by
  have htake : Ensures take d fun w t e => w = [d] ∧ t = d.token ∧ e.before = d.behind := by
    intro log t behind h
    rw [take_apply] at h
    split at h
    · next next cursor hnext =>
      obtain ⟨rfl, rfl⟩ := EStateM.Result.ok.inj h
      have hnext' : d.behind.next = (.ok next, cursor) := hnext
      let e : Delivery := ⟨d.behind, next, congrArg Prod.fst hnext'⟩
      have hbehind : e.behind = cursor := congrArg Prod.snd hnext'
      refine ⟨[d], e, ?_, .single rfl, rfl, rfl, rfl⟩
      rw [← hbehind]
      rfl
    · cases h
  refine htake.bind fun u t e ⟨hu, ht, hlink⟩ => ?_
  rw [hu, ht]
  exact hq e hlink

theorem expect_bind {kind : TokenKind} {q : Token → Production β}
    (hq : d.kind = kind → ∀ e, e.before = d.behind →
      Ensures (q d.token) e fun v b f => R (d :: v) b f) :
    Ensures (expect kind >>= q) d R := by
  intro log b behind hrun
  by_cases hd : d.kind = kind
  · rw [bind_apply, expect_of_kind hd, ← bind_apply] at hrun
    exact take_bind (hq hd) hrun
  · rw [bind_apply, expect_of_ne hd] at hrun
    cases hrun

theorem ahead_bind {q : Token → Production β} (hq : Ensures (q d.token) d R) :
    Ensures (ahead >>= q) d R := hq

theorem line_bind {q : Nat → Production β} (hq : Ensures (q d.line) d R) :
    Ensures (line >>= q) d R := hq

theorem assignAhead_bind {q : Bool → Production β} (hq : Ensures (q d.rawAssign) d R) :
    Ensures (assignAhead >>= q) d R := hq

theorem isAhead_bind {kind : TokenKind} {p q : Production β} (hp : d.kind = kind → Ensures p d R)
    (hq : d.kind ≠ kind → Ensures q d R) :
    Ensures (isAhead kind >>= fun yes => if yes = true then p else q) d R := by
  change Ensures (if (d.kind == kind) = true then p else q) d R
  split
  · next h => exact hp (beq_iff_eq.mp h)
  · next h => exact hq fun hk => h (beq_iff_eq.mpr hk)

end Ensures

/-! ## Completeness -/

/-- A production consumes what a rule derives, up to a size, if a suitable token follows. -/
def Complete (p : Production α) (Rule : List Delivery → α → Prop) (Follow : TokenKind → Prop)
    (size : Nat) : Prop :=
  ∀ ⦃d e : Delivery⦄ ⦃w : List Delivery⦄ ⦃a : α⦄,
    Rule w a → w.length ≤ size → Span d w e → Follow e.kind → Reads p d w a e

/-! ## Parts that may be missing -/

/-- A part that is read only if the token ahead is of one kind. -/
def ifAhead (kind : TokenKind) (p : Production α) (a : α) : Production α := do
  if ← isAhead kind then p else return a

theorem ifAhead_bind (kind : TokenKind) (p : Production α) (a : α) (q : α → Production β) :
    (isAhead kind >>= fun yes => if yes = true then p >>= q else q a) = ifAhead kind p a >>= q := by
  rw [ifAhead, bind_assoc]
  congr 1
  funext yes
  split
  · rfl
  · rw [pure_bind]

theorem Ensures.ifAhead {kind : TokenKind} {p : Production α} {a : α} {d : Delivery}
    {P : List Delivery → α → Delivery → Prop} (hp : d.kind = kind → Ensures p d P)
    (ha : d.kind ≠ kind → P [] a d) : Ensures (ifAhead kind p a) d P :=
  isAhead_bind hp fun hd => pure (ha hd)

namespace Reads

variable {kind : TokenKind} {p : Production α} {d e : Delivery} {w : List Delivery} {a b : α}

theorem ifAhead (hd : d.kind = kind) (hp : Reads p d w b e) :
    Reads (ifAhead kind p a) d w b e := isAhead_pos hd hp

theorem ifAhead_missing (hd : d.kind ≠ kind) : Reads (Production.ifAhead kind p a) d [] a d :=
  isAhead_neg hd (pure a d)

end Reads

/-! ## Repetitions -/

section Repetition

variable {separator : TokenKind} {begins : TokenKind → Bool} {item : Production α}
  {Item : List Delivery → α → Prop} {Follow : TokenKind → Prop} {size : Nat}

/-- **Separated items are derived one by one.** -/
theorem separated_sound (hitem : Sound item Item) :
    ∀ budget, Sound (separated separator item budget) (Separated separator Item)
  | 0, _ => .spent
  | budget + 1, d => by
    refine (hitem d).bind fun u a e hu => Ensures.isAhead_bind (fun hs => ?_) fun _ => ?_
    · refine Ensures.discard_bind (Ensures.take_bind fun f _ => ?_)
      refine (separated_sound hitem budget f).bind fun w as g hw => Ensures.pure ?_
      rw [List.append_nil]
      exact .more hu hs hw
    · refine Ensures.pure ?_
      rw [List.append_nil]
      exact .one hu

/-- **Repeated items are derived one by one.** -/
theorem whileAhead_sound (hitem : Sound item Item) :
    ∀ budget, Sound (whileAhead begins item budget) (Repeated Item)
  | 0, _ => .spent
  | budget + 1, d => by
    refine Ensures.ahead_bind ?_
    split
    · refine (hitem d).bind fun u a e hu => ?_
      refine (whileAhead_sound hitem budget e).bind fun w as g hw => Ensures.pure ?_
      rw [List.append_nil]
      exact .cons hu hw
    · exact Ensures.pure .nil

/-- **A chain extends whatever its first operand is derived as**, if an operator and an operand
can be added to that. -/
theorem chain_sound {isOperator : TokenKind → Bool} {combine : α → Token → α → α}
    {Chain : List Delivery → α → Prop} (hitem : Sound item Item)
    (hstep : ∀ {v w : List Delivery} {op : Delivery} {l r : α}, Chain v l →
      isOperator op.kind = true → Item w r → Chain (v ++ op :: w) (combine l op.token r)) :
    ∀ budget {v : List Delivery} {left : α}, Chain v left →
      Sound (chain isOperator combine item budget left) fun w a => Chain (v ++ w) a
  | 0, _, _, _, _ => .spent
  | budget + 1, v, left, hv, d => by
    refine Ensures.ahead_bind ?_
    split
    · next hop =>
      refine Ensures.take_bind fun e _ => (hitem e).bind fun w r f hw => ?_
      refine (chain_sound hitem hstep budget (hstep hv hop hw) f).mono fun u a g hu => ?_
      simpa using hu
    · refine Ensures.pure ?_
      simpa using hv

/-- **Separated items are read**, if the token behind them is no separator. -/
theorem separated_complete (hitem : Complete item Item Follow size) (hs : Follow separator)
    {budget : Nat} {d e : Delivery} {w : List Delivery} {as : List α}
    (h : Separated separator Item w as) (hsize : w.length ≤ size) (hbudget : w.length < budget)
    (hspan : Span d w e) (he : Follow e.kind) (hne : e.kind ≠ separator) :
    Reads (separated separator item budget) d w as e := by
  induction h generalizing d budget with
  | one hw =>
    obtain ⟨n, rfl⟩ := Nat.exists_eq_add_one_of_ne_zero (Nat.ne_zero_of_lt hbudget)
    exact (hitem hw hsize hspan he).bind_nil (.isAhead_neg hne (.pure _ _))
  | more hv hs' _ ih =>
    obtain ⟨n, rfl⟩ := Nat.exists_eq_add_one_of_ne_zero (Nat.ne_zero_of_lt hbudget)
    simp only [List.length_append, List.length_cons] at hsize hbudget
    obtain ⟨m, hspanv, hspanw⟩ := Span.append_iff.mp hspan
    obtain ⟨rfl, c, hlink, hspanw⟩ := Span.cons_iff.mp hspanw
    have hfirst := hitem hv (by omega) hspanv (by rwa [hs'])
    have hrest : Reads (separated separator item n) c _ _ e := ih (by omega) (by omega) hspanw
    have htake := (Reads.take (.single hlink)).discard
    exact hfirst.bind (.isAhead_pos hs' (htake.bind (hrest.bind_nil (.pure _ _))))

/-- **Repeated items are read**, if the token behind them begins no other one. -/
theorem whileAhead_complete (hitem : Complete item Item Follow size)
    (hbegins : ∀ kind, begins kind = true → Follow kind)
    (hhead : ∀ {w : List Delivery} {a : α}, Item w a → ∃ c v, w = c :: v ∧ begins c.kind = true)
    {budget : Nat} {d e : Delivery} {w : List Delivery} {as : List α}
    (h : Repeated Item w as) (hsize : w.length ≤ size) (hbudget : w.length < budget)
    (hspan : Span d w e) (he : Follow e.kind) (hne : begins e.kind = false) :
    Reads (whileAhead begins item budget) d w as e := by
  induction h generalizing d budget with
  | nil =>
    obtain ⟨n, rfl⟩ := Nat.exists_eq_add_one_of_ne_zero (Nat.ne_zero_of_lt hbudget)
    obtain rfl := Span.nil_iff.mp hspan
    exact .ahead_neg hne (.pure _ _)
  | @cons v w a as hv hw ih =>
    obtain ⟨n, rfl⟩ := Nat.exists_eq_add_one_of_ne_zero (Nat.ne_zero_of_lt hbudget)
    obtain ⟨m, hspanv, hspanw⟩ := Span.append_iff.mp hspan
    obtain ⟨c, v, rfl, hc⟩ := hhead hv
    obtain ⟨rfl, -⟩ := Span.cons_iff.mp hspanv
    simp only [List.length_append, List.length_cons] at hsize hbudget
    -- what follows the first item is the next item or the token behind them all
    have hm : Follow m.kind := by
      cases hw with
      | nil => exact Span.nil_iff.mp hspanw ▸ he
      | cons hv' _ =>
        obtain ⟨c', v', rfl, hc'⟩ := hhead hv'
        obtain ⟨rfl, -⟩ := Span.cons_iff.mp hspanw
        exact hbegins _ hc'
    have hfirst := hitem hv (by simp only [List.length_cons]; omega) hspanv hm
    have hrest : Reads (whileAhead begins item n) m w as e := ih (by omega) (by omega) hspanw
    exact .ahead_pos hc (hfirst.bind (hrest.bind_nil (.pure _ _)))

theorem chain_stop {isOperator : TokenKind → Bool} {combine : α → Token → α → α} {budget : Nat}
    {e : Delivery} {l : α} (he : isOperator e.kind = false) :
    Reads (chain isOperator combine item (budget + 1) l) e [] l e :=
  .ahead_neg he (.pure _ _)

theorem chain_succ {isOperator : TokenKind → Bool} {combine : α → Token → α → α} {budget : Nat}
    {op c e : Delivery} {w : List Delivery} {l r : α} (hop : isOperator op.kind = true)
    (hlink : c.before = op.behind) (hread : Reads item c w r e) (log : Array Located) :
    chain isOperator combine item (budget + 1) l (op.reader log) =
      chain isOperator combine item budget (combine l op.token r)
        (e.reader (logged log (op :: w))) := by
  have hop' : isOperator op.token.kind = true := hop
  rw [chain, ahead_bind, if_pos hop', bind_of_ok (Reads.take (.single hlink) log),
    bind_of_ok (hread _)]
  rfl

end Repetition

end Production

end LusoPascal
