import LusoPascal.Proofs.Grammar.Reading
import LusoPascal.Proofs.Tree.WellFormed

/-!
# Two runs side by side

Two texts may deliver the same tokens at different places. A production cannot tell them apart: as
long as the deliveries are alike, its two runs consume alike and end alike. If they are alike for a
limited number of tokens only, this holds of all runs that consume no more than these.

* `Delivery.Alike`: two deliveries from which on the same tokens are consumed;
* `Match`: two runs that end alike, up to a view of their results;
* `reached`, `Grows`, `Takes`: the reader at the end of a run, that no record is ever shortened, and
  that it gets longer;
* `Mirrors`: two productions that run alike on alike deliveries;
* **`Mirrors.bind`**, `Mirrors.take`, `Mirrors.expect`, and the like: rules for the steps;
* **`Mirrors.separated`**, **`Mirrors.whileAhead`**, **`Mirrors.chain`**: the repetitions, on any two
  budgets.
-/

namespace LusoPascal

/-- `Alike n d d'`: from `d` and `d'` on, the same tokens are ahead until `n` of them are consumed,
or until the same fault; and the raw characters say the same behind each identifier before that. -/
inductive Delivery.Alike : Nat → Delivery → Delivery → Prop
  | ahead {d d' : Delivery} (htoken : d.token = d'.token) : Alike 0 d d'
  | fault {n : Nat} {d d' : Delivery} {error error' : LexicalError} (htoken : d.token = d'.token)
      (hraw : d.kind = .identifier → d.rawAssign = d'.rawAssign)
      (hd : d.behind.next.1 = .error error) (hd' : d'.behind.next.1 = .error error')
      (hfault : error.fault = error'.fault) : Alike (n + 1) d d'
  | more {n : Nat} {d d' e e' : Delivery} (htoken : d.token = d'.token)
      (hraw : d.kind = .identifier → d.rawAssign = d'.rawAssign) (hlink : e.before = d.behind)
      (hlink' : e'.before = d'.behind) (hmore : Alike n e e') : Alike (n + 1) d d'

namespace Delivery.Alike

variable {n : Nat} {d d' : Delivery}

theorem token (h : Alike n d d') : d.token = d'.token := by
  cases h <;> assumption

theorem rawAssign (h : Alike (n + 1) d d') (hd : d.kind = .identifier) :
    d.rawAssign = d'.rawAssign := by
  cases h with
  | fault _ hraw | more _ hraw => exact hraw hd

end Delivery.Alike

namespace Production

open Delivery

variable {α β γ δ : Type}

/-! ## The end of a run -/

/-- The reader at the end of a run. -/
def reached (p : Production α) (reader : Reader) : Reader :=
  match p reader with
  | .ok _ behind => behind
  | .error _ behind => behind

theorem reached_bind (p : Production α) (q : α → Production β) (reader : Reader) :
    reached (p >>= q) reader =
      match p reader with
      | .ok a between => reached (q a) between
      | .error _ behind => behind := by
  rw [reached, bind_apply]
  cases p reader <;> rfl

theorem reached_take (reader : Reader) :
    (reached take reader).consumed = reader.consumed.push reader.ahead := by
  rw [reached, take_apply]
  rcases reader.cursor.next with ⟨_ | _, cursor⟩ <;> rfl

/-- A production never shortens the record of what is consumed. -/
def Grows (p : Production α) : Prop :=
  ∀ reader, reader.consumed.size ≤ (reached p reader).consumed.size

namespace Grows

variable {p : Production α} {q : α → Production β}

theorem bind (hp : Grows p) (hq : ∀ a, Grows (q a)) : Grows (p >>= q) := by
  intro reader
  have hsize := hp reader
  rw [reached] at hsize
  rw [reached_bind]
  cases hrun : p reader with
  | error halt behind => rwa [hrun] at hsize
  | ok a between =>
    rw [hrun] at hsize
    exact hsize.trans (hq a between)

theorem take : Grows take := by
  intro reader
  rw [reached_take, Array.size_push]
  exact Nat.le_succ _

theorem expect (kind : TokenKind) : Grows (expect kind) := by
  intro reader
  rw [reached, expect_apply]
  by_cases h : reader.ahead.token.kind = kind
  · rw [if_pos h]
    exact take reader
  · rw [if_neg h]

theorem pure (a : α) : Grows (pure a) := fun _ => le_rfl

end Grows

/-- A production consumes the token ahead if that is of a kind. -/
def Takes (kind : TokenKind) (p : Production α) : Prop :=
  ∀ ⦃d : Delivery⦄ (log : Array Located), d.kind = kind →
    log.size < (reached p (d.reader log)).consumed.size

namespace Takes

variable {kind : TokenKind} {p : Production α} {q : α → Production β}

theorem expect : Takes kind (expect kind) := by
  intro d log hd
  rw [reached, expect_of_kind hd, ← reached, reached_take, Delivery.reader, Array.size_push]
  exact Nat.lt_succ_self _

theorem bind (hp : Takes kind p) (hq : ∀ a, Grows (q a)) : Takes kind (p >>= q) := by
  intro d log hd
  have hsize := hp log hd
  rw [reached] at hsize
  rw [reached_bind]
  cases hrun : p (d.reader log) with
  | error halt behind => rwa [hrun] at hsize
  | ok a between =>
    rw [hrun] at hsize
    exact hsize.trans_le (hq a between)

theorem line_bind {q : Nat → Production β} (hq : ∀ line, Takes kind (q line)) :
    Takes kind (line >>= q) :=
  fun d log hd => hq d.line log hd

end Takes

/-! ## Runs that end alike -/

/-- Two runs end alike: with results of one view, and then with alike deliveries as long as the
record of the first is within a size; with one defect at one token; or with one fault. A run whose
budget is spent is like any other one. -/
inductive Match (view : α → γ) (size : Nat) :
    EStateM.Result Halt Reader α → EStateM.Result Halt Reader α → Prop
  | ok {n : Nat} {a b : α} {e e' : Delivery} {log log' : Array Located} (hview : view a = view b)
      (hsize : log.size + n = size) (he : Alike n e e') :
      Match view size (.ok a (e.reader log)) (.ok b (e'.reader log'))
  | syntactic {defect : Defect} {found found' : Located} {behind behind' : Reader}
      (hfound : found.token = found'.token) :
      Match view size (.error (.rejected (.syntactic ⟨defect, found⟩)) behind)
        (.error (.rejected (.syntactic ⟨defect, found'⟩)) behind')
  | lexical {error error' : LexicalError} {behind behind' : Reader}
      (hfault : error.fault = error'.fault) :
      Match view size (.error (.rejected (.lexical error)) behind)
        (.error (.rejected (.lexical error')) behind')
  | spent_left {behind : Reader} {result : EStateM.Result Halt Reader α} :
      Match view size (.error .spent behind) result
  | spent_right {behind : Reader} {result : EStateM.Result Halt Reader α} :
      Match view size result (.error .spent behind)

theorem Match.mono {view : α → γ} {view' : α → δ} {size : Nat}
    {result result' : EStateM.Result Halt Reader α} (hm : Match view size result result')
    (h : ∀ a b, view a = view b → view' a = view' b) : Match view' size result result' := by
  cases hm with
  | ok hview hsize he => exact .ok (h _ _ hview) hsize he
  | syntactic hfound => exact .syntactic hfound
  | lexical hfault => exact .lexical hfault
  | spent_left => exact .spent_left
  | spent_right => exact .spent_right

/-- The runs of two productions from `d` and `d'` on end alike if the first one consumes at most `n`
tokens. -/
def RunAlike (p p' : Production α) (view : α → γ) (n : Nat) (d d' : Delivery) : Prop :=
  ∀ log log' : Array Located, (reached p (d.reader log)).consumed.size ≤ log.size + n →
    Match view (log.size + n) (p (d.reader log)) (p' (d'.reader log'))

theorem RunAlike.ahead_bind {q q' : Token → Production α} {view : α → γ} {n : Nat}
    {d d' : Delivery} (hd : Alike n d d') (hq : RunAlike (q d.token) (q' d.token) view n d d') :
    RunAlike (ahead >>= q) (ahead >>= q') view n d d' := by
  intro log log' hsize
  rw [Production.ahead_bind, Production.ahead_bind, ← hd.token]
  exact hq log log' hsize

/-- Two productions run alike on alike deliveries, as far as these are alike. -/
structure Mirrors (p p' : Production α) (view : α → γ) : Prop where
  grows : Grows p
  runs {n : Nat} {d d' : Delivery} (h : Alike n d d') : RunAlike p p' view n d d'

namespace Mirrors

variable {p p' : Production α} {q q' : α → Production β} {view : α → γ} {view' : β → δ}

theorem mono {view' : α → δ} (hp : Mirrors p p' view)
    (h : ∀ a b, view a = view b → view' a = view' b) : Mirrors p p' view' where
  grows := hp.grows
  runs hd log log' hsize := (hp.runs hd log log' hsize).mono h

theorem pure {a b : α} (h : view a = view b) : Mirrors (pure a) (pure b) view where
  grows _ := le_rfl
  runs hd _ _ _ := .ok h rfl hd

theorem spent_left : Mirrors spent p view := ⟨fun _ => le_rfl, fun _ _ _ _ => .spent_left⟩

theorem spent_right (hp : Grows p) : Mirrors p spent view := ⟨hp, fun _ _ _ _ => .spent_right⟩

/-- On a budget of none nothing is read, so one step more may be assumed. -/
theorem of_succ {p' : Nat → Production α} (hzero : p' 0 = spent)
    (hsucc : ∀ budget', Mirrors p (p' (budget' + 1)) view) (budget' : Nat) :
    Mirrors p (p' budget') view := by
  cases budget' with
  | zero => exact hzero ▸ spent_right (hsucc 0).grows
  | succ budget' => exact hsucc budget'

theorem reject {defect : Defect} : Mirrors (reject defect) (reject defect) view where
  grows _ := le_rfl
  runs hd _ _ _ := .syntactic hd.token

theorem ahead : Mirrors ahead ahead id where
  grows _ := le_rfl
  runs hd _ _ _ := .ok hd.token rfl hd

theorem line : Mirrors line line fun _ => () where
  grows _ := le_rfl
  runs hd _ _ _ := .ok rfl rfl hd

theorem isAhead (kind : TokenKind) : Mirrors (isAhead kind) (isAhead kind) id where
  grows _ := le_rfl
  runs hd _ _ _ := .ok (congrArg (fun token => token.kind == kind) hd.token) rfl hd

theorem take : Mirrors take take id where
  grows := .take
  runs {n d d'} hd log log' hsize := by
    rw [reached_take] at hsize
    have hsize' : log.size + 1 ≤ log.size + n := by rwa [← Array.size_push d.located]
    cases hd with
    -- no token may be consumed any more, but this one would be
    | ahead => omega
    | fault _ _ hnext hnext' hfault =>
      have hnext₁ : (d.reader log).cursor.next = (.error _, _) := Prod.ext hnext rfl
      have hnext₂ : (d'.reader log').cursor.next = (.error _, _) := Prod.ext hnext' rfl
      rw [take_apply, take_apply, hnext₁, hnext₂]
      exact .lexical hfault
    | @more n _ _ e e' htoken _ hlink hlink' hmore =>
      rw [Reads.take (.single hlink) log, Reads.take (.single hlink') log']
      refine .ok htoken ?_ hmore
      rw [logged_cons, logged_nil, Array.size_push]
      omega

theorem expect (kind : TokenKind) : Mirrors (expect kind) (expect kind) id where
  grows := .expect kind
  runs {n d d'} hd log log' hsize := by
    have hkind : d'.kind = d.kind := congrArg Token.kind hd.token.symm
    by_cases h : d.kind = kind
    · rw [reached, expect_of_kind h] at hsize
      rw [expect_of_kind h, expect_of_kind (hkind.trans h)]
      exact take.runs hd log log' hsize
    · rw [expect_of_ne h, expect_of_ne fun h' => h (hkind.symm.trans h')]
      exact .syntactic hd.token

/-- **One production after another.** -/
theorem bind (hp : Mirrors p p' view) (hq : ∀ a b, view a = view b → Mirrors (q a) (q' b) view') :
    Mirrors (p >>= q) (p' >>= q') view' where
  grows := hp.grows.bind fun a => (hq a a rfl).grows
  runs {n d d'} hd log log' hsize := by
    have hfirst := hp.runs hd log log'
    rw [reached] at hfirst
    rw [reached_bind] at hsize
    rw [bind_apply, bind_apply]
    cases hrun : p (d.reader log) with
    | error halt behind =>
      rw [hrun] at hsize hfirst
      generalize p' (d'.reader log') = result at hfirst
      cases hfirst hsize with
      | syntactic hfound => exact .syntactic hfound
      | lexical hfault => exact .lexical hfault
      | spent_left => exact .spent_left
      | spent_right => exact .spent_right
    | ok a between =>
      rw [hrun] at hsize hfirst
      have hbetween := ((hq a a rfl).grows between).trans hsize
      generalize p' (d'.reader log') = result at hfirst
      cases hfirst hbetween with
      | ok hview hsize' he =>
        dsimp only at hsize ⊢
        rw [← hsize'] at hsize ⊢
        exact (hq _ _ hview).runs he _ _ hsize
      | spent_right => exact .spent_right

theorem bind_eq (hp : Mirrors p p' id) (hq : ∀ a, Mirrors (q a) (q' a) view') :
    Mirrors (p >>= q) (p' >>= q') view' :=
  hp.bind fun a b hab => by
    obtain rfl : a = b := hab
    exact hq a

theorem map {g : α → β} (hp : Mirrors p p' view)
    (h : ∀ a b, view a = view b → view' (g a) = view' (g b)) :
    Mirrors (g <$> p) (g <$> p') view' := by
  rw [map_eq_pure_bind, map_eq_pure_bind]
  exact hp.bind fun a b hab => pure (h a b hab)

theorem discard (hp : Mirrors p p' view) : Mirrors (discard p) (discard p') id :=
  hp.map fun _ _ _ => rfl

theorem ite {c : Prop} [Decidable c] {r r' : Production α} (hp : Mirrors p p' view)
    (hr : Mirrors r r' view) : Mirrors (if c then p else r) (if c then p' else r') view := by
  split
  · exact hp
  · exact hr

theorem ifAhead {kind : TokenKind} {a : α} (hp : Mirrors p p' view) :
    Mirrors (ifAhead kind p a) (Production.ifAhead kind p' a) view :=
  (isAhead kind).bind_eq fun _ => hp.ite (pure rfl)

/-! ## Repetitions -/

theorem separated {separator : TokenKind} (hp : Mirrors p p' view) : ∀ budget budget',
    Mirrors (separated separator p budget) (Production.separated separator p' budget') (List.map view)
  | 0, _ => spent_left
  | budget + 1, budget' => by
    refine of_succ rfl (fun budget' => ?_) budget'
    refine hp.bind fun a b hab => (isAhead separator).bind_eq fun _ => ite ?_ ?_
    · refine take.discard.bind_eq fun _ => (separated hp budget budget').bind fun as bs habs => ?_
      exact pure (by rw [List.map_cons, List.map_cons, hab, habs])
    · exact pure (by rw [List.map_singleton, List.map_singleton, hab])

theorem whileAhead {begins : TokenKind → Bool} (hp : Mirrors p p' view) : ∀ budget budget',
    Mirrors (whileAhead begins p budget) (Production.whileAhead begins p' budget') (List.map view)
  | 0, _ => spent_left
  | budget + 1, budget' => by
    refine of_succ rfl (fun budget' => ?_) budget'
    refine ahead.bind_eq fun token => ite ?_ (pure rfl)
    refine hp.bind fun a b hab => (whileAhead hp budget budget').bind fun as bs habs => ?_
    exact pure (by rw [List.map_cons, List.map_cons, hab, habs])

theorem chain {isOperator : TokenKind → Bool} {combine : α → Token → α → α}
    (hp : Mirrors p p' view)
    (hcombine : ∀ {l l' r r' : α} (op : Token), view l = view l' → view r = view r' →
      view (combine l op r) = view (combine l' op r')) : ∀ budget budget' {l l' : α},
    view l = view l' → Mirrors (chain isOperator combine p budget l)
      (Production.chain isOperator combine p' budget' l') view
  | 0, _, _, _, _ => spent_left
  | budget + 1, budget', l, l', hl => by
    refine @of_succ α γ _ view (fun n => Production.chain isOperator combine p' n l') rfl
      (fun budget' => ?_) budget'
    refine ahead.bind_eq fun token => ite ?_ (pure hl)
    refine take.bind_eq fun op => hp.bind fun r r' hr => ?_
    exact chain hp hcombine budget budget' (hcombine op hl hr)

end Mirrors

end Production

end LusoPascal
