import LusoPascal.Grammar.Statement
import LusoPascal.Proofs.Grammar.Expression
import LusoPascal.Proofs.Grammar.NearestElse

/-!
# Commands are read as derived

A command that begins with an identifier is told from the raw character behind it. So what is read
is a derivation in which that character agrees with the next token at every leader, and in which
every alternative belongs to the nearest conditional.

* `Agreeing`: a rule restricted to such derivations;
* `StatementSound`, **`statement_sound`**, **`compound_sound`**: commands that are read are
  derived so, on any budget;
* `EndsStatement`: the kinds of tokens that can stand behind a command;
* `StatementComplete`, **`statement_complete`**, **`compound_reads`**: commands that are derived
  so are read, on a budget of their length.
-/

namespace LusoPascal

/-- A rule restricted to the derivations at whose leaders the raw character agrees with the next
token, and whose trees are as wanted. -/
def Agreeing {α : Type} (Rule : List Delivery → α → List Delivery → Prop) (Wanted : α → Prop)
    (w : List Delivery) (a : α) : Prop :=
  ∃ leaders, Rule w a leaders ∧ Wanted a ∧ ∀ d ∈ leaders, d.Agrees

namespace Production

open Delivery

/-! ## The parts of a call that may be missing -/

theorem arguments_eq (budget : Nat) :
    arguments budget = (do
      discard (expect .leftParen)
      let names ← ifAhead .identifier
        (separated .comma (Token.text <$> expect .identifier) budget) []
      discard (expect .rightParen)
      return names) := by
  rw [arguments]
  simp only [pure_bind, ifAhead_bind]

theorem call_eq (budget : Nat) :
    call budget = (do
      let line ← line
      let name ← expect .identifier
      let args ← ifAhead .leftParen (arguments budget) []
      return ⟨name.text, args, line⟩) := by
  rw [call]
  simp only [pure_bind, ifAhead_bind]

/-! ## Soundness -/

theorem expect_sound (kind : TokenKind) :
    Sound (expect kind) fun w t => ∃ d : Delivery, d.kind = kind ∧ w = [d] ∧ t = d.token := by
  intro d
  rw [← bind_pure (expect kind)]
  exact Ensures.expect_bind fun hd e _ => Ensures.pure ⟨d, hd, rfl, rfl⟩

theorem name_sound : Sound (Token.text <$> expect .identifier) DerivesName := by
  intro d
  refine Ensures.map ((expect_sound .identifier d).mono ?_)
  rintro w t e ⟨c, hc, rfl, rfl⟩
  exact .intro hc

theorem assignedValue_sound (budget : Nat) : Sound (assignedValue budget) DerivesValue := by
  intro d
  refine Ensures.isAhead_bind (fun hd => ?_) fun _ => ?_
  · exact Ensures.take_bind fun e _ => Ensures.pure (.boolean hd)
  · exact (expression_sound budget d).mono fun w x _ h => .expression h

theorem arguments_sound (budget : Nat) : Sound (arguments budget) DerivesArguments := by
  intro d
  rw [arguments_eq]
  refine Ensures.discard_bind (Ensures.expect_bind fun hd e _ => ?_)
  have hnames : Ensures (ifAhead .identifier
      (separated .comma (Token.text <$> expect .identifier) budget) []) e fun w names _ =>
        (w = [] ∧ names = []) ∨ Separated .comma DerivesName w names :=
    Ensures.ifAhead (fun _ => (separated_sound name_sound budget e).mono fun w a _ h => .inr h)
      fun _ => .inl ⟨rfl, rfl⟩
  refine hnames.bind fun w names f hw => ?_
  refine Ensures.discard_bind (Ensures.expect_bind fun hf g _ => Ensures.pure ?_)
  rcases hw with ⟨rfl, rfl⟩ | hw
  · exact .empty hd hf
  · exact .names hd hw hf

/-- A sound production of commands: what it reads has a derivation whose alternatives belong to the
nearest conditionals. None of them is ahead behind an open command, and unless an assignment sign
is ahead, the raw character agrees at every leader. -/
def StatementSound (p : Production Statement) : Prop :=
  ∀ d, Ensures p d fun w s e => ∃ leaders, DerivesStatement w s leaders ∧ s.NearestElse ∧
    (s.isOpen = true → e.kind ≠ .senao) ∧ (e.kind ≠ .assign → ∀ c ∈ leaders, c.Agrees)

theorem assignment_sound (budget : Nat) {d : Delivery} (hd : d.rawAssign = true) :
    Ensures (assignment budget) d fun w s _ =>
      Agreeing DerivesStatement (fun s => s.NearestElse ∧ s.isOpen = false) w s := by
  rw [assignment, identifier, bind_assoc]
  refine Ensures.line_bind ?_
  rw [bind_assoc]
  refine Ensures.expect_bind fun hdk e hlink => ?_
  rw [pure_bind]
  refine Ensures.expect_bind fun he f _ => ?_
  refine (assignedValue_sound budget f).bind fun w x g hw => Ensures.pure ?_
  have hagrees : d.Agrees := by
    rw [Agrees, nextKind?_eq hlink, he]
    exact iff_of_true rfl hd
  refine ⟨[d], ?_, ⟨trivial, rfl⟩, by simpa using hagrees⟩
  rw [List.append_nil]
  exact .assignment hdk he hw

theorem call_sound (budget : Nat) {d : Delivery} (hd : d.rawAssign = false) :
    Ensures (call budget) d fun w call e =>
      DerivesStatement w (.call call) [d] ∧ (e.kind ≠ .assign → d.Agrees) := by
  rw [call_eq]
  refine Ensures.line_bind (Ensures.expect_bind fun hdk e hlink => ?_)
  have hagrees : e.kind ≠ .assign → d.Agrees := by
    intro he
    rw [Agrees, nextKind?_eq hlink, hd]
    simpa using he
  have hargs : Ensures (ifAhead .leftParen (arguments budget) []) e fun w args f =>
      DerivesArguments w args ∧ (f.kind ≠ .assign → d.Agrees) := by
    refine Ensures.ifAhead (fun he => ?_) fun _ => ⟨.missing, hagrees⟩
    refine (arguments_sound budget e).mono fun w args f hw => ⟨hw, fun _ => hagrees ?_⟩
    rw [he]
    decide
  refine hargs.bind fun w args f ⟨hw, hf⟩ => Ensures.pure ?_
  rw [List.append_nil]
  exact ⟨.call hdk hw, hf⟩

section Nested

variable {item : Production Statement} (hitem : StatementSound item)

include hitem

theorem statements_sound : ∀ budget d, Ensures (separated .semicolon item budget) d fun w ss e =>
    ∃ leaders, DerivesStatements w ss leaders ∧ Statement.AllNearestElse ss ∧
      (e.kind ≠ .assign → ∀ c ∈ leaders, c.Agrees)
  | 0, _ => .spent
  | budget + 1, d => by
    refine (hitem d).bind fun u s e ⟨l, hu, hn, _, hl⟩ => ?_
    refine Ensures.isAhead_bind (fun hs => ?_) fun _ => ?_
    · refine Ensures.discard_bind (Ensures.take_bind fun f _ => ?_)
      refine (statements_sound budget f).bind fun w ss g ⟨m, hw, hns, hm⟩ => Ensures.pure ?_
      rw [List.append_nil]
      refine ⟨l ++ m, .more hu hs hw, ⟨hn, hns⟩, fun hg c hc => ?_⟩
      rcases List.mem_append.mp hc with hc | hc
      · exact hl (by rw [hs]; decide) c hc
      · exact hm hg c hc
    · refine Ensures.pure ?_
      rw [List.append_nil]
      exact ⟨l, .one hu, ⟨hn, trivial⟩, hl⟩

theorem compound_sound (budget : Nat) :
    Sound (compound item budget) (Agreeing DerivesCompound Statement.AllNearestElse) := by
  intro d
  refine Ensures.discard_bind (Ensures.expect_bind fun hd e _ => ?_)
  refine (statements_sound hitem budget e).bind fun w ss f ⟨leaders, hw, hn, hl⟩ => ?_
  refine Ensures.isAhead_bind (fun _ => Ensures.reject_bind) fun _ => ?_
  refine Ensures.discard_bind (Ensures.expect_bind fun hf g _ => Ensures.pure ?_)
  exact ⟨leaders, .intro hd hw hf, hn, hl (by rw [hf]; decide)⟩

theorem conditional_sound (budget : Nat) : StatementSound (conditional item budget) := by
  intro d
  refine Ensures.discard_bind (Ensures.expect_bind fun hd e _ => ?_)
  refine (expression_sound budget e).bind fun v c f hv => ?_
  refine Ensures.discard_bind (Ensures.expect_bind fun hf g _ => ?_)
  refine (hitem g).bind fun w s h ⟨l, hw, hn, hopen, hl⟩ => ?_
  refine Ensures.isAhead_bind (fun hh => ?_) fun hh => ?_
  · refine Ensures.discard_bind (Ensures.take_bind fun i _ => ?_)
    refine (hitem i).bind fun x s' j ⟨m, hx, hn', hopen', hm⟩ => Ensures.pure ?_
    rw [List.append_nil]
    refine ⟨l ++ m, .ifThenElse hd hv hf hw hh hx, ?_, hopen', fun hj c hc => ?_⟩
    · rw [Statement.NearestElse]
      exact ⟨Bool.eq_false_iff.mpr fun hs => hopen hs hh, hn, hn'⟩
    · rcases List.mem_append.mp hc with hc | hc
      · exact hl (by rw [hh]; decide) c hc
      · exact hm hj c hc
  · refine Ensures.pure ?_
    rw [List.append_nil]
    exact ⟨l, .ifThen hd hv hf hw, by rwa [Statement.NearestElse], fun _ => hh, hl⟩

theorem loop_sound (budget : Nat) : StatementSound (loop item budget) := by
  intro d
  refine Ensures.discard_bind (Ensures.expect_bind fun hd e _ => ?_)
  refine (expression_sound budget e).bind fun v c f hv => ?_
  refine Ensures.discard_bind (Ensures.expect_bind fun hf g _ => ?_)
  refine (hitem g).bind fun w s h ⟨l, hw, hn, hopen, hl⟩ => Ensures.pure ?_
  rw [List.append_nil]
  refine ⟨l, .loop hd hv hf hw, by rwa [Statement.NearestElse], fun hs => hopen ?_, hl⟩
  rwa [Statement.isOpen] at hs

end Nested

/-- **A command that is read is derived**, and its alternatives belong to the nearest
conditionals. -/
theorem statement_sound : ∀ budget, StatementSound (statement budget)
  | 0, _ => .spent
  | budget + 1, d => by
    have ih := statement_sound budget
    refine Ensures.ahead_bind ?_
    split
    · refine (compound_sound ih budget d).bind fun w ss e h => Ensures.pure ?_
      obtain ⟨leaders, hw, hn, hl⟩ := h
      rw [List.append_nil]
      refine ⟨leaders, .compound hw, by rwa [Statement.NearestElse], fun h => ?_, fun _ => hl⟩
      simp [Statement.isOpen] at h
    · refine Ensures.assignAhead_bind ?_
      split
      · next hraw =>
        refine (assignment_sound budget hraw).mono fun w s e h => ?_
        obtain ⟨leaders, hw, ⟨hn, hclosed⟩, hl⟩ := h
        exact ⟨leaders, hw, hn, fun h => by simp [hclosed] at h, fun _ => hl⟩
      · next hraw =>
        refine (call_sound budget (Bool.eq_false_iff.mpr hraw)).bind fun w c e h => ?_
        obtain ⟨hw, he⟩ := h
        refine Ensures.pure ?_
        rw [List.append_nil]
        refine ⟨[d], hw, trivial, fun h => by simp [Statement.isOpen] at h, fun hne => ?_⟩
        simpa using he hne
    · exact conditional_sound ih budget d
    · exact loop_sound ih budget d
    · refine Ensures.pure ⟨[], .empty, trivial, fun h => ?_, fun _ => by simp⟩
      simp [Statement.isOpen] at h

/-! ## Completeness -/

/-- The kinds of tokens that can stand behind a command: a semicolon, `fim`, and behind a command
that is not open also `senao`. -/
def EndsStatement (s : Statement) (kind : TokenKind) : Prop :=
  kind = .semicolon ∨ kind = .fim ∨ kind = .senao ∧ s.isOpen = false

/-- A complete production of commands, below a size. -/
def StatementComplete (p : Production Statement) (size : Nat) : Prop :=
  ∀ ⦃d e : Delivery⦄ ⦃w leaders : List Delivery⦄ ⦃s : Statement⦄, DerivesStatement w s leaders →
    s.NearestElse → (∀ c ∈ leaders, c.Agrees) → w.length < size → Span d w e →
    EndsStatement s e.kind → Reads p d w s e

section Ends

variable {kind : TokenKind} {s : Statement}

theorem EndsStatement.ne_assign (h : EndsStatement s kind) : kind ≠ .assign := by
  rcases h with rfl | rfl | ⟨rfl, -⟩ <;> decide

theorem EndsStatement.ne_leftParen (h : EndsStatement s kind) : kind ≠ .leftParen := by
  rcases h with rfl | rfl | ⟨rfl, -⟩ <;> decide

theorem EndsStatement.endsExpression (h : EndsStatement s kind) : EndsExpression kind := by
  rcases h with rfl | rfl | ⟨rfl, -⟩ <;> exact ⟨rfl, rfl, rfl⟩

/-- What ends a command ends any other one at the end of which the same alternatives can stand. -/
theorem EndsStatement.of_isOpen {s' : Statement} (h : EndsStatement s kind)
    (hopen : s'.isOpen = true → s.isOpen = true) : EndsStatement s' kind := by
  rcases h with h | h | ⟨h, hs⟩
  · exact .inl h
  · exact .inr (.inl h)
  · exact .inr (.inr ⟨h, Bool.eq_false_iff.mpr fun hs' => by simp [hopen hs'] at hs⟩)

end Ends

section Reads

variable {d e : Delivery} {w : List Delivery} {budget : Nat}

theorem name_complete (size : Nat) :
    Complete (Token.text <$> expect .identifier) DerivesName (fun _ => True) size := by
  intro d e w a h _ hspan _
  cases h with
  | intro hd =>
    obtain ⟨rfl, -⟩ := Span.cons_iff.mp hspan
    exact (Reads.expect hd hspan).map _

theorem assignedValue_reads {x : Expression} (h : DerivesValue w x) (hb : w.length ≤ budget)
    (hspan : Span d w e) (he : EndsExpression e.kind) : Reads (assignedValue budget) d w x e := by
  cases h with
  | boolean hd =>
    obtain ⟨rfl, -⟩ := Span.cons_iff.mp hspan
    exact .isAhead_pos hd ((Reads.take hspan).bind_nil (.pure _ _))
  | expression hw =>
    refine .isAhead_neg ?_ (expression_complete hw hb hspan he)
    obtain ⟨c, v, rfl, hc⟩ := hw.head
    obtain ⟨rfl, -⟩ := Span.cons_iff.mp hspan
    rintro hd
    simp [hd, Level.firsts] at hc

theorem arguments_reads {args : List String} (h : DerivesArguments w args)
    (hb : w.length ≤ budget) (hspan : Span d w e) (he : e.kind ≠ .leftParen) :
    Reads (ifAhead .leftParen (arguments budget) []) d w args e := by
  cases h with
  | missing =>
    obtain rfl := Span.nil_iff.mp hspan
    exact .ifAhead_missing he
  | @empty o c ho hc =>
    obtain ⟨rfl, b, hlink, hspan⟩ := Span.cons_iff.mp hspan
    obtain ⟨rfl, -⟩ := Span.cons_iff.mp hspan
    have hclose := (Reads.expect hc hspan).discard
    have hnone : c.kind ≠ .identifier := by rw [hc]; decide
    refine .ifAhead ho ?_
    rw [arguments_eq]
    exact (Reads.expect ho (.single hlink)).discard.bind
      ((Reads.ifAhead_missing hnone).bind (hclose.bind_nil (.pure _ _)))
  | @names o c w args ho hw hc =>
    simp only [List.length_cons, List.length_append, List.length_nil] at hb
    obtain ⟨rfl, b, hlink, hspan⟩ := Span.cons_iff.mp hspan
    obtain ⟨f, hspanw, hspanc⟩ := Span.append_iff.mp hspan
    obtain ⟨rfl, -⟩ := Span.cons_iff.mp hspanc
    obtain ⟨v, u, rfl, hv⟩ := hw.head fun h => by cases h with | intro hd => exact ⟨_, _, rfl, hd⟩
    obtain ⟨rfl, -⟩ := Span.cons_iff.mp hspanw
    have hnames : Reads (separated .comma _ budget) v (v :: u) args c :=
      separated_complete (name_complete budget) trivial hw (by omega) (by omega) hspanw trivial
        (by rw [hc]; decide)
    have hclose := (Reads.expect hc hspanc).discard
    refine .ifAhead ho ?_
    rw [arguments_eq]
    exact (Reads.expect ho (.single hlink)).discard.bind
      ((Reads.ifAhead hv hnames).bind (hclose.bind_nil (.pure _ _)))

theorem assignment_reads {x : Expression} {a c : Delivery}
    (hd : d.kind = .identifier) (ha : a.kind = .assign) (hw : DerivesValue w x)
    (hb : w.length ≤ budget) (hlink : a.before = d.behind) (hspan : Span c w e)
    (hlink' : c.before = a.behind) (he : EndsExpression e.kind) :
    Reads (assignment budget) d (d :: a :: w) (.assign d.identifier a.token x) e :=
  (identifier_reads hd (.single hlink)).bind ((Reads.expect ha (.single hlink')).bind
    ((assignedValue_reads hw hb hspan he).bind_nil (.pure _ _)))

theorem call_reads {args : List String} {c : Delivery} (hd : d.kind = .identifier)
    (hw : DerivesArguments w args) (hb : w.length ≤ budget) (hlink : c.before = d.behind)
    (hspan : Span c w e) (he : e.kind ≠ .leftParen) :
    Reads (call budget) d (d :: w) ⟨d.token.text, args, d.line⟩ e := by
  rw [call_eq]
  exact .line ((Reads.expect hd (.single hlink)).bind
    ((arguments_reads hw hb hspan he).bind_nil (.pure _ _)))

end Reads

section Nested

variable {item : Production Statement} {size : Nat} (hitem : StatementComplete item size)

include hitem

theorem statements_complete {w leaders : List Delivery} {ss : List Statement}
    (h : DerivesStatements w ss leaders) (hn : Statement.AllNearestElse ss)
    (hl : ∀ c ∈ leaders, c.Agrees) (hsize : w.length < size) {budget : Nat}
    (hb : w.length < budget) {d e : Delivery} (hspan : Span d w e) (he : e.kind = .fim) :
    Reads (separated .semicolon item budget) d w ss e := by
  obtain ⟨budget, rfl⟩ := Nat.exists_eq_add_one_of_ne_zero (Nat.ne_zero_of_lt hb)
  match h with
  | .one hw =>
    exact (hitem hw hn.1 hl hsize hspan (.inr (.inl he))).bind_nil
      (.isAhead_neg (by rw [he]; decide) (.pure _ _))
  | .more (p := p) hv hp hw =>
    simp only [List.length_append, List.length_cons] at hsize hb
    rw [List.forall_mem_append] at hl
    obtain ⟨m, hspanv, hspanw⟩ := Span.append_iff.mp hspan
    obtain ⟨rfl, c, hlink, hspanw⟩ := Span.cons_iff.mp hspanw
    have hfirst := hitem hv hn.1 hl.1 (by omega) hspanv (.inl hp)
    have hrest : Reads (separated .semicolon item budget) c _ _ e :=
      statements_complete hw hn.2 hl.2 (by omega) (by omega) hspanw he
    have htake := (Reads.take (.single hlink)).discard
    exact hfirst.bind (.isAhead_pos hp (htake.bind (hrest.bind_nil (.pure _ _))))

theorem compound_reads {w leaders : List Delivery} {ss : List Statement}
    (h : DerivesCompound w ss leaders) (hn : Statement.AllNearestElse ss)
    (hl : ∀ c ∈ leaders, c.Agrees) (hb : w.length ≤ size) {d e : Delivery}
    (hspan : Span d w e) : Reads (compound item size) d w ss e := by
  cases h with
  | @intro b f w _ _ hbegin hw hf =>
    simp only [List.length_cons, List.length_append, List.length_nil] at hb
    obtain ⟨rfl, c, hlink, hspan⟩ := Span.cons_iff.mp hspan
    obtain ⟨m, hspanw, hspanf⟩ := Span.append_iff.mp hspan
    obtain ⟨rfl, -⟩ := Span.cons_iff.mp hspanf
    have hlist : Reads (separated .semicolon item size) c w ss f :=
      statements_complete hitem hw hn hl (by omega) (by omega) hspanw hf
    have hclose := (Reads.expect hf hspanf).discard
    exact (Reads.expect hbegin (.single hlink)).discard.bind
      (hlist.bind (.isAhead_neg (by rw [hf]; decide) (hclose.bind_nil (.pure _ _))))

section Branches

variable {i t d e f : Delivery} {v w : List Delivery} {c : Expression} {s : Statement}
  {budget : Nat}

theorem conditional_reads_ifThen {leaders : List Delivery} (hi : i.kind = .se)
    (hv : DerivesExpression .relation v c) (ht : t.kind = .entao)
    (hw : DerivesStatement w s leaders) (hn : s.NearestElse) (hl : ∀ c ∈ leaders, c.Agrees)
    (hb : v.length ≤ budget) (hsize : w.length < size)
    (hspan : Span i (i :: (v ++ t :: w)) e) (he : EndsStatement (.ifThen c s) e.kind) :
    Reads (conditional item budget) i (i :: (v ++ t :: w)) (.ifThen c s) e := by
  obtain ⟨-, b, hlink, hspan⟩ := Span.cons_iff.mp hspan
  obtain ⟨t, hspanv, hspan⟩ := Span.append_iff.mp hspan
  obtain ⟨rfl, b', hlink', hspanw⟩ := Span.cons_iff.mp hspan
  have hcondition := expression_complete hv hb hspanv (by rw [ht]; exact ⟨rfl, rfl, rfl⟩)
  have hthen := hitem hw hn hl hsize hspanw (he.of_isOpen fun _ => rfl)
  -- an alternative here would have gone to this conditional
  have helse : e.kind ≠ .senao := by
    rcases he with he | he | ⟨-, hopen⟩
    · rw [he]; decide
    · rw [he]; decide
    · simp [Statement.isOpen] at hopen
  exact (Reads.expect hi (.single hlink)).discard.bind (hcondition.bind
    ((Reads.expect ht (.single hlink')).discard.bind
      (hthen.bind_nil (.isAhead_neg helse (.pure _ _)))))

theorem conditional_reads_ifThenElse {x l m : List Delivery} {s' : Statement}
    (hi : i.kind = .se) (hv : DerivesExpression .relation v c) (ht : t.kind = .entao)
    (hw : DerivesStatement w s l) (hf : f.kind = .senao) (hx : DerivesStatement x s' m)
    (hclosed : s.isOpen = false) (hn : s.NearestElse) (hn' : s'.NearestElse)
    (hl : ∀ c ∈ l, c.Agrees) (hm : ∀ c ∈ m, c.Agrees) (hb : v.length ≤ budget)
    (hsize : w.length < size) (hsize' : x.length < size)
    (hspan : Span i (i :: (v ++ t :: (w ++ f :: x))) e)
    (he : EndsStatement (.ifThenElse c s s') e.kind) :
    Reads (conditional item budget) i (i :: (v ++ t :: (w ++ f :: x))) (.ifThenElse c s s') e := by
  obtain ⟨-, b, hlink, hspan⟩ := Span.cons_iff.mp hspan
  obtain ⟨t, hspanv, hspan⟩ := Span.append_iff.mp hspan
  obtain ⟨rfl, b', hlink', hspan⟩ := Span.cons_iff.mp hspan
  obtain ⟨f, hspanw, hspan⟩ := Span.append_iff.mp hspan
  obtain ⟨rfl, b'', hlink'', hspanx⟩ := Span.cons_iff.mp hspan
  have hcondition := expression_complete hv hb hspanv (by rw [ht]; exact ⟨rfl, rfl, rfl⟩)
  have hthen := hitem hw hn hl hsize hspanw (.inr (.inr ⟨hf, hclosed⟩))
  have helse := hitem hx hn' hm hsize' hspanx (he.of_isOpen fun h => by rwa [Statement.isOpen])
  have htake := (Reads.take (.single hlink'')).discard
  exact (Reads.expect hi (.single hlink)).discard.bind (hcondition.bind
    ((Reads.expect ht (.single hlink')).discard.bind
      (hthen.bind (.isAhead_pos hf (htake.bind (helse.bind_nil (.pure _ _)))))))

theorem loop_reads {leaders : List Delivery} (hi : i.kind = .enquanto)
    (hv : DerivesExpression .relation v c) (ht : t.kind = .faca)
    (hw : DerivesStatement w s leaders) (hn : s.NearestElse) (hl : ∀ c ∈ leaders, c.Agrees)
    (hb : v.length ≤ budget) (hsize : w.length < size)
    (hspan : Span i (i :: (v ++ t :: w)) e) (he : EndsStatement (.loop c s) e.kind) :
    Reads (loop item budget) i (i :: (v ++ t :: w)) (.loop c s) e := by
  obtain ⟨-, b, hlink, hspan⟩ := Span.cons_iff.mp hspan
  obtain ⟨t, hspanv, hspan⟩ := Span.append_iff.mp hspan
  obtain ⟨rfl, b', hlink', hspanw⟩ := Span.cons_iff.mp hspan
  have hcondition := expression_complete hv hb hspanv (by rw [ht]; exact ⟨rfl, rfl, rfl⟩)
  have hbody := hitem hw hn hl hsize hspanw (he.of_isOpen fun h => by rwa [Statement.isOpen])
  exact (Reads.expect hi (.single hlink)).discard.bind (hcondition.bind
    ((Reads.expect ht (.single hlink')).discard.bind (hbody.bind_nil (.pure _ _))))

end Branches

end Nested

theorem statement_reads_empty {s : Statement} {d : Delivery} {budget : Nat}
    (he : EndsStatement s d.kind) : Reads (statement (budget + 1)) d [] .empty d := by
  refine Reads.ahead ?_
  rcases he with he | he | ⟨he, -⟩ <;> rw [token_of_kind he rfl] <;> exact .pure _ _

theorem statement_reads_compound {w : List Delivery} {ss : List Statement} {d e : Delivery}
    {budget : Nat} (hd : d.kind = .inicio)
    (h : Reads (compound (statement budget) budget) d w ss e) :
    Reads (statement (budget + 1)) d w (.compound ss) e := by
  refine Reads.ahead ?_
  rw [token_of_kind hd rfl]
  exact h.bind_nil (.pure _ _)

theorem statement_reads_conditional {w : List Delivery} {s : Statement} {d e : Delivery}
    {budget : Nat} (hd : d.kind = .se)
    (h : Reads (conditional (statement budget) budget) d w s e) :
    Reads (statement (budget + 1)) d w s e := by
  refine Reads.ahead ?_
  rwa [token_of_kind hd rfl]

theorem statement_reads_loop {w : List Delivery} {s : Statement} {d e : Delivery}
    {budget : Nat} (hd : d.kind = .enquanto) (h : Reads (loop (statement budget) budget) d w s e) :
    Reads (statement (budget + 1)) d w s e := by
  refine Reads.ahead ?_
  rwa [token_of_kind hd rfl]

theorem statement_reads_assignment {w : List Delivery} {s : Statement} {d e : Delivery}
    {budget : Nat} (hd : d.kind = .identifier) (hraw : d.rawAssign = true)
    (h : Reads (assignment budget) d w s e) : Reads (statement (budget + 1)) d w s e := by
  obtain ⟨name, -, htoken⟩ := d.genuine.name_of_kind hd
  refine Reads.ahead ?_
  rw [htoken]
  refine Reads.assignAhead ?_
  rwa [if_pos hraw]

theorem statement_reads_call {w : List Delivery} {call : Call} {d e : Delivery}
    {budget : Nat} (hd : d.kind = .identifier) (hraw : d.rawAssign = false)
    (h : Reads (Production.call budget) d w call e) :
    Reads (statement (budget + 1)) d w (.call call) e := by
  obtain ⟨name, -, htoken⟩ := d.genuine.name_of_kind hd
  refine Reads.ahead ?_
  rw [htoken]
  refine Reads.assignAhead ?_
  rw [if_neg (Bool.eq_false_iff.mp hraw)]
  exact h.bind_nil (.pure _ _)

/-- **A derived command is read** if its alternatives belong to the nearest conditionals, the raw
character agrees at its leaders, and something that ends it follows. -/
theorem statement_complete : ∀ budget, StatementComplete (statement budget) budget
  | 0, _, _, _, _, _, _, _, _, hsize, _, _ => absurd hsize (Nat.not_lt_zero _)
  | budget + 1, d, e, w, leaders, s, h, hn, hl, hsize, hspan, he => by
    have ih := statement_complete budget
    cases h with
    | empty =>
      obtain rfl := Span.nil_iff.mp hspan
      exact statement_reads_empty he
    | @assignment d a w x hd ha hw =>
      obtain ⟨rfl, b, hlink, hspan⟩ := Span.cons_iff.mp hspan
      obtain ⟨rfl, c, hlink', hspan⟩ := Span.cons_iff.mp hspan
      have hagrees := hl d (List.mem_singleton_self d)
      rw [Agrees, nextKind?_eq hlink, ha] at hagrees
      simp only [List.length_cons] at hsize
      exact statement_reads_assignment hd (hagrees.mp rfl)
        (assignment_reads hd ha hw (by omega) hlink hspan hlink' he.endsExpression)
    | @call d w args hd hw =>
      obtain ⟨rfl, c, hlink, hspan⟩ := Span.cons_iff.mp hspan
      have hagrees := hl d (List.mem_singleton_self d)
      rw [Agrees, nextKind?_eq hlink] at hagrees
      simp only [List.length_cons] at hsize
      have hc : c.kind ≠ .assign := by
        cases hw with
        | missing => exact Span.nil_iff.mp hspan ▸ he.ne_assign
        | empty ho | names ho =>
          obtain ⟨rfl, -⟩ := Span.cons_iff.mp hspan
          rw [ho]
          decide
      have hraw : d.rawAssign = false := by
        rw [← Bool.not_eq_true, ← hagrees]
        simpa using hc
      exact statement_reads_call hd hraw
        (call_reads hd hw (by omega) hlink hspan he.ne_leftParen)
    | compound hw =>
      have hc := compound_reads ih hw (by rwa [Statement.NearestElse] at hn) hl (by omega) hspan
      cases hw with
      | intro hb _ _ =>
        obtain ⟨rfl, -⟩ := Span.cons_iff.mp hspan
        exact statement_reads_compound hb hc
    | ifThen hi hv ht hw =>
      simp only [List.length_cons, List.length_append] at hsize
      obtain ⟨rfl, -⟩ := Span.cons_iff.mp hspan
      rw [Statement.NearestElse] at hn
      exact statement_reads_conditional hi
        (conditional_reads_ifThen ih hi hv ht hw hn hl (by omega) (by omega) hspan he)
    | ifThenElse hi hv ht hw hf hx =>
      simp only [List.length_cons, List.length_append] at hsize
      obtain ⟨rfl, -⟩ := Span.cons_iff.mp hspan
      rw [Statement.NearestElse] at hn
      obtain ⟨hclosed, hn, hn'⟩ := hn
      rw [List.forall_mem_append] at hl
      exact statement_reads_conditional hi (conditional_reads_ifThenElse ih hi hv ht hw hf hx
        hclosed hn hn' hl.1 hl.2 (by omega) (by omega) (by omega) hspan he)
    | loop hi hv hf hw =>
      simp only [List.length_cons, List.length_append] at hsize
      obtain ⟨rfl, -⟩ := Span.cons_iff.mp hspan
      rw [Statement.NearestElse] at hn
      exact statement_reads_loop hi
        (loop_reads ih hi hv hf hw hn hl (by omega) (by omega) hspan he)

end Production

end LusoPascal
