import LusoPascal.Proofs.Grammar.Lookahead

/-!
# Reading comes to an end

The rules call one another, and their repetitions go round, but never without a token that is
consumed in between, and the end of the text is never consumed. So a call for a program fetches no
more often than the text has tokens, and a budget above their number is never spent.

* `separatedRound`, `whileAheadRound`, `chainRound`: a round of a repetition over the rounds that
  follow;
* `Repeats`, **`Repeats.exists_span`**: a repetition of the grammar goes round;
* `Reader.kind_of_mem_consumed`: the end of the text is never consumed;
* **`Reader.fetches_of_parse`**: how often a call fetches;
* **`Reader.reading_ends`**: all of this for all texts.
-/

namespace LusoPascal

namespace Production

open Delivery

/-! ## Rounds -/

section Round

variable {α : Type}

/-- A round of separated items over the rounds that follow. -/
def separatedRound (separator : TokenKind) (item : Production α) (later : Production (List α)) :
    Production (List α) := do
  let first ← item
  if ← isAhead separator then
    discard take
    return first :: (← later)
  else return [first]

/-- A round of items that begin in some way over the rounds that follow. -/
def whileAheadRound (begins : TokenKind → Bool) (item : Production α)
    (later : Production (List α)) : Production (List α) := do
  if begins (← ahead).kind then
    let first ← item
    return first :: (← later)
  else return []

/-- A round of operands over the rounds that follow. -/
def chainRound (isOperator : TokenKind → Bool) (combine : α → Token → α → α)
    (operand : Production α) (later : α → Production α) (left : α) : Production α := do
  if isOperator (← ahead).kind then
    let operator ← take
    let right ← operand
    later (combine left operator right)
  else return left

variable {m : Nat} {item : Production α}

theorem separated_eq_separatedRound (separator : TokenKind) (item : Production α) (budget : Nat) :
    separated separator item (budget + 1) =
      separatedRound separator item (separated separator item budget) := rfl

theorem whileAhead_eq_whileAheadRound (begins : TokenKind → Bool) (item : Production α)
    (budget : Nat) :
    whileAhead begins item (budget + 1) =
      whileAheadRound begins item (whileAhead begins item budget) := rfl

theorem chain_eq_chainRound (isOperator : TokenKind → Bool) (combine : α → Token → α → α)
    (operand : Production α) (budget : Nat) (left : α) :
    chain isOperator combine operand (budget + 1) left =
      chainRound isOperator combine operand (chain isOperator combine operand budget) left := rfl

/-- Between two items a separator is consumed. -/
theorem separatedRound_entersAfter (hends : Consumes m item) (separator : TokenKind) (budget : Nat)
    (p : Nat → Production (List α)) :
    EntersAfter 1 (fun later => separatedRound separator item (later budget)) p := by
  unfold separatedRound
  refine .const_bind hends fun first => .const_bind (.isAhead separator) fun _ => .ite ?_ .const
  exact .succ_bind Consumes.take.discard fun _ => .bind_const (.member budget)

theorem whileAheadRound_entersAfter (hends : Consumes 1 item) (begins : TokenKind → Bool)
    (budget : Nat) (p : Nat → Production (List α)) :
    EntersAfter 1 (fun later => whileAheadRound begins item (later budget)) p := by
  unfold whileAheadRound
  refine .const_bind .ahead fun token => .ite ?_ .const
  exact .succ_bind hends fun first => .bind_const (.member budget)

theorem chainRound_entersAfter (hends : Consumes m item) (isOperator : TokenKind → Bool)
    (combine : α → Token → α → α) (left : α) (p : α → Production α) :
    EntersAfter 1 (fun later => chainRound isOperator combine item later left) p := by
  unfold chainRound
  refine .const_bind .ahead fun token => .ite ?_ .const
  refine .succ_bind .take fun operator => .const_bind hends fun right => ?_
  exact .member (combine left operator right)

end Round

theorem variableGroup_consumes (budget : Nat) : Consumes 1 (variableGroup budget) :=
  (variableGroup_sound budget).consumes fun hw => by
    obtain ⟨c, v, rfl, -⟩ := hw.head
    exact Nat.le_add_left 1 v.length

theorem procedure_consumes (budget : Nat) : Consumes 1 (procedure (block budget) budget) :=
  (procedure_sound (block_sound budget) budget).consumes fun ⟨_, hw, _⟩ => by
    obtain ⟨c, v, rfl, -⟩ := hw.head
    exact Nat.le_add_left 1 v.length

end Production

/-! ## The repetitions of the grammar -/

open Production

/-- A repetition of the grammar, on whatever budgets, goes from one round into the next. -/
inductive Repeats (reader here : Reader) : Prop
  | arguments {budget : Nat} (h : Enters
      (fun later => separatedRound .comma (Token.text <$> expect .identifier) (later budget))
      (separated .comma (Token.text <$> expect .identifier)) reader here)
  | commands {inner budget : Nat} (h : Enters
      (fun later => separatedRound .semicolon (statement inner) (later budget))
      (separated .semicolon (statement inner)) reader here)
  | declarators {inner budget : Nat} (h : Enters
      (fun later => separatedRound .comma (declarator inner) (later budget))
      (separated .comma (declarator inner)) reader here)
  | parameterNames {budget : Nat} (h : Enters
      (fun later => separatedRound .comma identifier (later budget))
      (separated .comma identifier) reader here)
  | parameterGroups {inner budget : Nat} (h : Enters
      (fun later => separatedRound .semicolon (parameterGroup inner) (later budget))
      (separated .semicolon (parameterGroup inner)) reader here)
  | variableGroups {inner budget : Nat} (h : Enters
      (fun later => whileAheadRound TokenKind.beginsVariables (variableGroup inner) (later budget))
      (whileAhead TokenKind.beginsVariables (variableGroup inner)) reader here)
  | procedures {inner budget : Nat} (h : Enters
      (fun later => whileAheadRound (· == .procedimento) (procedure (block inner) inner)
        (later budget))
      (whileAhead (· == .procedimento) (procedure (block inner) inner)) reader here)
  | factors {inner budget : Nat} {left : Expression} (h : Enters
      (fun later => chainRound TokenKind.isMultiplicative .binary (factor inner) later left)
      (chain TokenKind.isMultiplicative .binary (factor inner) budget) reader here)
  | terms {inner budget : Nat} {left : Expression} (h : Enters
      (fun later => chainRound TokenKind.isAdditive .binary (term (factor inner) inner) later left)
      (chain TokenKind.isAdditive .binary (term (factor inner) inner) budget) reader here)

open Delivery in
/-- **No repetition goes round without a token that is consumed.** -/
theorem Repeats.exists_span {d : Delivery} {log : Array Located} {here : Reader}
    (h : Repeats (d.reader log) here) :
    ∃ w e, here = e.reader (logged log w) ∧ Span d w e ∧ w ≠ [] := by
  cases h with
  | arguments h => exact (separatedRound_entersAfter name_sound.consumes_zero _ _ _).exists_span h
  | commands h => exact (separatedRound_entersAfter (statement_consumes _) _ _ _).exists_span h
  | declarators h =>
    exact (separatedRound_entersAfter (declarator_sound _).consumes_zero _ _ _).exists_span h
  | parameterNames h =>
    exact (separatedRound_entersAfter identifier_sound.consumes_zero _ _ _).exists_span h
  | parameterGroups h =>
    exact (separatedRound_entersAfter (parameterGroup_sound _).consumes_zero _ _ _).exists_span h
  | variableGroups h =>
    exact (whileAheadRound_entersAfter (variableGroup_consumes _) _ _ _).exists_span h
  | procedures h => exact (whileAheadRound_entersAfter (procedure_consumes _) _ _ _).exists_span h
  | factors h => exact (chainRound_entersAfter (factor_consumes _) _ _ _ _).exists_span h
  | @terms inner _ _ h =>
    have hends := (term_sound (factor_sound inner) inner).consumes_zero
    exact (chainRound_entersAfter hends _ _ _ _).exists_span h

/-! ## Calls for a program -/

theorem Delivery.Span.length_lt_remaining {d last : Delivery} {w : List Delivery}
    (h : d.Span w last) (hw : ∀ c ∈ w ++ [last], c.kind ≠ .endOfInput) :
    w.length < d.remaining := by
  obtain ⟨hw, hlast⟩ := List.forall_mem_append.mp hw
  rw [← h.remaining hw, Delivery.remaining,
    trail_of_ne_end (hlast last (List.mem_singleton_self last)), List.length_cons]
  omega

namespace Reader

open Delivery

variable {d : Delivery}

/-- A call reads from a token of the text on, or its program holds nothing. -/
theorem stands_or_calls_nothing (d : Delivery) (calls : Nat) :
    (∃ (e : Delivery) (log : Array Located), (d.reader #[]).after calls = e.reader log) ∨
      ∀ call, ¬ Calls (.program, (d.reader #[]).after calls) call := by
  rcases stands_or_rests d calls with ⟨-, w, e, hafter, -⟩ | ⟨-, hfinished⟩
  · exact .inl ⟨e, _, hafter⟩
  · exact .inr (Calls.not_of_finished hfinished)

/-- **The end of the text is never consumed.** -/
theorem kind_of_mem_consumed {calls : Nat} :
    ∀ located ∈ ((d.reader #[]).after calls).consumed.toList,
      located.token.kind ≠ .endOfInput := by
  have hlogged {w : List Delivery} (hw : ∀ c ∈ w, c.kind ≠ .endOfInput) :
      ∀ located ∈ (logged #[] w).toList, located.token.kind ≠ .endOfInput := by
    rw [toList_logged, List.nil_append]
    exact List.forall_mem_map.mpr hw
  rcases faultFree_or_exists (d.reader #[]) calls with
    hfree | ⟨failing, hlt, error, hfree, herror⟩
  · obtain ⟨w, e, hafter, -, hw⟩ := hfree.stands
    rw [hafter]
    exact hlogged hw
  · obtain ⟨w, last, -, hw, hfault, hafter⟩ := hfree.stops herror
    obtain ⟨more, rfl⟩ := Nat.exists_eq_add_of_le hlt
    have hfinished : last.behind.next.2.finished = true :=
      Cursor.finished_next fun _ hok => by rw [hfault] at hok; cases hok
    rw [after_add, hafter, consumed_after_of_finished hfinished]
    refine List.forall_mem_append.mpr ⟨hlogged hw, ?_⟩
    split
    · have hlast := hw last (List.mem_append_right w (List.mem_singleton_self last))
      exact List.forall_mem_singleton.mpr hlast
    · exact List.forall_mem_nil _

/-- A reader behind some fetches, each of which has consumed a token. -/
structure Fetches (fetches : Nat) (reader behind : Reader) : Prop where
  cursor : behind.cursor = reader.cursor.after fetches
  consumed : behind.consumed.size = reader.consumed.size + fetches

theorem exists_fetches (d : Delivery) (log : Array Located) :
    ∃ fetches ≤ d.remaining, Fetches fetches (d.reader log) (d.reader log).parse.2 := by
  rcases d.parse_stands_or_stops log with
    ⟨w, e, hrun, hspan, hw, -⟩ | ⟨w, last, error, hrun, hspan, hw, -⟩ <;> rw [hrun]
  · have hremaining := hspan.remaining hw
    exact ⟨w.length, by omega, hspan.behind_eq_after, size_logged log w⟩
  · refine ⟨w.length + 1, hspan.length_lt_remaining hw, ?_, ?_⟩
    · change last.behind.next.2 = d.behind.after (w.length + 1)
      rw [hspan.behind_eq_after, Cursor.after]
    · rw [size_logged, List.length_append]
      rfl

theorem exists_fetches_of_finished {reader : Reader} (hfinished : reader.cursor.finished = true) :
    ∃ fetches ≤ 1, Fetches fetches reader reader.parse.2 := by
  by_cases h : reader.ahead.token.kind = .program
  · rw [parse_of_finished hfinished h]
    exact ⟨1, le_rfl, (Cursor.after_of_finished hfinished 1).symm, Array.size_push _⟩
  · rw [parse_of_ne_program h]
    exact ⟨0, Nat.zero_le 1, rfl, rfl⟩

/-- **A call fetches no more often than the text has tokens**, and a budget above their number is
not spent. -/
theorem fetches_of_parse (d : Delivery) (calls : Nat) :
    let here := (d.reader #[]).after calls
    (∃ fetches ≤ d.remaining, Fetches fetches here here.parse.2) ∧
      (∀ budget behind, d.remaining < budget →
        Production.program budget here ≠ .error .spent behind) ∧
      ∀ behind, Production.program here.budget here ≠ .error .spent behind := by
  intro here
  rcases stands_or_rests d calls with ⟨-, w, e, hafter, hspan, hw⟩ | ⟨hfaulty, hfinished⟩
  · have hremaining := hspan.remaining hw
    have hhere : here = e.reader (logged #[] w) := hafter
    have hspent {budget : Nat} (hbudget : e.remaining < budget) (behind : Reader) :
        Production.program budget here ≠ .error .spent behind := by
      intro hrun
      rw [hhere] at hrun
      cases program_fails hbudget hrun
    rw [hhere] at hspent ⊢
    obtain ⟨fetches, hle, hfetches⟩ := exists_fetches e (logged #[] w)
    exact ⟨⟨fetches, by omega, hfetches⟩, fun budget behind hbudget => hspent (by omega) behind,
      hspent (e.remaining_lt_budget _)⟩
  · obtain ⟨fetches, hle, hfetches⟩ := exists_fetches_of_finished hfinished
    obtain ⟨failing, -, error, hfree, herror⟩ :=
      (faultFree_or_exists (d.reader #[]) calls).resolve_left hfaulty
    obtain ⟨w, last, hspan, hw, -, -⟩ := hfree.stops herror
    have hleft : 1 ≤ d.remaining := Nat.one_le_of_lt (hspan.length_lt_remaining hw)
    exact ⟨⟨fetches, hle.trans hleft, hfetches⟩,
      fun budget behind _ => program_ne_spent_of_finished hfinished budget behind,
      program_ne_spent_of_finished hfinished _⟩

/-- **Reading comes to an end**: no rule and no repetition comes round without a token consumed, so
a call fetches no more often than the text has tokens. -/
theorem reading_ends (source : String) :
    (∀ (d : Delivery) log rule here,
      Relation.TransGen Calls (rule, d.reader log) (rule, here) →
        ∃ w e, here = e.reader (logged log w) ∧ d.Span w e ∧ w ≠ []) ∧
    (∀ (d : Delivery) log here, Repeats (d.reader log) here →
      ∃ w e, here = e.reader (logged log w) ∧ d.Span w e ∧ w ≠ []) ∧
    (∀ (cursor : Cursor) located, cursor.next.1 = .ok located →
      located.token.kind ≠ .endOfInput → cursor.next.2.rest.length < cursor.rest.length) ∧
    ∀ reader, Reader.ofSource source = .ok reader → ∀ calls,
      let tokens := (Cursor.ofSource source).delivered.1.length
      let here := reader.after calls
      ((∃ (d : Delivery) (log : Array Located), here = d.reader log) ∨
        ∀ call, ¬ Calls (.program, here) call) ∧
      (∀ located ∈ here.consumed.toList, located.token.kind ≠ .endOfInput) ∧
      (∃ fetches ≤ tokens, here.parse.2.cursor = here.cursor.after fetches ∧
        here.parse.2.consumed.size = here.consumed.size + fetches) ∧
      (∀ budget behind, tokens + 1 ≤ budget →
        Production.program budget here ≠ .error .spent behind) ∧
      ∀ behind, Production.program here.budget here ≠ .error .spent behind := by
  refine ⟨fun d log rule here => Calls.span_ne_nil_of_recursion, fun d log here =>
    Repeats.exists_span, fun cursor located => Cursor.length_rest_next_lt,
    fun reader hreader calls => ?_⟩
  obtain ⟨d, hd, rfl⟩ := Reader.ofSource_eq_ok_iff.mp hreader
  intro tokens here
  have htokens : tokens = d.remaining := by
    rw [Delivery.remaining, hd, ← List.length_map Delivery.located, ← Cursor.delivered_fst]
  obtain ⟨⟨fetches, hle, hcursor, hconsumed⟩, hbudget, hown⟩ := fetches_of_parse d calls
  refine ⟨stands_or_calls_nothing d calls, kind_of_mem_consumed,
    ⟨fetches, hle.trans_eq htokens.symm, hcursor, hconsumed⟩, fun budget behind h => ?_, hown⟩
  exact hbudget budget behind (htokens ▸ h)

end Reader

end LusoPascal
