import LusoPascal.Proofs.Grammar.Stream

/-!
# A reader asked for one program after another

A reader can be asked for a program again, whatever came of the last time. Until a call meets a
fault of the text, it goes on where the last one stopped. Behind a fault nothing is left to fetch,
but the last token stays ahead; a call consumes it once more if it could begin a program.

* `Reader.after`, `Reader.FaultFree`: the reader after some calls, and that none met a fault;
* `Delivery.parse_stands_or_stops`: where one call leaves a reader;
* **`Reader.FaultFree.stands`**: where all calls leave it until one meets a fault;
* `Reader.consumed_after_of_finished`: what is consumed behind a fault;
* **`Reader.stands_or_rests`**: where all calls leave it, whatever they met;
* **`Reader.consumed_along_calls`**: the record of a reader against the tokens of its text.
-/

namespace LusoPascal

namespace Reader

/-- The reader after some calls, whatever came of them. -/
def after (reader : Reader) : Nat → Reader
  | 0 => reader
  | calls + 1 => (reader.after calls).parse.2

/-- No call before a given one met a fault of the text. -/
def FaultFree (reader : Reader) (calls : Nat) : Prop :=
  ∀ call < calls, ∀ error, (reader.after call).parse.1 ≠ .error (.lexical error)

variable {reader : Reader}

theorem after_add (reader : Reader) (m n : Nat) :
    reader.after (m + n) = (reader.after m).after n := by
  induction n with
  | zero => rfl
  | succ n ih => rw [← Nat.add_assoc, after, ih, after]

theorem FaultFree.of_succ {calls : Nat} (h : reader.FaultFree (calls + 1)) :
    reader.FaultFree calls :=
  fun call hcall => h call (hcall.trans calls.lt_succ_self)

/-- The calls go on without a fault, or one of them is the first to meet one. -/
theorem faultFree_or_exists (reader : Reader) (calls : Nat) :
    reader.FaultFree calls ∨ ∃ failing < calls, ∃ error, reader.FaultFree failing ∧
      (reader.after failing).parse.1 = .error (.lexical error) := by
  induction calls with
  | zero => exact .inl fun call hcall => absurd hcall call.not_lt_zero
  | succ calls ih =>
    rcases ih with hfree | ⟨failing, hlt, error, hfailing⟩
    · by_cases hlast : ∃ error, (reader.after calls).parse.1 = .error (.lexical error)
      · obtain ⟨error, herror⟩ := hlast
        exact .inr ⟨calls, calls.lt_succ_self, error, hfree, herror⟩
      · refine .inl fun call hcall error herror => ?_
        rcases Nat.lt_succ_iff_lt_or_eq.mp hcall with hcall | rfl
        · exact hfree call hcall error herror
        · exact hlast ⟨error, herror⟩
    · exact .inr ⟨failing, hlt.trans calls.lt_succ_self, error, hfailing⟩

end Reader

/-! ## Before a fault -/

namespace Delivery

variable {d e : Delivery} {w : List Delivery}

/-- **Where one call leaves a reader.** It stands in front of a token, or it stops behind the last
one before a fault, with that token still ahead. -/
theorem parse_stands_or_stops (d : Delivery) (log : Array Located) :
    (∃ w e, (d.reader log).parse.2 = e.reader (logged log w) ∧ Span d w e ∧
      (∀ c ∈ w, c.kind ≠ .endOfInput) ∧
      ∀ error, (d.reader log).parse.1 ≠ .error (.lexical error)) ∨
    ∃ w last error, (d.reader log).parse = (.error (.lexical error),
        ⟨last.located, last.behind.next.2, logged log (w ++ [last])⟩) ∧ Span d w last ∧
      (∀ c ∈ w ++ [last], c.kind ≠ .endOfInput) ∧ last.behind.next.1 = .error error := by
  rcases d.parse_ok_or_failed log with
    ⟨program, w, e, hrun, hspan, leaders, hw, -⟩ | ⟨error, behind, hrun, -, hfailed⟩
  · exact .inl ⟨w, e, by rw [hrun], hspan, hw.ne_endOfInput, fun error => by rw [hrun]; nofun⟩
  · cases hfailed with
    | @syntactic w e defect hspan hw =>
      exact .inl ⟨w, e, by rw [hrun], hspan, hw, fun error => by rw [hrun]; nofun⟩
    | @lexical w last error hspan hw hfault => exact .inr ⟨w, last, error, hrun, hspan, hw, hfault⟩

end Delivery

/-- **Until a call meets a fault a reader stands in front of a token of its text**, and its record
holds the tokens before it. -/
theorem Reader.FaultFree.stands {d : Delivery} {calls : Nat}
    (h : (d.reader #[]).FaultFree calls) :
    ∃ w e, (d.reader #[]).after calls = e.reader (logged #[] w) ∧ d.Span w e ∧
      ∀ c ∈ w, c.kind ≠ .endOfInput := by
  induction calls with
  | zero => exact ⟨[], d, rfl, .nil d, List.forall_mem_nil _⟩
  | succ calls ih =>
    obtain ⟨w, e, hafter, hspan, hw⟩ := ih h.of_succ
    have hlast := h calls calls.lt_succ_self
    rw [hafter] at hlast
    rcases e.parse_stands_or_stops (logged #[] w) with
      ⟨v, f, hrun, hspan', hv, -⟩ | ⟨_, _, error, hrun, -⟩
    · refine ⟨w ++ v, f, ?_, hspan.append hspan', List.forall_mem_append.mpr ⟨hw, hv⟩⟩
      rw [after, hafter, hrun, logged_append]
    · exact absurd (congrArg Prod.fst hrun) (hlast error)

theorem Delivery.Span.delivered_cases {d e : Delivery} {w : List Delivery} (h : d.Span w e)
    (hw : ∀ c ∈ w, c.kind ≠ .endOfInput) :
    (∃ later, d.before.delivered.1 = w.map located ++ e.located :: later) ∨
      d.before.delivered = (w.map located, none) ∧ e.kind = .endOfInput := by
  rw [h.delivered hw]
  by_cases he : e.kind = .endOfInput
  · rw [delivered_of_end he, List.append_nil]
    exact .inr ⟨rfl, he⟩
  · rw [delivered_of_ne_end he]
    exact .inl ⟨_, rfl⟩

theorem Delivery.Span.delivered_of_fault {d last : Delivery} {w : List Delivery}
    {error : LexicalError} (h : d.Span w last) (hw : ∀ c ∈ w ++ [last], c.kind ≠ .endOfInput)
    (hfault : last.behind.next.1 = .error error) :
    d.before.delivered = (w.map located ++ [last.located], some error) := by
  obtain ⟨hw, hlast⟩ := List.forall_mem_append.mp hw
  rw [h.delivered hw, delivered_of_ne_end (hlast last (List.mem_singleton_self last)),
    delivered_of_error hfault]

/-- **The first call that meets a fault** stops behind the last token before it. -/
theorem Reader.FaultFree.stops {d : Delivery} {failing : Nat} {error : LexicalError}
    (h : (d.reader #[]).FaultFree failing)
    (herror : ((d.reader #[]).after failing).parse.1 = .error (.lexical error)) :
    ∃ w last, d.Span w last ∧ (∀ c ∈ w ++ [last], c.kind ≠ .endOfInput) ∧
      last.behind.next.1 = .error error ∧ (d.reader #[]).after (failing + 1) =
        ⟨last.located, last.behind.next.2, logged #[] (w ++ [last])⟩ := by
  obtain ⟨w, e, hafter, hspan, hw⟩ := h.stands
  rw [hafter] at herror
  rcases e.parse_stands_or_stops (logged #[] w) with
    ⟨_, _, -, -, -, hnone⟩ | ⟨v, last, error', hrun, hspan', hv, hfault⟩
  · exact absurd herror (hnone error)
  · rw [hrun] at herror
    obtain rfl := ParseError.lexical.inj (Except.error.inj herror)
    refine ⟨w ++ v, last, hspan.append hspan', ?_, hfault, ?_⟩
    · rw [List.append_assoc]
      exact List.forall_mem_append.mpr ⟨hw, hv⟩
    · rw [after, hafter, hrun, logged_append, logged_append, logged_append]

/-! ## Behind a fault -/

namespace Reader

open Production

variable {reader : Reader}

theorem program_of_ne_program (h : reader.ahead.token.kind ≠ .program) (budget : Nat) :
    program budget reader =
      .error (.rejected (.syntactic ⟨.expected .program, reader.ahead⟩)) reader := by
  rw [program, bind_apply, discard_eq_map, map_apply, expect_apply, if_neg h]

/-- Where nothing more can be fetched, the word `program` is followed by the end of the text. -/
theorem program_of_finished (hfinished : reader.cursor.finished = true)
    (h : reader.ahead.token.kind = .program) (budget : Nat) :
    program budget reader =
      .error (.rejected (.syntactic ⟨.expected .identifier, .endOfInput, reader.cursor.line⟩))
        ⟨⟨.endOfInput, reader.cursor.line⟩, reader.cursor, reader.consumed.push reader.ahead⟩ := by
  let behind : Reader :=
    ⟨⟨.endOfInput, reader.cursor.line⟩, reader.cursor, reader.consumed.push reader.ahead⟩
  have hfirst : discard (expect .program) reader = .ok () behind := by
    rw [discard_eq_map, map_apply, expect_apply, if_pos h, take_apply,
      Cursor.next_of_finished hfinished]
  have hname : identifier behind =
      .error (.rejected (.syntactic ⟨.expected .identifier, behind.ahead⟩)) behind := by
    change (expect .identifier >>= fun token =>
      pure ⟨token.text, token, reader.cursor.line⟩) behind = _
    rw [bind_apply, expect_apply, if_neg TokenKind.noConfusion]
  rw [program, bind_of_ok hfirst, bind_apply, hname]

theorem program_ne_spent_of_finished (hfinished : reader.cursor.finished = true) (budget : Nat)
    (behind : Reader) : program budget reader ≠ .error .spent behind := by
  intro hspent
  by_cases h : reader.ahead.token.kind = .program
  · rw [program_of_finished hfinished h] at hspent
    cases hspent
  · rw [program_of_ne_program h] at hspent
    cases hspent

theorem parse_of_ne_program (h : reader.ahead.token.kind ≠ .program) :
    reader.parse = (.error (.syntactic ⟨.expected .program, reader.ahead⟩), reader) := by
  rw [parse, program_of_ne_program h]

theorem parse_of_finished (hfinished : reader.cursor.finished = true)
    (h : reader.ahead.token.kind = .program) :
    reader.parse = (.error (.syntactic ⟨.expected .identifier, .endOfInput, reader.cursor.line⟩),
      ⟨⟨.endOfInput, reader.cursor.line⟩, reader.cursor, reader.consumed.push reader.ahead⟩) := by
  rw [parse, program_of_finished hfinished h]

theorem after_of_ne_program (h : reader.ahead.token.kind ≠ .program) (calls : Nat) :
    reader.after calls = reader := by
  induction calls with
  | zero => rfl
  | succ calls ih => rw [after, ih, parse_of_ne_program h]

/-- Behind a fault the token ahead is consumed at most once more. -/
theorem consumed_after_of_finished (hfinished : reader.cursor.finished = true) (calls : Nat) :
    (reader.after calls).consumed.toList = reader.consumed.toList ++
      if reader.ahead.token.kind = .program ∧ 0 < calls then [reader.ahead] else [] := by
  by_cases h : reader.ahead.token.kind = .program
  · cases calls with
    | zero => rw [if_neg fun h => absurd h.2 (lt_irrefl 0), List.append_nil]; rfl
    | succ calls =>
      rw [Nat.add_comm, after_add, after, after, parse_of_finished hfinished h,
        after_of_ne_program TokenKind.noConfusion, if_pos ⟨h, by omega⟩, Array.toList_push]
  · rw [after_of_ne_program h, if_neg fun h' => h h'.1, List.append_nil]

/-- Where nothing more can be fetched, no program is read and the cursor stays where it is. -/
theorem parse_at_rest (hfinished : reader.cursor.finished = true) :
    (∃ error, reader.parse.1 = .error error) ∧ reader.parse.2.cursor = reader.cursor := by
  by_cases h : reader.ahead.token.kind = .program
  · rw [parse_of_finished hfinished h]
    exact ⟨⟨_, rfl⟩, rfl⟩
  · rw [parse_of_ne_program h]
    exact ⟨⟨_, rfl⟩, rfl⟩

theorem finished_after (hfinished : reader.cursor.finished = true) (calls : Nat) :
    (reader.after calls).cursor.finished = true := by
  induction calls with
  | zero => exact hfinished
  | succ calls ih => rw [after, (parse_at_rest ih).2, ih]

end Reader

/-- **After any number of calls** a reader stands in front of a token of its text, or a call has met
a fault and nothing more can be fetched. -/
theorem Reader.stands_or_rests (d : Delivery) (calls : Nat) :
    ((d.reader #[]).FaultFree calls ∧ ∃ w e, (d.reader #[]).after calls = e.reader (logged #[] w) ∧
      d.Span w e ∧ ∀ c ∈ w, c.kind ≠ .endOfInput) ∨
    ¬ (d.reader #[]).FaultFree calls ∧ ((d.reader #[]).after calls).cursor.finished = true := by
  rcases faultFree_or_exists (d.reader #[]) calls with
    hfree | ⟨failing, hlt, error, hfree, herror⟩
  · exact .inl ⟨hfree, hfree.stands⟩
  · refine .inr ⟨fun hfree' => hfree' failing hlt error herror, ?_⟩
    obtain ⟨w, last, -, -, hfault, hafter⟩ := hfree.stops herror
    obtain ⟨more, rfl⟩ := Nat.exists_eq_add_of_le hlt
    rw [after_add, hafter]
    exact finished_after (Cursor.finished_next fun _ hok => by rw [hfault] at hok; cases hok) more

/-! ## The record of a reader -/

/-- **The record of a reader is the start of the list of tokens**, but for the last one before a
fault, which may be recorded twice. -/
theorem Reader.consumed_along_calls (source : String) :
    match Reader.ofSource source with
    | .error error => (Cursor.ofSource source).delivered = ([], some error)
    | .ok reader => ∀ calls,
      let listed := (Cursor.ofSource source).delivered
      let behind := reader.after calls
      reader.FaultFree calls ∧
        ((∃ later, listed.1 = behind.consumed.toList ++ behind.ahead :: later) ∨
          listed = (behind.consumed.toList, none) ∧ behind.ahead.token.kind = .endOfInput) ∨
      ∃ failing < calls, ∃ first last error, reader.FaultFree failing ∧
        (reader.after failing).parse.1 = .error (.lexical error) ∧
        listed = (first ++ [last], some error) ∧ (reader.after (failing + 1)).ahead = last ∧
        behind.consumed.toList = first ++ [last] ++
          if last.token.kind = .program ∧ failing + 1 < calls then [last] else [] := by
  cases hreader : Reader.ofSource source with
  | error error => exact Delivery.delivered_of_error (Reader.ofSource_eq_error_iff.mp hreader)
  | ok reader =>
    obtain ⟨d, hd, rfl⟩ := Reader.ofSource_eq_ok_iff.mp hreader
    intro calls listed behind
    rcases faultFree_or_exists (d.reader #[]) calls with
      hfree | ⟨failing, hlt, error, hfree, herror⟩
    · obtain ⟨w, e, hafter, hspan, hw⟩ := hfree.stands
      have hcases := hspan.delivered_cases hw
      have hbehind : behind = e.reader (logged #[] w) := hafter
      have hconsumed : (logged #[] w).toList = w.map Delivery.located :=
        Delivery.toList_logged #[] w
      rw [← hconsumed, hd] at hcases
      exact .inl ⟨hfree, by rw [hbehind]; exact hcases⟩
    · obtain ⟨w, last, hspan, hw, hfault, hafter⟩ := hfree.stops herror
      have hlisted : listed = (w.map Delivery.located ++ [last.located], some error) := by
        rw [← hspan.delivered_of_fault hw hfault, hd]
      obtain ⟨more, rfl⟩ := Nat.exists_eq_add_of_le hlt
      refine .inr ⟨failing, hlt, _, _, error, hfree, herror, hlisted, by rw [hafter], ?_⟩
      have hfinished : last.behind.next.2.finished = true :=
        Cursor.finished_next fun _ hok => by rw [hfault] at hok; cases hok
      have hbehind : behind =
          Reader.after ⟨last.located, last.behind.next.2, logged #[] (w ++ [last])⟩ more := by
        rw [← hafter, ← after_add]
      have hmore : failing + 1 < failing.succ + more ↔ 0 < more := Nat.lt_add_right_iff_pos
      simp only [hmore]
      rw [hbehind, consumed_after_of_finished hfinished more, Delivery.toList_logged,
        List.map_append]
      rfl

/-- The one token before a fault is recorded twice. -/
theorem Reader.consumed_twice :
    let word : Located := ⟨⟨.program, .text "program"⟩, 1⟩
    (Reader.ofSource "program 1.5").map (fun reader => (reader.after 2).consumed.toList) =
        .ok [word, word] ∧
      (Cursor.ofSource "program 1.5").delivered = ([word], some ⟨.pointAfterNumber "1", 1⟩) := by
  intro word
  refine ⟨rfl, ?_⟩
  let d : Delivery := ⟨Cursor.ofSource "program 1.5", word, rfl⟩
  have hfault : d.behind.next.1 = .error ⟨.pointAfterNumber "1", 1⟩ := rfl
  change d.before.delivered = _
  rw [Delivery.delivered_of_ne_end TokenKind.noConfusion, Delivery.delivered_of_error hfault]

end LusoPascal
