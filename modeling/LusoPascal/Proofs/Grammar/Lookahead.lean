import LusoPascal.Proofs.Grammar.Nesting
import LusoPascal.Proofs.Grammar.Resumption
import LusoPascal.Proofs.Token.Course

/-!
# The raw character at a command

A command that begins with an identifier is told apart by a raw character, which the cursor sees and
the reader does not. This is right only where the two are in step: the token ahead is the last one
fetched, and the cursor stands right behind it. They are in step wherever a command is read. A fault
puts them out of step for good, but then no command is read any more.

* `Reading.text_of_identifier`: an identifier is spelled as it is written;
* `Delivery.Span.exists_front`: where an identifier stands in the text;
* `Reader.InStep`, **`Delivery.Span.inStep`**: a reader and its cursor are in step at a name;
* **`Calls.not_of_finished`**: where nothing more can be fetched, a program holds no block;
* `Production.opening`, `Calls.of_opening`: what stands before the first command of a program;
* **`Reader.inStep_at_commands`**: all calls for a program, whatever came of those before.
-/

namespace LusoPascal

/-! ## Where an identifier stands -/

theorem Reading.text_of_identifier {text : List Char} {reading : Reading} {token : Token}
    (h : scan? text = some reading) (hok : reading.outcome = .ok token)
    (hkind : token.kind = .identifier) : token.text.toList = reading.text := by
  cases text with
  | nil => cases h
  | cons c text =>
    rw [scan?] at h
    split at h
    · obtain rfl := Option.some.inj h
      obtain rfl := Except.ok.inj hok
      rw [wordToken] at hkind ⊢
      dsimp only at hkind ⊢
      split at hkind
      · cases hkind
      · rw [Token.text, String.toList_ofList]
      · rw [Token.text, String.toList_ofList]
    · split at h
      · obtain rfl := Option.some.inj h
        dsimp only at hok
        rw [numberToken] at hok
        split at hok
        · cases hok
        · split at hok
          · obtain rfl := Except.ok.inj hok
            cases hkind
          · cases hok
      · split at h
        · obtain rfl := Option.some.inj h
          obtain rfl := Except.ok.inj hok
          rw [Token.text, String.toList_ofList]
        · obtain rfl := Option.some.inj h
          cases hok

namespace Delivery

variable {d e : Delivery} {w : List Delivery}

theorem Span.kind_of_finished (h : Span d w e) (hfinished : d.before.finished = true) :
    e.kind = .endOfInput := by
  induction h with
  | nil d =>
    have hend := d.delivers
    rw [Cursor.next_of_finished hfinished] at hend
    rw [kind, token, ← Except.ok.inj hend]
    rfl
  | @cons d f e w hlink _ ih =>
    refine ih ?_
    rw [hlink, behind, Cursor.next_of_finished hfinished]
    exact hfinished

theorem Span.ne_endOfInput (h : Span d w e) (he : e.kind ≠ .endOfInput) :
    ∀ c ∈ w, c.kind ≠ .endOfInput := by
  induction h with
  | nil => exact List.forall_mem_nil _
  | @cons d f e w hlink hw ih =>
    refine List.forall_mem_cons.mpr ⟨fun hend => ?_, ih he⟩
    have hfinished : f.before.finished = true := by
      rw [hlink]
      exact Cursor.finished_next fun _ hok => Except.ok.inj (d.delivers.symm.trans hok) ▸ hend
    exact he (hw.kind_of_finished hfinished)

theorem Span.before_eq_after (h : Span d w e) : e.before = d.before.after w.length := by
  induction h with
  | nil => rfl
  | cons hlink _ ih =>
    rw [ih, hlink, List.length_cons, Nat.add_comm, Cursor.after_add]
    rfl

theorem Span.behind_eq_after (h : Span d w e) : e.behind = d.behind.after w.length :=
  calc
    e.behind = d.before.after (w.length + 1) := by rw [behind, h.before_eq_after, Cursor.after]
    _ = d.before.after (1 + w.length) := by rw [Nat.add_comm]
    _ = d.behind.after w.length := Cursor.after_add d.before 1 w.length

/-- **Where an identifier stands**: on the line that the line feeds before it lead to, and the
cursor stands right behind it. -/
theorem Span.exists_front {source : String} (h : Span d w e)
    (hd : d.before = Cursor.ofSource source) (he : e.kind = .identifier) :
    ∃ front, source.toList = front ++ (e.token.text.toList ++ e.behind.rest) ∧
      e.line = 1 + front.count '\n' ∧ e.behind.line = e.line := by
  have hw := h.ne_endOfInput (by rw [he]; decide)
  obtain ⟨front, rest, htext, hbegins, hnext⟩ := h.exists_rest hw hd
  have hnext' : e.before.next = (Cursor.mk rest (1 + front.count '\n') false).next := hnext
  rw [e.next_before] at hnext'
  cases hscan : scan? rest with
  | none =>
    obtain rfl := scan?_eq_none_iff.mp hscan
    rw [Cursor.next_eq_end hbegins] at hnext'
    have hlocated := Except.ok.inj (congrArg Prod.fst hnext')
    rw [kind, token, hlocated] at he
    cases he
  | some reading =>
    obtain ⟨outcome | outcome, chars, behind⟩ := reading
    · rw [Cursor.next_eq_error hbegins hscan] at hnext'
      cases congrArg Prod.fst hnext'
    · rw [Cursor.next_eq_ok hbegins hscan] at hnext'
      have hlocated := Except.ok.inj (congrArg Prod.fst hnext')
      have hbehind := congrArg Prod.snd hnext'
      dsimp only at hlocated hbehind
      have htoken : e.token = outcome := by rw [token, hlocated]
      have hname : e.token.text.toList = chars :=
        Reading.text_of_identifier hscan (htoken ▸ rfl) he
      have hchars : chars ++ behind = rest := Reading.text_append_rest hscan
      refine ⟨front, ?_, ?_, ?_⟩
      · rw [hname, hbehind, hchars, htext]
      · rw [line, hlocated, List.count_nil, Nat.add_zero]
      · rw [line, hlocated, hbehind]

end Delivery

/-! ## Readers in step with their cursors -/

/-- A reader and its cursor are in step at a name: the token ahead is the last one fetched, the
lines are the same, and the cursor stands right behind the name, so the character that it shows is
the second one behind it. -/
structure Reader.InStep (source : String) (reader : Reader) : Prop where
  fetched : ((Cursor.ofSource source).after reader.consumed.size).next =
    (.ok reader.ahead, reader.cursor)
  line : reader.cursor.line = reader.ahead.line
  stands : ∃ front,
    source.toList = front ++ (reader.ahead.token.text.toList ++ reader.cursor.rest) ∧
    reader.ahead.line = 1 + front.count '\n' ∧
    reader.cursor.peek? = source.toList[front.length + reader.ahead.token.text.length + 1]?

/-- **A reader in front of an identifier of its text is in step.** -/
theorem Delivery.Span.inStep {source : String} {d e : Delivery} {w : List Delivery}
    (h : d.Span w e) (hd : d.before = Cursor.ofSource source) (he : e.kind = .identifier) :
    (e.reader (logged #[] w)).InStep source := by
  obtain ⟨front, htext, hline, hcursor⟩ := h.exists_front hd he
  have hsize : (logged #[] w).size = w.length := (size_logged #[] w).trans (Nat.zero_add _)
  refine ⟨?_, hcursor, front, htext, hline, ?_⟩
  · change ((Cursor.ofSource source).after (logged #[] w).size).next = (.ok e.located, e.behind)
    rw [hsize, ← hd, ← h.before_eq_after, e.next_before]
  · change e.behind.rest[1]? = source.toList[front.length + e.token.text.length + 1]?
    have hname : e.token.text.toList.length ≤ e.token.text.length + 1 :=
      String.length_toList ▸ Nat.le_succ _
    rw [htext, Nat.add_assoc, List.getElem?_append_right (Nat.le_add_right _ _),
      Nat.add_sub_cancel_left, List.getElem?_append_right hname, String.length_toList,
      Nat.add_sub_cancel_left]

/-! ## Where nothing more can be fetched -/

open Production in
/-- **Where nothing more can be fetched a program holds no block**, since no name follows the word
that it begins with. -/
theorem Calls.not_of_finished {reader : Reader} (hfinished : reader.cursor.finished = true)
    (call : Rule × Reader) : ¬ Calls (.program, reader) call := by
  rintro ⟨h⟩
  rcases h.bind_cases with h | ⟨_, between, hfirst, h⟩
  · exact h.not_const
  rcases h.bind_cases with h | ⟨name, behind, hname, -⟩
  · exact h.not_const
  have hbetween : between.ahead.token.kind = .endOfInput := by
    rw [discard_eq_map, map_apply, expect_apply] at hfirst
    split at hfirst
    · next token reader' hrun =>
      obtain ⟨-, rfl⟩ := EStateM.Result.ok.inj hfirst
      split at hrun
      · rw [take_apply, Cursor.next_of_finished hfinished] at hrun
        obtain ⟨-, rfl⟩ := EStateM.Result.ok.inj hrun
        rfl
      · cases hrun
    · cases hfirst
  change (expect .identifier >>= fun token =>
    pure ⟨token.text, token, between.ahead.line⟩) between = .ok name behind at hname
  rw [bind_apply, expect_apply, if_neg (by rw [hbetween]; decide)] at hname
  cases hname

/-! ## Where the first command stands -/

namespace Production

/-- What stands before the first command of a program, on a budget above `budget`. -/
def opening (budget : Nat) : Production Unit := do
  discard (expect .program)
  discard identifier
  discard (expect .semicolon)
  discard (declarations (block (budget + 1)) (budget + 1))
  discard (expect .inicio)

theorem discard_eq_ok {α : Type} {p : Production α} {reader behind : Reader} {u : Unit} :
    discard p reader = .ok u behind ↔ ∃ a, p reader = .ok a behind := by
  rw [discard_eq_map, map_apply]
  cases p reader with
  | ok a between => simp
  | error halt between => simp

end Production

open Production in
/-- **A command is read behind the opening of a program.** -/
theorem Calls.of_opening {budget : Nat} {reader here : Reader}
    (h : opening budget reader = .ok () here) :
    Relation.TransGen Calls (.program, reader) (.statement, here) := by
  obtain ⟨_, r₁, h₁, h⟩ := bind_eq_ok.mp h
  obtain ⟨_, r₂, h₂, h⟩ := bind_eq_ok.mp h
  obtain ⟨_, r₃, h₃, h⟩ := bind_eq_ok.mp h
  obtain ⟨_, r₄, h₄, h₅⟩ := bind_eq_ok.mp h
  obtain ⟨name, h₂⟩ := discard_eq_ok.mp h₂
  obtain ⟨ds, h₄⟩ := discard_eq_ok.mp h₄
  have hblock : Calls (.program, reader) (.block, r₃) := by
    refine @Calls.programBlock _ _ (budget + 2) (Enters.of_breaksOff fun q halt hq => ?_)
    rw [programOn, bind_of_ok h₁, bind_of_ok h₂, bind_of_ok h₃, bind_apply, hq]
  have hcommand : Calls (.block, r₃) (.statement, here) := by
    refine @Calls.blockStatement _ _ (budget + 2) (Enters.of_breaksOff fun q halt hq => ?_)
    rw [blockOn, bind_of_ok h₄, bind_apply, compound, bind_of_ok h₅, bind_apply, separated,
      bind_apply, hq]
  exact .tail (.single hblock) hcommand

/-! ## After any number of calls -/

/-- **Wherever a command begins with an identifier, the reader and the cursor are in step**, and
once a call has met a fault no command is read any more. -/
theorem Reader.inStep_at_commands {source : String} {reader : Reader}
    (hreader : Reader.ofSource source = .ok reader) (calls : Nat) {here : Reader}
    (hcall : Relation.TransGen Calls (.program, reader.after calls) (.statement, here)) :
    reader.FaultFree calls ∧ (here.ahead.token.kind = .identifier → here.InStep source) := by
  obtain ⟨d, hd, rfl⟩ := Reader.ofSource_eq_ok_iff.mp hreader
  rcases stands_or_rests d calls with ⟨hfree, v, e, hafter, hv, -⟩ | ⟨-, hfinished⟩
  · refine ⟨hfree, fun hkind => ?_⟩
    rw [hafter] at hcall
    obtain ⟨w, f, rfl, hw, -⟩ := Calls.exists_span_of_nested hcall
    rw [← logged_append]
    exact (hv.append hw).inStep hd hkind
  · obtain ⟨call, hfirst, -⟩ := Relation.TransGen.head'_iff.mp hcall
    exact absurd hfirst (Calls.not_of_finished hfinished call)

/-- The target of the assignment in the second program of a text. -/
theorem Reader.inStep_at_second_program :
    let source := "program p;inicio fim.\nprogram q;inicio x:=1 fim."
    ∃ reader here, Reader.ofSource source = .ok reader ∧
      Relation.TransGen Calls (.program, reader.after 1) (.statement, here) ∧
      here.ahead = ⟨⟨.identifier, .text "x"⟩, 2⟩ ∧ reader.FaultFree 1 ∧ here.InStep source := by
  intro source
  have hopens : (Reader.ofSource source).toOption.any (fun reader =>
      match Production.opening 0 (reader.after 1) with
      | .ok _ here => here.ahead == ⟨⟨.identifier, .text "x"⟩, 2⟩
      | .error _ _ => false) = true := by decide +kernel
  cases hreader : Reader.ofSource source with
  | error error => rw [hreader] at hopens; cases hopens
  | ok reader =>
    rw [hreader] at hopens
    dsimp only [Except.toOption, Option.any_some] at hopens
    split at hopens
    · next here hopening =>
      have hahead := beq_iff_eq.mp hopens
      have hcall := Calls.of_opening hopening
      obtain ⟨hfree, hstep⟩ := Reader.inStep_at_commands hreader 1 hcall
      exact ⟨reader, here, rfl, hcall, hahead, hfree, hstep (by rw [hahead])⟩
    · cases hopens

end LusoPascal
