import LusoPascal.Proofs.Grammar.Calls
import LusoPascal.Proofs.Grammar.Shifting

/-!
# Each call reads a text of its own

As long as no call meets a fault, a reader in front of a token is the reader that would have just
opened the text from that token on, some lines further down and with a record in front. So the next
call does what the first call on that text does.

* `Delivery.Span.unread`: what lies before a token is the start of the text;
* `Reader.Resumes`: a reader stands where another one opens the rest of the text;
* **`Reader.FaultFree.resumes`**: a reader does so after every call until one meets a fault;
* **`Reader.parse_resumes`**: the result and the record of the next call.
-/

namespace LusoPascal

/-! ## The text from the token ahead on -/

namespace Cursor

variable {cursor : Cursor}

theorem kind_eq_end_iff {text : List Char} {line : Nat} {located : Located}
    (hbegins : splitTrivia .between text = ([], text))
    (h : (Cursor.mk text line false).next.1 = .ok located) :
    text = [] ↔ located.token.kind = .endOfInput := by
  constructor
  · rintro rfl
    obtain rfl := Except.ok.inj h
    rfl
  · intro hend
    cases hscan : scan? text with
    | none => exact scan?_eq_none_iff.mp hscan
    | some reading =>
      obtain ⟨outcome | outcome, chars, rest⟩ := reading
      · rw [next_eq_error hbegins hscan] at h
        cases h
      · rw [next_eq_ok hbegins hscan] at h
        obtain rfl := Except.ok.inj h
        exact absurd hend (Reading.of_outcome_ok hscan rfl).2

end Cursor

namespace Delivery

variable {d e : Delivery} {w : List Delivery}

/-- **What lies before a token is the start of the text**, and no line is lost on the way. -/
theorem Span.unread (h : Span d w e) (hw : ∀ c ∈ w, c.kind ≠ .endOfInput)
    (hfinished : d.before.finished = false) :
    e.before.finished = false ∧ e.before.lastLine = d.before.lastLine ∧
      e.before.rest <:+ d.before.rest := by
  induction h with
  | nil => exact ⟨hfinished, rfl, List.suffix_refl _⟩
  | @cons d f e w hlink _ ih =>
    rw [List.forall_mem_cons] at hw
    obtain ⟨hline, hfinished'⟩ := Cursor.lastLine_next d.delivers hw.1
    obtain ⟨hend, hlast, hsuffix⟩ := ih hw.2 (by rw [hlink]; exact hfinished')
    rw [hlink] at hlast hsuffix
    exact ⟨hend, hlast.trans hline, hsuffix.trans d.before.rest_next_suffix⟩

/-- **A token is the first one of a rest of the text**, on the line that the line feeds before it
lead to. -/
theorem Span.exists_rest {source : String} (h : Span d w e) (hw : ∀ c ∈ w, c.kind ≠ .endOfInput)
    (hd : d.before = Cursor.ofSource source) :
    ∃ front rest, front ++ rest = source.toList ∧ splitTrivia .between rest = ([], rest) ∧
      e.before.next = ((Cursor.mk rest 1 false).later (front.count '\n')).next := by
  obtain ⟨hfinished, hlast, first, hfirst⟩ := h.unread hw (by rw [hd]; rfl)
  rcases hsplit : splitTrivia .between e.before.rest with ⟨trivia, rest⟩
  have happend : trivia ++ rest = e.before.rest := by
    rw [← splitTrivia_append .between e.before.rest, hsplit]
  have hbegins := splitTrivia_between_snd .between e.before.rest
  rw [hsplit] at hbegins
  have htext : first ++ trivia ++ rest = source.toList := by
    rw [List.append_assoc, happend, hfirst, hd]
    rfl
  have hline : e.before.line + trivia.count '\n' = 1 + (first ++ trivia).count '\n' := by
    have hlast' : e.before.lastLine = 1 + source.toList.count '\n' := by rw [hlast, hd]; rfl
    simp only [Cursor.lastLine, ← htext, ← happend, List.count_append] at hlast' ⊢
    omega
  refine ⟨first ++ trivia, rest, htext, hbegins, ?_⟩
  rw [Cursor.next_eq_body hfinished hsplit, hline]
  rfl

theorem exists_fresh {cursor : Cursor} {lines : Nat}
    (h : e.before.next = (cursor.later lines).next) :
    ∃ fresh : Delivery, fresh.before = cursor ∧
      ∀ log, e.reader log = (fresh.reader #[]).later lines log := by
  rw [Cursor.next_later, e.next_before] at h
  obtain ⟨hlocated, hbehind⟩ := Prod.mk.inj h
  cases hfresh : cursor.next.1 with
  | error error =>
    rw [hfresh] at hlocated
    cases hlocated
  | ok located =>
    rw [hfresh] at hlocated
    refine ⟨⟨cursor, located, hfresh⟩, rfl, fun log => ?_⟩
    rw [Delivery.reader, Except.ok.inj hlocated, hbehind]
    simp [Reader.later, Delivery.reader, Delivery.behind]

end Delivery

/-! ## Readers that open the rest of a text -/

/-- A reader stands where a fresh one opens the rest of the text, which begins with the token ahead
and is empty at the end; the record and the tokens of the rest are all tokens. -/
structure Reader.Resumes (source : String) (reader : Reader) (front rest : List Char)
    (fresh : Reader) : Prop where
  text : front ++ rest = source.toList
  begins : splitTrivia .between rest = ([], rest)
  opens : Reader.ofSource (String.ofList rest) = .ok fresh
  stands : reader = fresh.later (front.count '\n') reader.consumed
  ends : rest = [] ↔ reader.ahead.token.kind = .endOfInput
  listed : (Cursor.ofSource source).delivered =
    let later := (Cursor.ofSource (String.ofList rest)).delivered
    (reader.consumed.toList ++ later.1.map (Located.later (front.count '\n')),
      later.2.map (LexicalError.later (front.count '\n')))

open Delivery in
/-- **A reader resumes at the token ahead** after every call until one meets a fault. -/
theorem Reader.FaultFree.resumes {source : String} {reader : Reader} {calls : Nat}
    (hreader : Reader.ofSource source = .ok reader) (hfree : reader.FaultFree calls) :
    ∃ front rest fresh, (reader.after calls).Resumes source front rest fresh := by
  obtain ⟨d, hd, rfl⟩ := Reader.ofSource_eq_ok_iff.mp hreader
  obtain ⟨w, e, hafter, hspan, hw⟩ := hfree.stands
  obtain ⟨front, rest, htext, hbegins, hnext⟩ := hspan.exists_rest hw hd
  obtain ⟨f, hf, hstands⟩ := exists_fresh hnext
  have hopens : Cursor.ofSource (String.ofList rest) = ⟨rest, 1, false⟩ := by
    rw [Cursor.ofSource, String.toList_ofList]
  have hconsumed : (logged #[] w).toList = w.map located := toList_logged #[] w
  refine ⟨front, rest, f.reader #[], htext, hbegins,
    Reader.ofSource_eq_ok_iff.mpr ⟨f, hf.trans hopens.symm, rfl⟩, ?_, ?_, ?_⟩
  · rw [hafter]
    exact hstands _
  · have he : (Cursor.mk rest (1 + front.count '\n') false).next.1 = .ok e.located :=
      (congrArg Prod.fst hnext).symm.trans e.delivers
    rw [hafter]
    exact Cursor.kind_eq_end_iff hbegins he
  · rw [hopens, hafter, ← hd, hspan.delivered hw, Cursor.delivered_congr hnext,
      Cursor.delivered_later, ← hconsumed]
    rfl

/-! ## The next call -/

open Delivery in
/-- Where a call stops: behind the full stop of its program, or in front of the token it rejects. -/
theorem Delivery.parse_stops (d : Delivery) (log : Array Located) :
    (∀ program, (d.reader log).parse.1 = .ok program → ∃ first dot,
      (d.reader log).parse.2.consumed.toList = log.toList ++ first ++ [dot] ∧
        dot.token.kind = .dot ∧ ∀ token ∈ first, token.token.kind ≠ .dot) ∧
    ∀ error, (d.reader log).parse.1 = .error (.syntactic error) →
      (d.reader log).parse.2.ahead = error.found := by
  rcases d.parse_ok_or_failed log with
    ⟨program, w, e, hrun, hspan, leaders, hw, -⟩ | ⟨error, behind, hrun, -, hfailed⟩ <;> rw [hrun]
  · refine ⟨fun _ _ => ?_, fun _ herror => by cases herror⟩
    obtain ⟨v, t, rfl, ht, hv⟩ := hw.exists_dot
    refine ⟨v.map located, t.located, ?_, ht, List.forall_mem_map.mpr hv⟩
    rw [Delivery.reader, toList_logged, List.map_append, List.append_assoc]
    rfl
  · refine ⟨fun _ hok => (by cases hok), fun error' herror => ?_⟩
    obtain rfl := Except.error.inj herror
    cases hfailed with
    | syntactic => rfl

/-- **Each call reads a text of its own.** If no call before met a fault, the next one does what the
first call on the rest of the text does, further down. -/
theorem Reader.parse_resumes {source : String} {reader : Reader} {calls : Nat}
    (hreader : Reader.ofSource source = .ok reader) (hfree : reader.FaultFree calls) :
    let here := reader.after calls
    (∃ front rest fresh, here.Resumes source front rest fresh ∧
      here.parse.1 = (fresh.parse.1.mapError (ParseError.later (front.count '\n'))).map
        (Program.reline (· + front.count '\n')) ∧
      here.parse.2.consumed.toList = here.consumed.toList ++
        fresh.parse.2.consumed.toList.map (Located.later (front.count '\n'))) ∧
    (∀ program, here.parse.1 = .ok program → ∃ first dot,
      here.parse.2.consumed.toList = here.consumed.toList ++ first ++ [dot] ∧
        dot.token.kind = .dot ∧ ∀ token ∈ first, token.token.kind ≠ .dot) ∧
    (∀ error, here.parse.1 = .error (.syntactic error) → here.parse.2.ahead = error.found) ∧
    ∀ (kind : TokenKind) (reader : Reader), reader.ahead.token.kind ≠ kind →
      Production.expect kind reader =
        .error (.rejected (.syntactic ⟨.expected kind, reader.ahead⟩)) reader := by
  intro here
  obtain ⟨front, rest, fresh, hresumes⟩ := hfree.resumes hreader
  obtain ⟨d, hd, rfl⟩ := Reader.ofSource_eq_ok_iff.mp hreader
  obtain ⟨w, e, hafter, -, -⟩ := hfree.stands
  have hhere : here = e.reader (logged #[] w) := hafter
  obtain ⟨hstops, hfound⟩ := e.parse_stops (logged #[] w)
  have hparse := (congrArg Reader.parse hresumes.stands).trans (fresh.parse_later _ here.consumed)
  have hrecord : here.parse.2.consumed.toList = here.consumed.toList ++
      fresh.parse.2.consumed.toList.map (Located.later (front.count '\n')) := by
    rw [hparse]
    simp [Reader.later]
  refine ⟨⟨front, rest, fresh, hresumes, by rw [hparse], hrecord⟩, ?_, ?_, ?_⟩
  · rw [hhere]
    exact hstops
  · rw [hhere]
    exact hfound
  · intro kind reader hkind
    rw [Production.expect_apply, if_neg hkind]

/-- The second program of a text is read as if it stood alone, but for its lines. -/
theorem Reader.parse_resumes_second_program :
    let source := "program p; inicio fim.\nprogram q; inicio fim."
    ∃ reader, Reader.ofSource source = .ok reader ∧ reader.FaultFree 1 ∧
      ∃ front rest fresh, (reader.after 1).Resumes source front rest fresh ∧
        (reader.after 1).parse.1 =
          (fresh.parse.1.mapError (ParseError.later (front.count '\n'))).map
            (Program.reline (· + front.count '\n')) := by
  intro source
  have hfirst : (Reader.ofSource source).toOption.any (·.parse.1.toBool) = true := by
    decide +kernel
  cases hreader : Reader.ofSource source with
  | error error => rw [hreader] at hfirst; cases hfirst
  | ok reader =>
    have hread : reader.parse.1.toBool = true := by rw [hreader] at hfirst; exact hfirst
    have hfree : reader.FaultFree 1 := by
      intro call hcall error herror
      obtain rfl := Nat.lt_one_iff.mp hcall
      rw [show reader.parse.1 = .error (.lexical error) from herror] at hread
      cases hread
    obtain ⟨⟨front, rest, fresh, hresumes, hparse, -⟩, -⟩ := Reader.parse_resumes hreader hfree
    exact ⟨reader, rfl, hfree, front, rest, fresh, hresumes, hparse⟩

end LusoPascal
