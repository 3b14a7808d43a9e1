import LusoPascal.Proofs.Grammar.Acceptance
import LusoPascal.Proofs.Grammar.Resumption
import LusoPascal.Proofs.Grammar.Transfer
import LusoPascal.Proofs.Token.Extension

/-!
# The end of a program is its full stop

Where a text holds a program, the tokens up to its full stop stay the same with more text behind
them, and so does the program. What may go wrong is the token behind the full stop, which is fetched
although nothing depends on it.

* `Production.program_faults`: a fault behind the full stop;
* `Program.Occupies`: the tokens from the start of a text up to a full stop are those of a program;
* `Program.Occupies.ofSource_eq`: then the token behind the full stop decides;
* `Program.Occupies.append`: more text behind a program;
* **`Program.ends_with_dot`**: if a program ends with its text, no shorter text holds a program, and
  a longer one holds the same program unless a fault stands behind it.
-/

namespace LusoPascal

open Delivery

/-! ## A fault behind the full stop -/

/-- **A derived program is rejected** for a fault that stands behind its full stop, and for nothing
else. -/
theorem Production.program_faults {budget : Nat} {d t : Delivery} {v : List Delivery}
    {program : Program} {error : LexicalError}
    (h : Agreeing DerivesProgram Program.NearestElse (v ++ [t]) program)
    (hb : (v ++ [t]).length ≤ budget) (hspan : Span d v t)
    (hfault : t.behind.next.1 = .error error) (log : Array Located) :
    ∃ behind, Production.program budget (d.reader log) =
      .error (.rejected (.lexical error)) behind := by
  obtain ⟨leaders, h, hn, hl⟩ := h
  generalize hv : v ++ [t] = w at h hb
  cases h with
  | @intro p n s t' w _ block hp hid hs hw ht =>
    have hsplit : v ++ [t] = (p :: n :: s :: w) ++ [t'] := hv
    obtain ⟨rfl, htail⟩ := List.append_inj' hsplit rfl
    obtain rfl := List.singleton_inj.mp htail
    simp only [List.length_cons, List.length_append, List.length_nil] at hb
    obtain ⟨budget, rfl⟩ : ∃ n, budget = n + 1 := ⟨budget - 1, by omega⟩
    obtain ⟨rfl, n, hlink, hspan⟩ := Span.cons_iff.mp hspan
    obtain ⟨rfl, s, hlink', hspan⟩ := Span.cons_iff.mp hspan
    obtain ⟨rfl, c, hlink'', hspan⟩ := Span.cons_iff.mp hspan
    have hblock := block_complete budget ⟨leaders, hw, hn, hl⟩ (by omega) hspan trivial
    have hdot (log : Array Located) : ∃ behind, discard (expect .dot) (t.reader log) =
        .error (.rejected (.lexical error)) behind := by
      have hnext : (t.reader log).cursor.next = (.error error, t.behind.next.2) :=
        Prod.ext hfault rfl
      rw [discard_eq_map, map_apply, expect_of_kind ht, take_apply, hnext]
      exact ⟨_, rfl⟩
    rw [Production.program, bind_of_ok ((Reads.expect hp (.single hlink)).discard log),
      bind_of_ok (identifier_reads hid (.single hlink') _),
      bind_of_ok ((Reads.expect hs (.single hlink'')).discard _), bind_of_ok (hblock _), bind_apply]
    obtain ⟨behind, hrun⟩ := hdot (logged (logged (logged (logged log [p]) [n]) [s]) w)
    rw [hrun]
    exact ⟨_, rfl⟩

/-! ## The tokens of a program -/

/-- From the start of a text on, a program has the tokens `v` and then its full stop `t`. -/
structure Program.Occupies (program : Program) (source : String) (d : Delivery)
    (v : List Delivery) (t : Delivery) : Prop where
  starts : d.before = Cursor.ofSource source
  span : Span d v t
  derives : Agreeing DerivesProgram NearestElse (v ++ [t]) program

namespace Program

variable {source : String} {program : Program} {d t : Delivery} {v : List Delivery}

/-- Where a text holds a program, the program has its tokens there, and another token stands behind
its full stop. -/
theorem exists_occupies (h : ofSource source = .ok program) :
    ∃ d v t, program.Occupies source d v t ∧ ∃ next, t.behind.next.1 = .ok next := by
  obtain ⟨d, hd, behind, hrun⟩ := ofSource_eq_ok_iff.mp h
  obtain ⟨w, e, -, hspan, hw⟩ := Production.program_sound _ d hrun
  obtain ⟨leaders, hderives, hagree⟩ := hw
  obtain ⟨v, t, rfl, -, -⟩ := hderives.exists_dot
  obtain ⟨c, hv, ht⟩ := Span.append_iff.mp hspan
  obtain ⟨rfl, e, hlink, -⟩ := Span.cons_iff.mp ht
  exact ⟨d, v, _, ⟨hd, hv, leaders, hderives, hagree⟩, e.located, hlink ▸ e.delivers⟩

namespace Occupies

theorem dot (h : program.Occupies source d v t) : t.kind = .dot ∧ ∀ c ∈ v, c.kind ≠ .dot := by
  obtain ⟨leaders, hderives, -⟩ := h.derives
  obtain ⟨v', t', heq, ht, hv⟩ := hderives.exists_dot
  obtain ⟨rfl, htail⟩ := List.append_inj' heq rfl
  obtain rfl := List.singleton_inj.mp htail
  exact ⟨ht, hv⟩

theorem ne_endOfInput (h : program.Occupies source d v t) :
    ∀ c ∈ v ++ [t], c.kind ≠ .endOfInput := by
  obtain ⟨leaders, hderives, -⟩ := h.derives
  exact hderives.ne_endOfInput

theorem trail_eq (h : program.Occupies source d v t) :
    (Cursor.ofSource source).trail = (v ++ [t]) ++ t.behind.trail := by
  obtain ⟨hv, ht⟩ := List.forall_mem_append.mp h.ne_endOfInput
  rw [← h.starts, h.span.trail_eq hv, trail_of_ne_end (ht t (List.mem_singleton_self t)),
    List.append_assoc, List.singleton_append]

theorem sentence_eq (h : program.Occupies source d v t) : sentence source = v ++ [t] := by
  rw [sentence, h.trail_eq, List.append_assoc]
  exact throughDot_append_dot h.dot.2 h.dot.1 _

theorem length_le (h : program.Occupies source d v t) :
    (v ++ [t]).length ≤ (d.reader #[]).budget := by
  have hv := (List.forall_mem_append.mp h.ne_endOfInput).1
  have hspan := h.span
  have hbudget : (d.reader #[]).budget = d.behind.rest.length + 3 := rfl
  rw [List.length_append, List.length_singleton, hbudget]
  cases v with
  | nil => exact Nat.le_add_left 1 _
  | cons c v =>
    obtain ⟨rfl, -⟩ := Span.cons_iff.mp hspan
    have hlength := Span.length_behind (v := []) hspan hv
    rw [List.length_cons]
    omega

/-- **The token behind the full stop decides**, but only whether there is one. -/
theorem ofSource_eq (h : program.Occupies source d v t) :
    ofSource source = match t.behind.next.1 with
      | .ok _ => .ok program
      | .error error => .error (.lexical error) := by
  cases hnext : t.behind.next.1 with
  | ok next =>
    refine ofSource_complete (h.sentence_eq ▸ h.derives) fun last hlast => ⟨next, ?_⟩
    rw [h.sentence_eq, List.getLast?_concat] at hlast
    rw [← Option.some.inj hlast, hnext]
  | error error =>
    obtain ⟨behind, hrun⟩ := Production.program_faults h.derives h.length_le h.span hnext #[]
    rw [ofSource, Reader.ofSource_eq_ok_iff.mpr ⟨d, h.starts, rfl⟩]
    dsimp only
    rw [Reader.parse, hrun]

theorem lasts (h : program.Occupies source d v t) : ∀ c ∈ v ++ [t], c.Lasts := by
  have hend := h.ne_endOfInput
  have hpos := length_rest_behind_lt (hend t (by simp))
  intro c hc
  refine ⟨hend c hc, ?_⟩
  rcases List.mem_append.mp hc with hv | ht
  · obtain ⟨u, x, rfl⟩ := List.append_of_mem hv
    have hlength := h.span.length_behind (List.forall_mem_append.mp hend).1
    exact .inl (List.length_pos_iff.mp (by omega))
  · rw [List.mem_singleton.mp ht]
    exact .inr h.dot.1

theorem exists_fim (h : program.Occupies source d v t) :
    ∃ u f, v = u ++ [f] ∧ f.kind = .fim := by
  obtain ⟨leaders, hderives, -⟩ := h.derives
  generalize hw : v ++ [t] = w at hderives
  cases hderives with
  | @intro p n s t' _ _ _ hp hn hs hw' ht =>
    cases hw' with
    | @intro y z _ _ _ _ _ _ hy hz hbody =>
      cases hbody with
      | @intro b f x _ _ hb hx hf =>
        have hsplit : v ++ [t] = (p :: n :: s :: (y ++ (z ++ b :: x)) ++ [f]) ++ [t'] := by
          rw [hw]
          simp
        exact ⟨_, f, (List.append_inj' hsplit rfl).1, hf⟩

theorem two_le_length (h : program.Occupies source d v t) {c : Delivery} (hc : c ∈ v)
    (hkind : c.kind = .identifier) :
    2 ≤ c.behind.rest.length ∧ ∃ e ∈ v ++ [t], e.before = c.behind := by
  obtain ⟨u, f, rfl, hf⟩ := h.exists_fim
  have hu : c ∈ u := by
    rcases List.mem_append.mp hc with hu | hlast
    · exact hu
    · rw [List.mem_singleton.mp hlast, hf] at hkind
      cases hkind
  obtain ⟨x, y, rfl⟩ := List.append_of_mem hu
  have hv : x ++ c :: y ++ [f] = x ++ c :: (y ++ [f]) := by simp
  rw [hv] at h ⊢
  have hend := h.ne_endOfInput
  have hpos := length_rest_behind_lt (hend t (by simp))
  have hlength := h.span.length_behind (List.forall_mem_append.mp hend).1
  rw [List.length_append, List.length_singleton] at hlength
  obtain ⟨b, -, hspan⟩ := Span.append_iff.mp h.span
  obtain ⟨rfl, e, hlink, hspan⟩ := Span.cons_iff.mp hspan
  refine ⟨by omega, e, ?_, hlink⟩
  rw [List.append_assoc, List.cons_append]
  exact List.mem_append_right _ (List.mem_cons_of_mem _ hspan.start_mem)

/-- **What a program occupies is the same with more text behind it.** -/
theorem append (h : program.Occupies source d v t) (more : String) :
    program.Occupies (source ++ more) (d.extend more.toList) (v.map (extend more.toList))
      (t.extend more.toList) ∧
    (t.extend more.toList).behind = t.behind.extend more.toList := by
  have hlasts := h.lasts
  have ht := hlasts t (by simp)
  have hv := (List.forall_mem_append.mp hlasts).1
  refine ⟨⟨?_, h.span.extend _ hv ht, ?_⟩, ht.behind_extend _⟩
  · rw [(hlasts d h.span.start_mem).before_extend, h.starts, Cursor.ofSource, Cursor.ofSource,
      String.toList_append]
    rfl
  · obtain ⟨leaders, hderives, hn, hl⟩ := h.derives
    have hmapped := hderives.map (located_extend more.toList)
    rw [List.map_append, List.map_singleton] at hmapped
    refine ⟨_, hmapped, hn, List.forall_mem_map.mpr fun c hc => ?_⟩
    obtain ⟨hmem, hkind⟩ := hderives.of_leader c hc
    have hcv : c ∈ v := by
      rcases List.mem_append.mp hmem with hcv | hlast
      · exact hcv
      · rw [List.mem_singleton.mp hlast, h.dot.1] at hkind
        cases hkind
    obtain ⟨hlength, e, he, hlink⟩ := h.two_le_length hcv hkind
    exact (hlasts c hmem).agrees_extend _ (hlasts e he) hlink hlength (hl c hc)

theorem lastLine_behind (h : program.Occupies source d v t) :
    t.behind.finished = false ∧ t.behind.lastLine = 1 + source.toList.count '\n' := by
  obtain ⟨hv, ht⟩ := List.forall_mem_append.mp h.ne_endOfInput
  obtain ⟨-, hlast, -⟩ := h.span.unread hv (by rw [h.starts]; rfl)
  obtain ⟨hline, hfinished⟩ := Cursor.lastLine_next t.delivers (ht t (List.mem_singleton_self t))
  refine ⟨hfinished, ?_⟩
  rw [show t.behind.lastLine = t.before.lastLine from hline, hlast, h.starts]
  rfl

end Occupies

/-! ## A full stop at the end of a text -/

/-- The first full stop of a text is its last character. -/
def EndsAtDot (source : String) : Prop :=
  (sentence source).getLast?.map (fun dot => (dot.kind, dot.behind.rest)) = some (.dot, [])

instance (source : String) : Decidable (EndsAtDot source) := inferInstanceAs (Decidable (_ = _))

theorem Occupies.endsAtDot_iff (h : program.Occupies source d v t) :
    EndsAtDot source ↔ t.behind.rest = [] := by
  rw [EndsAtDot, h.sentence_eq, List.getLast?_concat, Option.map_some, h.dot.1, Option.some.injEq,
    Prod.mk.injEq]
  exact and_iff_right rfl

/-- **The end of a program is its full stop**: no shorter start of the text holds a program, and a
longer text holds the same one unless a fault comes next. -/
theorem ends_with_dot (h : ofSource source = .ok program) (hdot : EndsAtDot source) :
    (∀ shorter : String, shorter.toList <+: source.toList → shorter ≠ source →
      ∀ program, ofSource shorter ≠ .ok program) ∧
    ∀ more : String, ofSource (source ++ more) =
      match (Cursor.ofSource more).next.1 with
      | .ok _ => .ok program
      | .error error => .error (.lexical (error.later (source.toList.count '\n'))) := by
  obtain ⟨d, v, t, hoccupies, -⟩ := exists_occupies h
  have hrest := hoccupies.endsAtDot_iff.mp hdot
  constructor
  · rintro shorter ⟨more, hmore⟩ hne program' hshorter
    obtain ⟨d', v', t', hoccupies', -⟩ := exists_occupies hshorter
    have hsource : source = shorter ++ String.ofList more := by
      rw [← String.toList_inj, String.toList_append, String.toList_ofList, hmore]
    obtain ⟨hlonger, hbehind⟩ := hoccupies'.append (String.ofList more)
    rw [← hsource] at hlonger
    have hnone := hlonger.endsAtDot_iff.mp hdot
    rw [hbehind] at hnone
    have hmore' : more = [] := by
      rw [Cursor.extend, String.toList_ofList] at hnone
      exact (List.append_eq_nil_iff.mp hnone).2
    rw [hmore', List.append_nil] at hmore
    exact hne (String.toList_inj.mp hmore)
  · intro more
    obtain ⟨hlonger, hbehind⟩ := hoccupies.append more
    obtain ⟨hfinished, hline⟩ := hoccupies.lastLine_behind
    have hstart : t.behind.extend more.toList =
        (Cursor.ofSource more).later (source.toList.count '\n') := by
      rw [Cursor.lastLine, hrest, List.count_nil, Nat.add_zero] at hline
      rw [Cursor.extend, hrest, hfinished, hline]
      rfl
    rw [hlonger.ofSource_eq, hbehind, hstart, Cursor.next_later]
    cases (Cursor.ofSource more).next.1 <;> rfl

/-- A fault two lines behind the full stop, which stands on the second line. -/
theorem ends_with_dot_fault :
    let source := "program p;\ninicio fim."
    ∃ program, ofSource source = .ok program ∧ EndsAtDot source ∧
      (∀ shorter : String, shorter.toList <+: source.toList → shorter ≠ source →
        ∀ program, ofSource shorter ≠ .ok program) ∧
      ofSource (source ++ "1 $") = .ok program ∧
      ofSource (source ++ "\n\n$") = .error (.lexical ⟨.strayCharacter '$', 4⟩) := by
  intro source
  have hread : (ofSource source).toBool = true := by decide +kernel
  have hdot : EndsAtDot source := by decide +kernel
  have hlines : source.toList.count '\n' = 1 := by decide
  have hfault : (Cursor.ofSource "\n\n$").next.1 = .error ⟨.strayCharacter '$', 3⟩ := rfl
  cases h : ofSource source with
  | error error => rw [h] at hread; cases hread
  | ok program =>
    obtain ⟨hshorter, hlonger⟩ := ends_with_dot h hdot
    refine ⟨program, rfl, hdot, hshorter, hlonger "1 $", ?_⟩
    rw [hlonger, hfault, hlines]
    rfl

end Program

end LusoPascal
