import LusoPascal.Proofs.Grammar.Program

/-!
# Which texts hold a program

A text is read up to its first full stop, and the token behind that is fetched. What stands up to
there decides everything.

* `sentence`: the deliveries of a text up to the first full stop;
* `ofSource_sound`, `ofSource_complete`: the two directions;
* **`ofSource_exact`**: a text holds a program if and only if its sentence has a derivation whose
  alternatives belong to the nearest conditionals, the raw character agrees at its leaders, and the
  token behind the full stop can be fetched; the program is the tree of that derivation.
-/

namespace LusoPascal

/-- The deliveries of a text up to the first full stop. -/
def sentence (source : String) : List Delivery := throughDot (Cursor.ofSource source).trail

namespace Program

open Production Delivery

variable {source : String} {program : Program}

/-- A text holds a program if the rule for programs succeeds from the first token on. -/
theorem ofSource_eq_ok_iff : ofSource source = .ok program ↔
    ∃ d : Delivery, d.before = Cursor.ofSource source ∧ ∃ behind,
      Production.program (d.behind.rest.length + 3) (d.reader #[]) = .ok program behind := by
  rw [ofSource, Reader.ofSource, Reader.ofCursor]
  constructor
  · intro h
    split at h
    · next hreader =>
      split at hreader
      · next ahead behind hnext =>
        obtain rfl := Except.ok.inj hreader
        refine ⟨⟨Cursor.ofSource source, ahead, congrArg Prod.fst hnext⟩, rfl, ?_⟩
        have hbehind : (Cursor.ofSource source).next.2 = behind := congrArg Prod.snd hnext
        rw [Reader.parse] at h
        split at h
        · next p reader hrun =>
          obtain rfl := Except.ok.inj h
          refine ⟨reader, ?_⟩
          rw [Delivery.reader, Delivery.behind, hbehind]
          exact hrun
        · cases h
        · cases h
      · cases hreader
    · cases h
  · rintro ⟨d, hd, behind, hrun⟩
    rw [← hd, d.next_before]
    have hparse : Reader.parse (d.reader #[]) = (.ok program, behind) := by
      have hbudget : (d.reader #[]).budget = d.behind.rest.length + 3 := rfl
      rw [Reader.parse, hbudget, hrun]
    exact congrArg Prod.fst hparse

theorem ofSource_sound (h : ofSource source = .ok program) :
    Agreeing DerivesProgram NearestElse (sentence source) program ∧
      ∀ last ∈ (sentence source).getLast?, ∃ next, last.behind.next.1 = .ok next := by
  obtain ⟨d, hd, behind, hrun⟩ := ofSource_eq_ok_iff.mp h
  obtain ⟨w, e, -, hspan, hw⟩ := program_sound _ d hrun
  obtain ⟨leaders, hderives, hn, hl⟩ := hw
  have hsentence : sentence source = w := by
    rw [sentence, ← hd, hspan.trail_eq hderives.ne_endOfInput]
    exact hderives.throughDot_append _
  rw [hsentence]
  refine ⟨⟨leaders, hderives, hn, hl⟩, fun last hlast => ⟨e.located, ?_⟩⟩
  rw [← hspan.before_of_getLast? hlast]
  exact e.delivers

theorem ofSource_complete
    (h : Agreeing DerivesProgram NearestElse (sentence source) program)
    (hfetch : ∀ last ∈ (sentence source).getLast?, ∃ next, last.behind.next.1 = .ok next) :
    ofSource source = .ok program := by
  obtain ⟨rest, hrest⟩ := throughDot_prefix (Cursor.ofSource source).trail
  obtain ⟨d, v, hv⟩ : ∃ d v, sentence source = d :: v := by
    obtain ⟨leaders, hderives, -⟩ := h
    generalize sentence source = w at hderives
    cases hderives with
    | intro => exact ⟨_, _, rfl⟩
  have htrail : (Cursor.ofSource source).trail = d :: (v ++ rest) := by
    rw [← hrest, ← List.cons_append, ← hv]
    rfl
  obtain ⟨hd, -, hbehind⟩ := Cursor.of_trail_eq_cons htrail
  rw [hv] at h hfetch
  have htrail' : d.before.trail = (d :: v) ++ rest := by rw [hd]; exact htrail
  obtain ⟨e, hspan⟩ := exists_span htrail' hfetch
  -- each token behind the first takes a character from the text behind it
  have hlength : v.length ≤ d.behind.rest.length := by
    have hle := Cursor.length_trail_le d.behind
    rw [hbehind, List.length_append] at hle
    omega
  refine ofSource_eq_ok_iff.mpr ⟨d, hd, _, program_complete h ?_ hspan #[]⟩
  rw [List.length_cons]
  omega

/-- **A text holds a program if and only if its sentence derives it** and the token behind the full
stop can be fetched. -/
theorem ofSource_exact (source : String) :
    (Cursor.ofSource source).trail.map Delivery.located = (Cursor.ofSource source).delivered.1 ∧
    (∀ program, ofSource source = .ok program ↔
      (∃ leaders, DerivesProgram (throughDot (Cursor.ofSource source).trail) program leaders ∧
        program.NearestElse ∧ ∀ d ∈ leaders, d.Agrees) ∧
      ∀ dot ∈ (throughDot (Cursor.ofSource source).trail).getLast?,
        ∃ next, dot.behind.next.1 = .ok next) ∧
    ((∃ program, ofSource source = .ok program) ↔
      (∃ program leaders, DerivesProgram (throughDot (Cursor.ofSource source).trail) program
        leaders ∧ ∀ d ∈ leaders, d.Agrees) ∧
      ∀ dot ∈ (throughDot (Cursor.ofSource source).trail).getLast?,
        ∃ next, dot.behind.next.1 = .ok next) := by
  refine ⟨(Cursor.delivered_fst _).symm, fun program => ⟨ofSource_sound, ?_⟩, ?_, ?_⟩
  · rintro ⟨h, hfetch⟩
    exact ofSource_complete h hfetch
  · rintro ⟨program, hok⟩
    obtain ⟨⟨leaders, h, -, hl⟩, hfetch⟩ := ofSource_sound hok
    exact ⟨⟨program, leaders, h, hl⟩, hfetch⟩
  · rintro ⟨⟨program, leaders, h, hl⟩, hfetch⟩
    obtain ⟨program', h', hn⟩ := h.exists_nearestElse
    exact ⟨program', ofSource_complete ⟨leaders, h', hn, hl⟩ hfetch⟩

end Program

end LusoPascal
