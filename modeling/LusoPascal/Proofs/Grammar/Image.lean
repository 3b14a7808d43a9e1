import LusoPascal.Proofs.Grammar.Acceptance
import LusoPascal.Proofs.Grammar.Rendered
import LusoPascal.Proofs.Grammar.WellFormed

/-!
# Which trees texts hold

The rendering of a well-formed program has a sentence of its own tokens, with one blank behind each
of them, so what is read back is the program on the first line.

* `Program.wellFormed_of_ofSource`: what a text holds is well-formed;
* `Program.WellFormed.ofSource_render`: a rendering is read back;
* **`Program.image_ofSource`**: up to lines, texts hold exactly the well-formed programs.
-/

namespace LusoPascal

namespace Program

open Delivery

variable {program : Program}

theorem wellFormed_of_ofSource {source : String} (h : ofSource source = .ok program) :
    program.WellFormed := by
  obtain ⟨⟨_, hderives, hn, -⟩, -⟩ := ofSource_sound h
  exact hderives.wellFormed hn

theorem ofSource_render_onWritten (program : Program) :
    (Cursor.ofSource program.render).OnWritten program.tokens :=
  ⟨.inl (by rw [Cursor.ofSource, render, String.toList_ofList]), rfl, rfl⟩

/-- The rendering of a well-formed program is read as the program on the first line. -/
theorem WellFormed.ofSource_render (h : program.WellFormed) :
    ofSource program.render = .ok (program.onLine 1) := by
  obtain ⟨d, w, e, hd, hw, he, hblank⟩ :=
    exists_spells program.ofSource_render_onWritten h.isWritable
  obtain ⟨leaders, hderives, hleads⟩ := h.derives hw
  have hsentence : sentence program.render = w := by
    rw [sentence, ← hd, hw.1.trail_eq hderives.ne_endOfInput]
    exact hderives.throughDot_append _
  refine ofSource_complete ?_ fun last hlast => ⟨e.located, ?_⟩ <;> rw [hsentence] at *
  · refine ⟨leaders, hderives, ((wellFormed_onLine 1).mpr h).nearestElse, fun c hc => ?_⟩
    obtain ⟨rest, hrest, hbehind⟩ := hblank c (hderives.leaders_subset hc)
    exact agrees_of_leads hbehind hrest (hleads c hc)
  · rw [← hw.1.before_of_getLast? hlast]
    exact e.delivers

/-- **Texts hold exactly the well-formed programs, up to lines.** A rendering holds its program with
all places on the first line. -/
theorem image_ofSource :
    (∀ source program, ofSource source = .ok program → program.WellFormed) ∧
    (∀ program : Program, program.WellFormed → ofSource program.render = .ok (program.onLine 1)) ∧
    (∀ program : Program, program.WellFormed ↔
      ∃ source parsed, ofSource source = .ok parsed ∧ parsed.onLine 1 = program.onLine 1) := by
  refine ⟨fun _ _ => wellFormed_of_ofSource, fun _ => WellFormed.ofSource_render,
    fun program => ⟨fun h => ?_, ?_⟩⟩
  · exact ⟨program.render, program.onLine 1, h.ofSource_render, onLine_onLine 1 program⟩
  · rintro ⟨source, parsed, hparsed, hlines⟩
    have hwf := (wellFormed_onLine 1).mpr (wellFormed_of_ofSource hparsed)
    rw [hlines] at hwf
    exact (wellFormed_onLine 1).mp hwf

end Program

end LusoPascal
