import Mathlib.Data.List.DropRight
import LusoPascal.Proofs.Text.Class
import LusoPascal.Text.Line

/-!
# What a diagnostic quotes

A place in a text has a line, one more than the number of line feeds before it. What is quoted of
that line holds all that stands at the place, as long as that holds no blank.

* `Quotes`: a text around the line with a number, and what is quoted of it;
* **`exists_quotes`**: an excerpt is what stands between two line feeds, without the blanks at its
  end;
* **`Quotes.holds`**: a slice of the text that holds no blank is in the excerpt of its line.
-/

namespace LusoPascal

/-- `Quotes n text above quoted blanks below`: the line with number `n` of a text, counted from one,
is `quoted` and the `blanks` behind it. It stands between the line feed at the end of `above` and
the one at the start of `below`, or it is the first line or the last one. -/
structure Quotes (n : Nat) (text above quoted blanks below : List Char) : Prop where
  text_eq : text = above ++ (quoted ++ (blanks ++ below))
  number : n = 1 + above.count '\n'
  starts : ∀ c ∈ above.getLast?, c = '\n'
  oneLine : '\n' ∉ quoted ++ blanks
  ends : ∀ c ∈ below.head?, c = '\n'
  onlyBlanks : ∀ c ∈ blanks, isBlank c = true
  trimmed : ∀ c ∈ quoted.getLast?, isBlank c = false

/-! ## Lines -/

section Lines

variable {c : Char} {k : Nat} {text above : List Char}

theorem lineAt_newline_one (text : List Char) : lineAt 1 ('\n' :: text) = [] := rfl

theorem lineAt_newline_succ (k : Nat) (text : List Char) :
    lineAt (k + 2) ('\n' :: text) = lineAt (k + 1) text := rfl

theorem lineAt_cons_one (hc : c ≠ '\n') : lineAt 1 (c :: text) = c :: lineAt 1 text := by
  obtain ⟨line, rest, hlines⟩ := List.exists_cons_of_ne_nil (lines_ne_nil text)
  rw [lineAt, lines, if_neg hc, lineAt, hlines]
  rfl

theorem lineAt_cons_succ (hc : c ≠ '\n') : lineAt (k + 2) (c :: text) = lineAt (k + 2) text := by
  obtain ⟨line, rest, hlines⟩ := List.exists_cons_of_ne_nil (lines_ne_nil text)
  rw [lineAt, lines, if_neg hc, lineAt, hlines]
  rfl

theorem eq_nil_of_starts (hstarts : ∀ c ∈ above.getLast?, c = '\n') (h : above.count '\n' = 0) :
    above = [] := by
  rw [← List.getLast?_eq_none_iff, Option.eq_none_iff_forall_not_mem]
  intro c hc
  obtain rfl := hstarts c hc
  exact List.count_eq_zero.mp h (List.mem_of_getLast? hc)

theorem starts_cons (hstarts : ∀ c ∈ above.getLast?, c = '\n') (hc : above = [] → c = '\n') :
    ∀ d ∈ (c :: above).getLast?, d = '\n' := by
  cases above with
  | nil => simpa using hc rfl
  | cons d above => rwa [List.getLast?_cons_cons]

theorem exists_lineAt (h : k ≤ text.count '\n') :
    ∃ above below, text = above ++ (lineAt (k + 1) text ++ below) ∧ k = above.count '\n' ∧
      (∀ c ∈ above.getLast?, c = '\n') ∧ '\n' ∉ lineAt (k + 1) text ∧
      ∀ c ∈ below.head?, c = '\n' := by
  induction text generalizing k with
  | nil =>
    obtain rfl := Nat.le_zero.mp h
    exact ⟨[], [], rfl, rfl, by simp, by simp [lineAt, lines], by simp⟩
  | cons c text ih =>
    by_cases hc : c = '\n'
    · subst hc
      rw [List.count_cons_self] at h
      cases k with
      | zero => exact ⟨[], '\n' :: text, rfl, rfl, by simp, by simp [lineAt_newline_one], by simp⟩
      | succ k =>
        obtain ⟨above, below, htext, hcount, hstarts, honeLine, hends⟩ :=
          ih (Nat.le_of_succ_le_succ h)
        rw [lineAt_newline_succ]
        refine ⟨'\n' :: above, below, congrArg _ htext, ?_, ?_, honeLine, hends⟩
        · rw [List.count_cons_self, hcount]
        · exact starts_cons hstarts fun _ => rfl
    · rw [List.count_cons_of_ne hc] at h
      obtain ⟨above, below, htext, hcount, hstarts, honeLine, hends⟩ := ih h
      cases k with
      | zero =>
        obtain rfl := eq_nil_of_starts hstarts hcount.symm
        rw [lineAt_cons_one hc]
        refine ⟨[], below, congrArg _ htext, rfl, by simp, ?_, hends⟩
        exact List.not_mem_cons_of_ne_of_not_mem (Ne.symm hc) honeLine
      | succ k =>
        rw [lineAt_cons_succ hc]
        refine ⟨c :: above, below, congrArg _ htext, ?_, ?_, honeLine, hends⟩
        · rw [List.count_cons_of_ne hc, hcount]
        · exact starts_cons hstarts fun hnil => by simp [hnil] at hcount

end Lines

/-! ## Excerpts -/

/-- **An excerpt is what stands between two line feeds**, without the blanks at its end. -/
theorem exists_quotes {n : Nat} {text : List Char} (hpos : 1 ≤ n) (hle : n ≤ 1 + text.count '\n') :
    ∃ above blanks below, Quotes n text above (excerpt n text) blanks below := by
  obtain ⟨k, rfl⟩ := Nat.exists_eq_add_of_le' hpos
  have hk : k ≤ text.count '\n' := by omega
  obtain ⟨above, below, htext, hcount, hstarts, honeLine, hends⟩ := exists_lineAt hk
  have hline : excerpt (k + 1) text ++ (lineAt (k + 1) text).rtakeWhile isBlank =
      lineAt (k + 1) text := List.rdropWhile_append_rtakeWhile ..
  refine ⟨above, (lineAt (k + 1) text).rtakeWhile isBlank, below,
    ?_, ?_, hstarts, ?_, hends, ?_, ?_⟩
  · rw [← List.append_assoc (excerpt _ _), hline, ← htext]
  · omega
  · rwa [hline]
  · exact fun c hc => List.mem_rtakeWhile_imp hc
  · intro c hc
    obtain ⟨hne, rfl⟩ := List.mem_getLast?_eq_getLast hc
    exact Bool.eq_false_iff.mpr (List.rdropWhile_last_not _ _ hne)

namespace Quotes

variable {n : Nat} {text above quoted blanks below before slice behind : List Char}

theorem exists_left (h : Quotes n text above quoted blanks below) (htext : text = before ++ behind)
    (hn : n = 1 + before.count '\n') : ∃ left, before = above ++ left ∧ '\n' ∉ left := by
  have hnumber := h.number
  have hsplit := htext.symm.trans h.text_eq
  rcases List.append_eq_append_iff.mp hsplit with ⟨left, rfl, -⟩ | ⟨left, rfl, -⟩
  · rw [List.count_append] at hnumber
    have hleft : left = [] := by
      refine eq_nil_of_starts (fun c hc => h.starts c ?_) (by omega)
      rw [List.getLast?_append, Option.mem_def.mp hc]
      rfl
    exact ⟨[], by simp [hleft], List.not_mem_nil⟩
  · rw [List.count_append] at hn
    exact ⟨left, rfl, List.count_eq_zero.mp (by omega)⟩

/-- What the end of a line cuts off is blank. -/
theorem isBlank_of_cut (h : Quotes n text above quoted blanks below) {cut : List Char}
    (hcut : blanks ++ below = cut ++ behind) (hline : '\n' ∉ cut) :
    ∀ c ∈ cut, isBlank c = true := by
  rcases List.append_eq_append_iff.mp hcut with ⟨more, rfl, hbelow⟩ | ⟨more, rfl, -⟩
  · cases more with
    | nil => exact (List.append_nil blanks).symm ▸ h.onlyBlanks
    | cons d more =>
      obtain rfl := h.ends d (by rw [hbelow]; rfl)
      exact absurd (List.mem_append_right _ List.mem_cons_self) hline
  · exact fun c hc => h.onlyBlanks c (List.mem_append_left _ hc)

/-- **A slice of the text that holds no blank is in the excerpt of its line.** -/
theorem holds (h : Quotes n text above quoted blanks below)
    (htext : text = before ++ (slice ++ behind)) (hn : n = 1 + before.count '\n')
    (hne : slice ≠ []) (hslice : ∀ c ∈ slice, isBlank c = false) :
    ∃ left right, before = above ++ left ∧ quoted = left ++ (slice ++ right) := by
  obtain ⟨left, rfl, hleft⟩ := h.exists_left htext hn
  have hrest := htext.symm.trans h.text_eq
  rw [List.append_assoc, List.append_cancel_left_eq, ← List.append_assoc] at hrest
  rcases List.append_eq_append_iff.mp hrest with ⟨right, rfl, -⟩ | ⟨cut, hcut, hblanks⟩
  · exact ⟨left, right, rfl, List.append_assoc ..⟩
  · have hline : '\n' ∉ cut := by
      intro hmem
      have hmem' : '\n' ∈ left ++ slice := hcut ▸ List.mem_append_right _ hmem
      exact (List.mem_append.mp hmem').elim hleft (newline_not_mem_of_isBlank hslice)
    -- the last character of the slice is no blank, so nothing is cut off
    obtain rfl : cut = [] := by
      rw [← List.getLast?_eq_none_iff, Option.eq_none_iff_forall_not_mem]
      intro c hc
      have hsame := congrArg List.getLast? hcut
      rw [List.getLast?_append, List.getLast?_append, List.getLast?_eq_some_getLast hne,
        Option.mem_def.mp hc, Option.some_or, Option.some_or, Option.some.injEq] at hsame
      have hblank := h.isBlank_of_cut hblanks hline c (List.mem_of_getLast? hc)
      rw [← hsame, hslice _ (List.getLast_mem hne)] at hblank
      cases hblank
    refine ⟨left, [], rfl, ?_⟩
    rw [List.append_nil] at hcut ⊢
    exact hcut.symm

end Quotes

end LusoPascal
