import Mathlib.Data.Nat.Digits.Defs
import LusoPascal.Proofs.Token.Course

/-!
# Runs of digits

A run of digits that no other digit touches stands in a comment or in an identifier, or it is read
as a number of its own, unless reading stops before it. The number has the value of the digits in
base ten, however many zeros it begins with.

* `decimalValue_eq_ofDigits`: the value of digits;
* `DigitRun`: a run of digits between two texts in which it does not go on;
* `Pattern.Stands.of_digitRun`: the slices that can hold such a run behind their start;
* **`Scans.place_of_digitRun`**: where such a run stands in a text;
* `BreaksOff`: a fault stands behind some tokens of a text;
* **`Scans.next_at_digitRun`**: what is fetched where reading comes to such a run.
-/

namespace LusoPascal

/-- The value of a run of digits is the number that they write in base ten. -/
theorem decimalValue_eq_ofDigits (digits : List Char) :
    decimalValue digits = Nat.ofDigits 10 (digits.reverse.map fun c => c.toNat - '0'.toNat) := by
  rw [Nat.ofDigits_eq_foldr, List.foldr_map, List.foldr_reverse, decimalValue]
  refine congrArg (fun f => List.foldl f 0 digits) ?_
  funext value digit
  exact Nat.add_comm _ _

/-- A run of digits between two texts in which it does not go on. -/
structure DigitRun (before run behind : List Char) : Prop where
  ne_nil : run ≠ []
  isDigit : ∀ c ∈ run, c.isDigit = true
  before : ∀ c ∈ before.getLast?, c.isDigit = false
  behind : ∀ c ∈ behind.head?, c.isDigit = false

/-! ## Where a run stands -/

section Place

variable {before run behind slice rest left text : List Char} {pattern : Pattern}

theorem DigitRun.stands (h : DigitRun before run behind) : Pattern.digits.Stands run behind :=
  ⟨⟨h.ne_nil, h.isDigit⟩, h.behind⟩

theorem DigitRun.of_append (h : DigitRun (left ++ before) run behind) :
    DigitRun before run behind where
  ne_nil := h.ne_nil
  isDigit := h.isDigit
  before c hc := h.before c (by rw [List.getLast?_append, Option.mem_def.mp hc]; rfl)
  behind := h.behind

theorem isAlphanum_of_isDigit {c : Char} (h : c.isDigit = true) : c.isAlphanum = true := by
  rw [Char.isAlphanum, h, Bool.or_true]

theorem any_isDigit_of_reserved :
    ∀ entry ∈ reservedWords, entry.1.toList.any Char.isDigit = false := by
  decide

theorem any_isDigit_of_operator :
    ∀ entry ∈ operatorSpellings, entry.1.toList.any Char.isDigit = false := by
  decide

/-- **A slice that a run begins in is a comment or an identifier**, and it holds the whole run. -/
theorem Pattern.Stands.of_digitRun {inside : List Char}
    (h : pattern.Stands (left ++ inside) rest) (hrun : DigitRun left run behind)
    (hleft : left ≠ []) (hinside : inside ≠ []) (htext : inside ++ rest = run ++ behind) :
    pattern ∈ [.lineComment, .braceComment, .identifier] ∧ ∃ right, inside = run ++ right := by
  obtain ⟨c, hc, hdigit⟩ : ∃ c ∈ left ++ inside, c.isDigit = true := by
    obtain ⟨c, inside, rfl⟩ := List.exists_cons_of_ne_nil hinside
    obtain ⟨d, run, rfl⟩ := List.exists_cons_of_ne_nil hrun.ne_nil
    obtain ⟨rfl, -⟩ := List.cons.inj htext
    exact ⟨c, by simp, hrun.isDigit c List.mem_cons_self⟩
  -- if the slice were shorter than the run, a digit would come next
  have hwhole : (∀ d ∈ rest.head?, d.isDigit = false) → ∃ right, inside = run ++ right := by
    intro hrest
    rcases List.append_eq_append_iff.mp htext with ⟨more, hmore, hbehind⟩ | ⟨right, hright, -⟩
    · cases more with
      | nil => exact ⟨[], by rw [hmore, List.append_nil, List.append_nil]⟩
      | cons d more =>
        have hd := hrest d (by rw [hbehind]; rfl)
        rw [hrun.isDigit d (by rw [hmore]; simp)] at hd
        cases hd
    · exact ⟨right, hright⟩
  cases pattern with
  | blanks =>
    have hspace := isSpace_of_isAlphanum (isAlphanum_of_isDigit hdigit)
    rw [h.1.2 c hc] at hspace
    cases hspace
  | word spelling kind =>
    rw [h.1.2] at hc
    exact absurd hdigit (List.any_eq_false.mp (any_isDigit_of_reserved _ h.1.1) c hc)
  | operator spelling kind =>
    rw [h.1.2] at hc
    exact absurd hdigit (List.any_eq_false.mp (any_isDigit_of_operator _ h.1.1) c hc)
  | digits =>
    have hlast := hrun.before (left.getLast hleft) (List.getLast?_eq_some_getLast hleft)
    rw [h.1.2 _ (List.mem_append_left _ (List.getLast_mem hleft))] at hlast
    cases hlast
  | identifier =>
    refine ⟨by simp, hwhole fun d hd => ?_⟩
    by_contra hdigit'
    rw [Bool.not_eq_false] at hdigit'
    have hword := h.2 d hd
    rw [isAlphanum_of_isDigit hdigit'] at hword
    cases hword
  | lineComment =>
    refine ⟨by simp, hwhole fun d hd => ?_⟩
    rw [h.2 d hd]
    decide
  | braceComment =>
    refine ⟨by simp, ?_⟩
    obtain ⟨body, -, ⟨-, rfl⟩ | hclosed⟩ := h
    · exact hwhole (by simp)
    · rcases List.append_eq_append_iff.mp htext with ⟨more, hmore, -⟩ | ⟨right, hright, -⟩
      · -- the last character of the slice is the closing brace, which no run holds
        have hlast : (left ++ inside).getLast? = some '\x7d' := by
          rw [hclosed, ← List.cons_append, List.getLast?_concat]
        rw [List.getLast?_append, List.getLast?_eq_some_getLast hinside] at hlast
        have hbrace := hrun.isDigit (inside.getLast hinside)
          (by rw [hmore]; exact List.mem_append_left _ (List.getLast_mem hinside))
        rw [Option.some.inj hlast] at hbrace
        exact absurd hbrace (by decide)
      · exact ⟨right, hright⟩

/-- Reading comes to a place of a text: the slices before it are those of some pieces. -/
def ComesTo (pieces : List Piece) (before : List Char) (earlier later : List Piece) : Prop :=
  pieces = earlier ++ later ∧ earlier.flatMap Piece.slice = before

/-- **Where a run of digits stands.** Reading comes to the run, or the run is inside a comment or an
identifier, or a fault stops reading before it. -/
theorem Scans.place_of_digitRun {pieces : List Piece} {fault? : Option Fault}
    (h : Scans text pieces rest fault?) (htext : text = before ++ (run ++ behind))
    (hrun : DigitRun before run behind) :
    (∃ earlier later, ComesTo pieces before earlier later) ∨
    (∃ earlier piece later left right, pieces = earlier ++ piece :: later ∧
      piece.pattern ∈ [.lineComment, .braceComment, .identifier] ∧
      before = earlier.flatMap Piece.slice ++ left ∧ left ≠ [] ∧
      piece.slice = left ++ (run ++ right)) ∨
    ∃ left, left ≠ [] ∧ rest = left ++ (run ++ behind) ∧ fault? ≠ none := by
  by_cases hbefore : before = []
  · exact .inl ⟨[], pieces, rfl, hbefore.symm⟩
  induction h generalizing before with
  | done =>
    obtain ⟨-, hnil⟩ := List.append_eq_nil_iff.mp htext.symm
    exact absurd (List.append_eq_nil_iff.mp hnil).1 hrun.ne_nil
  | stray | fault => exact .inr (.inr ⟨before, hbefore, htext, Option.some_ne_none _⟩)
  | @piece pattern slice behind' text rest token? pieces fault? hsplit hwins hok hbehind ih =>
    rw [← hsplit] at htext hwins
    rcases List.append_eq_append_iff.mp htext with
      ⟨before', rfl, htext'⟩ | ⟨inside, rfl, htext'⟩
    · by_cases hbefore' : before' = []
      · subst hbefore'
        exact .inl ⟨[⟨pattern, slice, token?⟩], pieces, rfl, by simp⟩
      rcases ih htext' hrun.of_append hbefore' with
        ⟨earlier, later, rfl, rfl⟩ |
        ⟨earlier, piece, later, left, right, rfl, hholds, rfl, hleft, hslice⟩ | hstopped
      · exact .inl ⟨⟨pattern, slice, token?⟩ :: earlier, later, rfl, rfl⟩
      · refine .inr (.inl ⟨⟨pattern, slice, token?⟩ :: earlier, piece, later, left, right, rfl,
          hholds, ?_, hleft, hslice⟩)
        rw [List.flatMap_cons, List.append_assoc]
      · exact .inr (.inr hstopped)
    · by_cases hinside : inside = []
      · subst hinside
        exact .inl ⟨[⟨pattern, before ++ [], token?⟩], pieces, rfl, by simp⟩
      obtain ⟨hholds, right, rfl⟩ :=
        hwins.stands.of_digitRun hrun hbefore hinside htext'.symm
      exact .inr (.inl ⟨[], _, pieces, before, right, rfl, hholds, rfl, hbefore, rfl⟩)

end Place

/-! ## What is fetched at a run -/

/-- Behind some fetches a fault is fetched, and then the end of the text over and over, on the line
of the fault; so the text has no list of tokens. -/
structure BreaksOff (source : String) (fetches : Nat) (error : LexicalError) : Prop where
  fetched : ((Cursor.ofSource source).after fetches).next.1 = .error error
  atRest : ∀ more, ((Cursor.ofSource source).after (fetches + 1 + more)).next.1 =
    .ok ⟨.endOfInput, error.line⟩
  tokenize : tokenize source = .error error

theorem Pattern.outcome_digits (run behind : List Char) :
    digits.outcome run behind = (numberToken run behind).map some := by
  rw [outcome, numberToken]
  split
  · rfl
  · split <;> rfl

theorem Scans.breaksOff {source : String} {pieces : List Piece} {rest : List Char} {found : Fault}
    (h : Scans source.toList pieces rest (some found)) :
    BreaksOff source (pieces.filterMap Piece.token?).length
      ⟨found, 1 + (pieces.flatMap Piece.slice).count '\n'⟩ := by
  obtain ⟨behind, hnext⟩ := h.next_at_end 1
  refine ⟨congrArg Prod.fst hnext, fun more => ?_, ?_⟩
  · have hafter : (Cursor.ofSource source).after ((pieces.filterMap Piece.token?).length + 1) =
        ⟨behind, _, true⟩ := congrArg Prod.snd hnext
    rw [Cursor.after_add, hafter, Cursor.after_of_finished rfl, Cursor.next_of_finished rfl]
  · rw [tokenize, Cursor.ofSource, h.delivered_eq 1]
    rfl

/-- **A run of digits is fetched where reading comes to it**, as a number or as a fault. -/
theorem Scans.next_at_digitRun {source : String} {earlier later : List Piece}
    {before run behind rest : List Char} {fault? : Option Fault}
    (h : Scans source.toList (earlier ++ later) rest fault?)
    (hplace : earlier.flatMap Piece.slice = before)
    (htext : source.toList = before ++ (run ++ behind)) (hrun : DigitRun before run behind) :
    match numberToken run behind with
    | .ok token =>
      ((Cursor.ofSource source).after (earlier.filterMap Piece.token?).length).next.1 =
        .ok ⟨token, 1 + before.count '\n'⟩
    | .error found => BreaksOff source (earlier.filterMap Piece.token?).length
        ⟨found, 1 + before.count '\n'⟩ := by
  have hlater : Scans (run ++ behind) later rest fault? := by
    have hdrop := h.drop
    have happend := h.append
    rw [List.flatMap_append, hplace, List.append_assoc, htext,
      List.append_cancel_left_eq] at happend
    rwa [happend] at hdrop
  have hwins := hrun.stands.wins
  have houtcome := Pattern.outcome_digits run behind
  cases hnumber : numberToken run behind with
  | ok token =>
    rw [hnumber] at houtcome
    obtain ⟨pieces, rest', fault'?, hbehind, -⟩ := exists_scans behind 1
    obtain ⟨rfl, rfl, rfl⟩ := hlater.unique (Scans.piece rfl hwins houtcome hbehind)
    have hnext := h.next_at_token 1
    rw [hplace] at hnext
    exact congrArg Prod.fst hnext
  | error found =>
    rw [hnumber] at houtcome
    obtain ⟨rfl, rfl, rfl⟩ := hlater.unique (Scans.fault rfl hwins houtcome)
    rw [List.append_nil] at h
    rw [← hplace]
    exact h.breaksOff

end LusoPascal
