import LusoPascal.Proofs.Token.Delivery
import LusoPascal.Proofs.Token.Pattern

/-!
# The segmentation of a text

A text is cut into slices by one rule alone: at each place the pattern that wins takes its slice.
Reading stops at the end of the text, at a number that is at fault, or at a character where no
pattern matches.

* `Pattern.outcome`: what a slice gives, judged with the text behind it;
* `Piece`, `Scans`: the slices of a text, and where and why reading stops;
* `Piece.Stands`, `Scans.exists_stands`: a piece before a text, and the first piece of one;
* `Scans.unique`, `Scans.append`: there is one segmentation, and nothing is lost;
* `Pattern.Stands.splitTrivia_eq`, `exists_outcome`: what trivia and readings are made of;
* `Pattern.Stands.scan?_of_outcome`: where a token or a faulty number stands, it is read;
* `Pattern.Stands.isBlank_eq_false`: no token holds a blank;
* **`exists_piece_of_locatedTokens`**, `exists_split_of_mem_delivered`: where a token stands, and
  that its line counts the line feeds before it;
* **`tokenize_exact`**: the tokens of a text are those of its segmentation.
-/

namespace LusoPascal

/-! ## Segmentations -/

/-- What a slice gives, judged with the text behind it: nothing if it is skipped, else a token, or a
fault for a number that is too large or has a full stop right behind it. -/
def Pattern.outcome : Pattern → List Char → List Char → Except Fault (Option Token)
  | blanks, _, _ | lineComment, _, _ | braceComment, _, _ => .ok none
  | word spelling kind, _, _ =>
    .ok (some (if kind = .booleanLiteral then ⟨kind, .boolean (spelling == "verdadeiro")⟩
      else ⟨kind, .text spelling⟩))
  | identifier, slice, _ => .ok (some ⟨.identifier, .text (String.ofList slice)⟩)
  | digits, slice, rest =>
    if rest.head? = some '.' then .error (.pointAfterNumber (String.ofList slice))
    else if decimalValue slice ≤ maxInteger then
      .ok (some ⟨.integerLiteral, .integer (decimalValue slice)⟩)
    else .error (.numberTooLarge (String.ofList slice))
  | operator spelling kind, _, _ => .ok (some ⟨kind, .text spelling⟩)

/-- A slice of a text, the pattern that takes it, and its token unless it is skipped. -/
structure Piece where
  pattern : Pattern
  slice : List Char
  token? : Option Token
deriving DecidableEq

/-- A piece stands before a text if its slice does, and gives its token there. -/
structure Piece.Stands (piece : Piece) (rest : List Char) : Prop where
  stands : piece.pattern.Stands piece.slice rest
  outcome : piece.pattern.outcome piece.slice rest = .ok piece.token?

/-- The tokens of pieces with their lines, the first of which is given. -/
def locatedTokens (line : Nat) : List Piece → List Located
  | [] => []
  | piece :: pieces =>
    (piece.token?.map fun token => ⟨token, line⟩).toList ++
      locatedTokens (line + piece.slice.count '\n') pieces

/-- `Scans text pieces rest fault?`: the patterns that win one after the other cut `pieces` off the
text, and reading stops before `rest`, at the end of the text or for a fault. -/
inductive Scans : List Char → List Piece → List Char → Option Fault → Prop
  | done : Scans [] [] [] none
  | stray {c : Char} {text : List Char} (hc : text.head? = some c)
      (hnone : ∀ (pattern : Pattern) slice, slice <+: text → ¬ pattern.Matches slice) :
      Scans text [] text (some (.strayCharacter c))
  | fault {pattern : Pattern} {slice behind text : List Char} {fault : Fault}
      (htext : slice ++ behind = text) (hwins : pattern.Wins slice text)
      (hfault : pattern.outcome slice behind = .error fault) : Scans text [] text (some fault)
  | piece {pattern : Pattern} {slice behind text rest : List Char} {token? : Option Token}
      {pieces : List Piece} {fault? : Option Fault} (htext : slice ++ behind = text)
      (hwins : pattern.Wins slice text) (hok : pattern.outcome slice behind = .ok token?)
      (hbehind : Scans behind pieces rest fault?) :
      Scans text (⟨pattern, slice, token?⟩ :: pieces) rest fault?

theorem Pattern.outcome_ne_stray {pattern : Pattern} {slice rest : List Char} {c : Char} :
    pattern.outcome slice rest ≠ .error (.strayCharacter c) := by
  intro h
  cases pattern with
  | digits =>
    rw [outcome] at h
    split at h
    · cases h
    · split at h <;> cases h
  | _ => cases h

theorem Pattern.of_outcome_digits {slice rest : List Char} {token? : Option Token}
    (h : digits.outcome slice rest = .ok token?) :
    token? = some ⟨.integerLiteral, .integer (decimalValue slice)⟩ := by
  rw [outcome] at h
  split at h
  · cases h
  · split at h
    · exact (Except.ok.inj h).symm
    · cases h

theorem Pattern.Wins.text_ne_nil {pattern : Pattern} {slice text : List Char}
    (h : pattern.Wins slice text) : text ≠ [] := by
  rintro rfl
  exact h.isMatch.ne_nil (List.prefix_nil.mp h.starts)

namespace Scans

variable {text rest rest' : List Char} {pieces pieces' : List Piece} {fault? fault'? : Option Fault}

theorem exists_stands {piece : Piece} (h : Scans text (piece :: pieces) rest fault?) :
    ∃ behind, piece.slice ++ behind = text ∧ piece.Stands behind ∧
      Scans behind pieces rest fault? := by
  cases h with
  | piece htext hwins hok hbehind =>
    subst htext
    exact ⟨_, rfl, ⟨hwins.stands, hok⟩, hbehind⟩

theorem append (h : Scans text pieces rest fault?) : pieces.flatMap Piece.slice ++ rest = text := by
  induction h with
  | done | stray | fault => rfl
  | piece htext _ _ _ ih => rw [List.flatMap_cons, List.append_assoc, ih, htext]

theorem drop {earlier later : List Piece} (h : Scans text (earlier ++ later) rest fault?) :
    Scans (later.flatMap Piece.slice ++ rest) later rest fault? := by
  induction earlier generalizing text with
  | nil =>
    rw [List.nil_append] at h
    rwa [h.append]
  | cons piece earlier ih =>
    obtain ⟨behind, -, -, hbehind⟩ := h.exists_stands
    exact ih hbehind

theorem exists_stands_at {earlier later : List Piece} {piece : Piece}
    (h : Scans text (earlier ++ piece :: later) rest fault?) :
    ∃ behind, text = earlier.flatMap Piece.slice ++ (piece.slice ++ behind) ∧
      piece.Stands behind := by
  obtain ⟨behind, htext, hstands, -⟩ := h.drop.exists_stands
  refine ⟨behind, ?_, hstands⟩
  rw [htext, ← List.append_assoc, ← List.flatMap_append, h.append]

theorem fault?_eq_none_iff (h : Scans text pieces rest fault?) : fault? = none ↔ rest = [] := by
  induction h with
  | done => exact iff_of_true rfl rfl
  | stray hc => exact iff_of_false (Option.some_ne_none _) (by rintro rfl; cases hc)
  | fault _ hwins => exact iff_of_false (Option.some_ne_none _) hwins.text_ne_nil
  | piece _ _ _ _ ih => exact ih

theorem stray_iff {c : Char} (h : Scans text pieces rest fault?) :
    fault? = some (.strayCharacter c) ↔ rest.head? = some c ∧
      ∀ (pattern : Pattern) slice, slice <+: rest → ¬ pattern.Matches slice := by
  induction h with
  | done => simp
  | @stray d text hd hnone =>
    rw [hd, Option.some.injEq, Option.some.injEq, Fault.strayCharacter.injEq]
    exact ⟨fun h => ⟨h, hnone⟩, And.left⟩
  | fault _ hwins hfault =>
    refine iff_of_false ?_ fun h => h.2 _ _ hwins.starts hwins.isMatch
    rintro h
    obtain rfl := Option.some.inj h
    exact Pattern.outcome_ne_stray hfault
  | piece _ _ _ _ ih => exact ih

/-- **A text has one segmentation.** -/
theorem unique (h : Scans text pieces rest fault?) (h' : Scans text pieces' rest' fault'?) :
    pieces' = pieces ∧ rest' = rest ∧ fault'? = fault? := by
  induction h generalizing pieces' rest' fault'? with
  | done =>
    cases h' with
    | done => exact ⟨rfl, rfl, rfl⟩
    | stray hc => cases hc
    | fault _ hwins | piece _ hwins => exact absurd rfl hwins.text_ne_nil
  | stray hc hnone =>
    cases h' with
    | done => cases hc
    | stray hc' =>
      obtain rfl := Option.some.inj (hc.symm.trans hc')
      exact ⟨rfl, rfl, rfl⟩
    | fault _ hwins | piece _ hwins => exact absurd hwins.isMatch (hnone _ _ hwins.starts)
  | fault htext hwins hfault =>
    cases h' with
    | done => exact absurd rfl hwins.text_ne_nil
    | stray hc hnone => exact absurd hwins.isMatch (hnone _ _ hwins.starts)
    | fault htext' hwins' hfault' =>
      obtain ⟨rfl, rfl⟩ := hwins.unique hwins'
      obtain rfl := List.append_cancel_left (htext.trans htext'.symm)
      cases hfault.symm.trans hfault'
      exact ⟨rfl, rfl, rfl⟩
    | piece htext' hwins' hok =>
      obtain ⟨rfl, rfl⟩ := hwins.unique hwins'
      obtain rfl := List.append_cancel_left (htext.trans htext'.symm)
      cases hfault.symm.trans hok
  | piece htext hwins hok _ ih =>
    cases h' with
    | done => exact absurd rfl hwins.text_ne_nil
    | stray hc hnone => exact absurd hwins.isMatch (hnone _ _ hwins.starts)
    | fault htext' hwins' hfault' =>
      obtain ⟨rfl, rfl⟩ := hwins.unique hwins'
      obtain rfl := List.append_cancel_left (htext.trans htext'.symm)
      cases hok.symm.trans hfault'
    | piece htext' hwins' hok' hbehind' =>
      obtain ⟨rfl, rfl⟩ := hwins.unique hwins'
      obtain rfl := List.append_cancel_left (htext.trans htext'.symm)
      cases hok.symm.trans hok'
      obtain ⟨rfl, hrest⟩ := ih hbehind'
      exact ⟨rfl, hrest⟩

end Scans

/-! ## Trivia -/

section Trivia

variable {run rest slice text : List Char} {c : Char}

/-- Trivia that keeps its reader where it stands is split off as a whole. -/
theorem splitTrivia_run {mode : TriviaMode}
    (h : ∀ c ∈ run, ∀ next, mode.after? c next = some mode) (rest : List Char) :
    splitTrivia mode (run ++ rest) =
      (run ++ (splitTrivia mode rest).1, (splitTrivia mode rest).2) := by
  induction run with
  | nil => rfl
  | cons c run ih =>
    rw [List.forall_mem_cons] at h
    rw [List.cons_append, splitTrivia, h.1]
    dsimp only
    rw [ih h.2, List.cons_append]

/-- A line feed is a blank as well, so it does not matter which of the two ends a line comment. -/
theorem splitTrivia_lineComment (h : ∀ c ∈ rest.head?, c = '\n') :
    splitTrivia .lineComment rest = splitTrivia .between rest := by
  cases rest with
  | nil => rfl
  | cons c rest =>
    obtain rfl := h c rfl
    rfl

/-- **A skipped slice is split off with the trivia.** -/
theorem Pattern.Stands.splitTrivia_eq {pattern : Pattern} (h : pattern.Stands slice rest)
    (hskip : pattern.outcome slice rest = .ok none) :
    splitTrivia .between (slice ++ rest) =
      (slice ++ (splitTrivia .between rest).1, (splitTrivia .between rest).2) := by
  cases pattern with
  | blanks =>
    refine splitTrivia_run (fun c hc next => ?_) rest
    rw [TriviaMode.after?, if_pos (h.1.2 c hc)]
  | lineComment =>
    obtain ⟨⟨body, hbody, rfl⟩, hrest⟩ := h
    have hrun : ∀ c ∈ '/' :: body, ∀ next,
        TriviaMode.lineComment.after? c next = some .lineComment := by
      intro c hc next
      rw [TriviaMode.after?, if_neg]
      rintro rfl
      simp [hbody] at hc
    have hsplit := splitTrivia_run hrun rest
    rw [splitTrivia_lineComment hrest] at hsplit
    change ('/' :: (splitTrivia .lineComment ('/' :: body ++ rest)).1,
      (splitTrivia .lineComment ('/' :: body ++ rest)).2) = _
    rw [hsplit]
    rfl
  | braceComment =>
    obtain ⟨body, hbody, h⟩ := h
    have hrun : ∀ c ∈ body, ∀ next,
        TriviaMode.braceComment.after? c next = some .braceComment := by
      intro c hc next
      rw [TriviaMode.after?, if_neg]
      rintro rfl
      exact hbody hc
    have hsplit := splitTrivia_run hrun
    obtain ⟨rfl, rfl⟩ | rfl := h
    · change ('\x7b' :: (splitTrivia .braceComment (body ++ [])).1,
        (splitTrivia .braceComment (body ++ [])).2) = _
      rw [hsplit]
      rfl
    · rw [List.cons_append, List.append_assoc]
      change ('\x7b' :: (splitTrivia .braceComment (body ++ '\x7d' :: rest)).1,
        (splitTrivia .braceComment (body ++ '\x7d' :: rest)).2) = _
      rw [hsplit, List.cons_append, List.append_assoc]
      rfl
  | digits => cases of_outcome_digits hskip
  | word | identifier | operator => cases hskip

theorem not_mem_takeWhile (stop : Char) : stop ∉ text.takeWhile (· != stop) := by
  intro h
  simpa using List.mem_takeWhile_imp h

theorem not_of_mem_head?_dropWhile {p : Char → Bool} (h : c ∈ (text.dropWhile p).head?) :
    p c = false := by
  have hnot := List.head?_dropWhile_not p text
  rw [Option.mem_def.mp h] at hnot
  exact hnot

/-- Where trivia begins, a pattern stands whose slice is skipped. -/
theorem exists_stands_of_trivia {mode : TriviaMode}
    (h : TriviaMode.between.after? c text.head? = some mode) :
    ∃ (pattern : Pattern) (slice rest : List Char), slice ++ rest = c :: text ∧
      pattern.Stands slice rest ∧ pattern.outcome slice rest = .ok none := by
  rw [TriviaMode.after?] at h
  split at h
  · next hspace =>
    refine ⟨.blanks, (c :: text).takeWhile isSpace, (c :: text).dropWhile isSpace,
      List.takeWhile_append_dropWhile, ⟨⟨?_, ?_⟩, ?_⟩, rfl⟩
    · rw [List.takeWhile_cons_of_pos hspace]
      exact List.cons_ne_nil _ _
    · exact fun d hd => List.mem_takeWhile_imp hd
    · exact fun d hd => not_of_mem_head?_dropWhile hd
  · split at h
    · next hbrace =>
      subst hbrace
      refine ⟨.braceComment, ?_⟩
      have hsplit : text.takeWhile (· != '\x7d') ++ text.dropWhile (· != '\x7d') = text :=
        List.takeWhile_append_dropWhile
      cases hrest : text.dropWhile (· != '\x7d') with
      | nil =>
        rw [hrest, List.append_nil] at hsplit
        refine ⟨'\x7b' :: text, [], List.append_nil _, ⟨text, ?_, .inl ⟨rfl, rfl⟩⟩, rfl⟩
        rw [← hsplit]
        exact not_mem_takeWhile _
      | cons d rest =>
        have hhead : d ∈ (text.dropWhile (· != '\x7d')).head? := by rw [hrest]; rfl
        obtain rfl : d = '\x7d' := by simpa using not_of_mem_head?_dropWhile hhead
        refine ⟨'\x7b' :: (text.takeWhile (· != '\x7d') ++ ['\x7d']), rest, ?_,
          ⟨_, not_mem_takeWhile _, .inr rfl⟩, rfl⟩
        rw [List.cons_append, List.append_assoc, List.singleton_append, ← hrest, hsplit]
    · split at h
      · next hslash =>
        obtain ⟨rfl, hhead⟩ := hslash
        obtain ⟨text, rfl⟩ := List.head?_eq_some_iff.mp hhead
        refine ⟨.lineComment, '/' :: '/' :: text.takeWhile (· != '\n'),
          text.dropWhile (· != '\n'), ?_, ⟨⟨_, not_mem_takeWhile _, rfl⟩, ?_⟩, rfl⟩
        · rw [List.cons_append, List.cons_append, List.takeWhile_append_dropWhile]
        · intro d hd
          simpa using not_of_mem_head?_dropWhile hd
      · cases h

theorem splitTrivia_of_none (h : TriviaMode.between.after? c text.head? = none) :
    splitTrivia .between (c :: text) = ([], c :: text) := by
  rw [splitTrivia, h]

end Trivia

/-! ## Readings -/

section Readings

variable {text : List Char} {c : Char} {kind : TokenKind} {size : Nat} {reading : Reading}

theorem exists_outcome_of_isAlpha (hc : c.isAlpha = true) (rest : List Char)
    (hrest : ∀ d ∈ rest.head?, d.isAlphanum = false) {run : List Char}
    (hrun : ∀ d ∈ run, d.isAlphanum = true) :
    ∃ pattern : Pattern, pattern.Stands (c :: run) rest ∧
      pattern.outcome (c :: run) rest = .ok (some (wordToken (c :: run))) := by
  have hword : IsWord (c :: run) := ⟨hc, hrun⟩
  cases hlookup : reservedWords.lookup (String.ofList (c :: run)) with
  | none =>
    refine ⟨.identifier, ⟨⟨hword, lookup_reservedWords_eq_none_iff.mp hlookup⟩, hrest⟩, ?_⟩
    rw [wordToken, hlookup]
    rfl
  | some kind =>
    have hmem : (String.ofList (c :: run), kind) ∈ reservedWords := by
      obtain ⟨before, behind, hsplit, -⟩ := List.lookup_eq_some_iff.mp hlookup
      rw [hsplit]
      simp
    refine ⟨.word (String.ofList (c :: run)) kind, ⟨⟨hmem, String.toList_ofList.symm⟩, hrest⟩, ?_⟩
    rw [wordToken, hlookup, Pattern.outcome]
    cases kind <;> rfl

theorem stands_of_operator? (h : operator? text = some (kind, size))
    (hslash : ¬ ['/', '/'] <+: text) :
    (Pattern.operator (String.ofList (text.take size)) kind).Stands (text.take size)
      (text.drop size) := by
  unfold operator? at h
  split at h <;> simp only [Option.some.injEq, Prod.mk.injEq, reduceCtorEq] at h <;>
    obtain ⟨rfl, rfl⟩ := h
  all_goals
    refine ⟨⟨?_, String.toList_ofList.symm⟩, fun c hc hgrowth => ?_⟩
    · simp only [List.take_succ_cons, List.take_zero]
      decide
  -- four operators can be lengthened, and `operator?` or the lack of trivia excludes each way
  case h_6.refine_2 tail hequal hgreater =>
    obtain ⟨tail, rfl⟩ : ∃ rest, tail = c :: rest := List.head?_eq_some_iff.mp hc
    rcases List.mem_cons.mp hgrowth with rfl | hgrowth
    · exact hequal tail rfl
    · obtain rfl := List.mem_singleton.mp hgrowth
      exact hgreater tail rfl
  case h_7.refine_2 tail hequal | h_8.refine_2 tail hequal =>
    obtain ⟨tail, rfl⟩ : ∃ rest, tail = c :: rest := List.head?_eq_some_iff.mp hc
    obtain rfl := List.mem_singleton.mp hgrowth
    exact hequal tail rfl
  case h_15.refine_2 tail =>
    obtain ⟨tail, rfl⟩ : ∃ rest, tail = c :: rest := List.head?_eq_some_iff.mp hc
    obtain rfl := List.mem_singleton.mp hgrowth
    exact hslash ⟨tail, rfl⟩
  all_goals cases hgrowth

theorem ne_none_of_mark : ∀ c ∈ '/' :: ":<>=,;.+-*()".toList, operator? (c :: text) ≠ none := by
  intro c hc
  simp only [String.reduceToList, List.mem_cons, List.not_mem_nil, or_false] at hc
  rcases hc with rfl | rfl | rfl | rfl | rfl | rfl | rfl | rfl | rfl | rfl | rfl | rfl | rfl
  -- the three that another character may lengthen
  case inr.inl | inr.inr.inl | inr.inr.inr.inl =>
    unfold operator?
    split <;> first | exact Option.some_ne_none _ | simp_all
  all_goals exact Option.some_ne_none _

/-- A character that begins neither trivia nor a token begins no slice. -/
theorem not_matches_of_stray (htrivia : TriviaMode.between.after? c text.head? = none)
    (halpha : ¬ c.isAlpha = true) (hdigit : ¬ c.isDigit = true)
    (hoperator : operator? (c :: text) = none) (pattern : Pattern) {slice : List Char}
    (hslice : slice <+: c :: text) : ¬ pattern.Matches slice := by
  intro h
  have hmark : c ∉ '/' :: ":<>=,;.+-*()".toList := fun hc => ne_none_of_mark c hc hoperator
  rw [List.mem_cons, not_or] at hmark
  have hstray : initial c = .stray := by
    rw [TriviaMode.after?] at htrivia
    split at htrivia
    · cases htrivia
    · next hspace =>
      split at htrivia
      · cases htrivia
      · next hbrace =>
        rw [initial, if_neg hspace, if_neg halpha, if_neg hdigit, if_neg hmark.1, if_neg hbrace,
          if_neg hmark.2]
  obtain ⟨d, run, rfl⟩ := List.exists_cons_of_ne_nil h.ne_nil
  obtain ⟨rfl, -⟩ := List.cons_prefix_cons.mp hslice
  have hinitial := h.initial_mem
  rw [hstray] at hinitial
  cases pattern <;> simp [Pattern.initials] at hinitial

/-- **What is read where no trivia begins is what the pattern that stands there gives**, unless no
pattern matches. -/
theorem exists_outcome (htrivia : TriviaMode.between.after? c text.head? = none)
    (hscan : scan? (c :: text) = some reading) :
    (∃ pattern : Pattern, pattern.Stands reading.text reading.rest ∧
      pattern.outcome reading.text reading.rest = reading.outcome.map some) ∨
    (reading.outcome = .error (.strayCharacter c) ∧
      ∀ (pattern : Pattern) (slice : List Char), slice <+: c :: text →
        ¬ pattern.Matches slice) := by
  rw [scan?] at hscan
  split at hscan
  · next hc =>
    obtain rfl := Option.some.inj hscan
    refine .inl (exists_outcome_of_isAlpha hc _ ?_ fun d hd => List.mem_takeWhile_imp hd)
    exact fun d hd => not_of_mem_head?_dropWhile hd
  · next halpha =>
    split at hscan
    · next hc =>
      obtain rfl := Option.some.inj hscan
      refine .inl ⟨.digits, ⟨⟨List.cons_ne_nil _ _, ?_⟩, ?_⟩, ?_⟩
      · rw [List.forall_mem_cons]
        exact ⟨hc, fun d hd => List.mem_takeWhile_imp hd⟩
      · exact fun d hd => not_of_mem_head?_dropWhile hd
      · dsimp only
        rw [Pattern.outcome, numberToken]
        split
        · rfl
        · split <;> rfl
    · next hdigit =>
      split at hscan
      · next kind size hoperator =>
        obtain rfl := Option.some.inj hscan
        refine .inl ⟨_, stands_of_operator? hoperator ?_, rfl⟩
        rintro ⟨rest, hrest⟩
        obtain ⟨rfl, rfl⟩ := List.cons.inj hrest
        cases htrivia
      · next hoperator =>
        obtain rfl := Option.some.inj hscan
        refine .inr ⟨rfl, fun pattern slice hslice => ?_⟩
        exact not_matches_of_stray htrivia halpha hdigit hoperator pattern hslice

/-- **Where a slice stands that is not skipped, no trivia begins and the slice is read.** -/
theorem Pattern.Stands.scan?_of_outcome {pattern : Pattern} {slice rest : List Char}
    (h : pattern.Stands slice rest) (outcome : Except Fault Token)
    (houtcome : pattern.outcome slice rest = outcome.map some) :
    splitTrivia .between (slice ++ rest) = ([], slice ++ rest) ∧
      scan? (slice ++ rest) = some ⟨outcome, slice, rest⟩ := by
  obtain ⟨c, run, rfl⟩ := List.exists_cons_of_ne_nil h.isMatch.ne_nil
  -- whatever else stands at this place is the same pattern with the same slice
  have hsame {other : Pattern} {slice' rest' : List Char}
      (htext : slice' ++ rest' = c :: run ++ rest) (h' : other.Stands slice' rest') :
      pattern = other ∧ c :: run = slice' ∧ rest = rest' := by
    have hwins := h'.wins
    rw [htext] at hwins
    obtain ⟨rfl, rfl⟩ := h.wins.unique hwins
    exact ⟨rfl, rfl, (List.append_cancel_left htext).symm⟩
  have htrivia : TriviaMode.between.after? c (run ++ rest).head? = none := by
    rw [Option.eq_none_iff_forall_ne_some]
    intro mode hmode
    obtain ⟨other, slice', rest', htext, h', hskip⟩ := exists_stands_of_trivia hmode
    obtain ⟨rfl, rfl, rfl⟩ := hsame htext h'
    cases outcome <;> cases houtcome.symm.trans hskip
  refine ⟨splitTrivia_of_none htrivia, ?_⟩
  cases hscan : scan? (c :: run ++ rest) with
  | none => cases scan?_eq_none_iff.mp hscan
  | some reading =>
    have htext := Reading.text_append_rest hscan
    obtain ⟨outcome', slice', rest'⟩ := reading
    rcases exists_outcome htrivia hscan with ⟨other, h', houtcome'⟩ | ⟨-, hnone⟩
    · obtain ⟨rfl, rfl, rfl⟩ := hsame htext h'
      cases outcome <;> cases outcome' <;> cases houtcome.symm.trans houtcome' <;> rfl
    · exact absurd h.isMatch (hnone pattern _ (List.prefix_append _ _))

theorem Pattern.Stands.scan?_eq {pattern : Pattern} {slice rest : List Char} {token : Token}
    (h : pattern.Stands slice rest) (htoken : pattern.outcome slice rest = .ok (some token)) :
    splitTrivia .between (slice ++ rest) = ([], slice ++ rest) ∧
      scan? (slice ++ rest) = some ⟨.ok token, slice, rest⟩ :=
  h.scan?_of_outcome (.ok token) htoken

end Readings

/-! ## The tokens of a text -/

section Tokens

variable {pattern : Pattern} {slice rest text : List Char} {token : Token} {line : Nat}

theorem any_isBlank_of_operator :
    ∀ entry ∈ operatorSpellings, entry.1.toList.any isBlank = false := by
  decide

/-- **No token and no faulty number holds a blank.** -/
theorem Pattern.Stands.isBlank_eq_false (h : pattern.Stands slice rest)
    (hread : pattern.outcome slice rest ≠ .ok none) : ∀ c ∈ slice, isBlank c = false := by
  have hmatch := h.isMatch
  cases pattern with
  | blanks | lineComment | braceComment => exact absurd rfl hread
  | word => exact fun c hc => isBlank_of_isAlphanum (hmatch.isWord.isAlphanum c hc)
  | identifier =>
    exact fun c hc => isBlank_of_isAlphanum ((isWord_of_identifier hmatch).isAlphanum c hc)
  | digits =>
    refine fun c hc => isBlank_of_isAlphanum ?_
    rw [Char.isAlphanum, hmatch.2 c hc, Bool.or_true]
  | operator =>
    obtain ⟨hentry, rfl⟩ := hmatch
    exact fun c hc => eq_false_of_ne_true
      (List.any_eq_false.mp (any_isBlank_of_operator _ hentry) c hc)

theorem Pattern.Stands.count_newline (h : pattern.Stands slice rest)
    (htoken : pattern.outcome slice rest = .ok (some token)) : slice.count '\n' = 0 :=
  List.count_eq_zero.mpr
    (newline_not_mem_of_isBlank (h.isBlank_eq_false (by rw [htoken]; rintro ⟨⟩)))

theorem kind_ne_endOfInput_of_mem :
    ∀ entry ∈ reservedWords ++ operatorSpellings, entry.2 ≠ .endOfInput := by
  decide

theorem Pattern.Stands.kind_ne_endOfInput (h : pattern.Stands slice rest)
    (htoken : pattern.outcome slice rest = .ok (some token)) : token.kind ≠ .endOfInput := by
  have hmatch := h.isMatch
  cases pattern with
  | blanks | lineComment | braceComment => cases htoken
  | word =>
    have hkind := kind_ne_endOfInput_of_mem _ (List.mem_append_left _ hmatch.1)
    obtain rfl := Option.some.inj (Except.ok.inj htoken)
    split <;> exact hkind
  | identifier =>
    obtain rfl := Option.some.inj (Except.ok.inj htoken)
    exact TokenKind.noConfusion
  | digits =>
    obtain rfl := Option.some.inj (of_outcome_digits htoken)
    exact TokenKind.noConfusion
  | operator =>
    obtain rfl := Option.some.inj (Except.ok.inj htoken)
    exact kind_ne_endOfInput_of_mem _ (List.mem_append_right _ hmatch.1)

theorem Cursor.next_of_splitTrivia
    (h : splitTrivia .between (slice ++ rest) =
      (slice ++ (splitTrivia .between rest).1, (splitTrivia .between rest).2)) (line : Nat) :
    (Cursor.mk (slice ++ rest) line false).next =
      (Cursor.mk rest (line + slice.count '\n') false).next := by
  rw [Cursor.next, Cursor.next, if_neg Bool.false_ne_true, if_neg Bool.false_ne_true]
  dsimp only
  rw [h]
  dsimp only
  rw [List.count_append, Nat.add_assoc]

theorem Pattern.Stands.next_eq (h : pattern.Stands slice rest)
    (hskip : pattern.outcome slice rest = .ok none) (line : Nat) :
    (Cursor.mk (slice ++ rest) line false).next =
      (Cursor.mk rest (line + slice.count '\n') false).next :=
  Cursor.next_of_splitTrivia (h.splitTrivia_eq hskip) line

theorem length_behind_lt (htext : slice ++ rest = text) (h : pattern.Wins slice (slice ++ rest)) :
    rest.length < text.length := by
  have hpos := List.length_pos_iff.mpr h.isMatch.ne_nil
  rw [← htext, List.length_append]
  omega

/-- **A cursor delivers the tokens of the segmentation.** -/
theorem exists_scans (text : List Char) (line : Nat) :
    ∃ pieces rest fault?, Scans text pieces rest fault? ∧
      (Cursor.mk text line false).delivered = (locatedTokens line pieces,
        fault?.map fun fault => ⟨fault, line + (pieces.flatMap Piece.slice).count '\n'⟩) := by
  induction hlength : text.length using Nat.strong_induction_on generalizing text line with
  | _ n ih =>
    subst hlength
    cases text with
    | nil =>
      refine ⟨[], [], none, .done, ?_⟩
      rw [Cursor.delivered_eq, Cursor.next_eq_end rfl]
      rfl
    | cons c text =>
      cases htrivia : TriviaMode.between.after? c text.head? with
      | some mode =>
        obtain ⟨pattern, slice, behind, htext, hstands, hskip⟩ := exists_stands_of_trivia htrivia
        have hwins := hstands.wins
        obtain ⟨pieces, rest, fault?, hscans, hdelivered⟩ :=
          ih _ (length_behind_lt htext hwins) behind (line + slice.count '\n') rfl
        rw [htext] at hwins
        refine ⟨_, rest, fault?, .piece htext hwins hskip hscans, ?_⟩
        rw [← htext, Cursor.delivered_eq, hstands.next_eq hskip, ← Cursor.delivered_eq, hdelivered,
          List.flatMap_cons, List.count_append, ← Nat.add_assoc]
        rfl
      | none =>
        have hsplit := splitTrivia_of_none htrivia
        cases hscan : scan? (c :: text) with
        | none => cases scan?_eq_none_iff.mp hscan
        | some reading =>
          have htext := Reading.text_append_rest hscan
          obtain ⟨outcome, slice, behind⟩ := reading
          rcases exists_outcome htrivia hscan with ⟨pattern, hstands, houtcome⟩ | ⟨rfl, hnone⟩
          · have hwins := hstands.wins
            have hlt := length_behind_lt htext hwins
            rw [htext] at hwins
            cases outcome with
            | ok token =>
              obtain ⟨pieces, rest, fault?, hscans, hdelivered⟩ := ih _ hlt behind line rfl
              refine ⟨_, rest, fault?, .piece htext hwins houtcome hscans, ?_⟩
              rw [Cursor.delivered_eq, Cursor.next_eq_ok hsplit hscan]
              dsimp only
              rw [if_neg (hstands.kind_ne_endOfInput houtcome), List.count_nil, Nat.add_zero,
                hdelivered, locatedTokens, List.flatMap_cons, List.count_append,
                hstands.count_newline houtcome, Nat.add_zero, Nat.zero_add]
              rfl
            | error fault =>
              refine ⟨[], _, some fault, .fault htext hwins houtcome, ?_⟩
              rw [Cursor.delivered_eq, Cursor.next_eq_error hsplit hscan]
              rfl
          · refine ⟨[], _, some (.strayCharacter c), .stray rfl hnone, ?_⟩
            rw [Cursor.delivered_eq, Cursor.next_eq_error hsplit hscan]
            rfl

end Tokens

theorem Scans.delivered_eq {text rest : List Char} {pieces : List Piece} {fault? : Option Fault}
    (h : Scans text pieces rest fault?) (line : Nat) :
    (Cursor.mk text line false).delivered = (locatedTokens line pieces,
      fault?.map fun fault => ⟨fault, line + (pieces.flatMap Piece.slice).count '\n'⟩) := by
  obtain ⟨pieces', rest', fault'?, hscans, hdelivered⟩ := exists_scans text line
  obtain ⟨rfl, rfl, rfl⟩ := h.unique hscans
  exact hdelivered

/-! ## Lines of tokens -/

/-- A token that is no literal was read from a slice that spells its lexeme. -/
theorem Pattern.Matches.slice_eq {pattern : Pattern} {slice behind : List Char} {kind : TokenKind}
    {spelling : String} (h : pattern.Matches slice)
    (hok : pattern.outcome slice behind = .ok (some ⟨kind, .text spelling⟩)) :
    slice = spelling.toList := by
  cases pattern with
  | blanks | lineComment | braceComment => cases hok
  | word spelling' kind' =>
    rw [outcome] at hok
    split at hok
    · cases hok
    · obtain rfl : spelling' = spelling := by injections
      exact h.2
  | identifier =>
    obtain rfl : String.ofList slice = spelling := by rw [outcome] at hok; injections
    rw [String.toList_ofList]
  | digits => cases of_outcome_digits hok
  | operator spelling' kind' =>
    obtain rfl : spelling' = spelling := by rw [outcome] at hok; injections
    exact h.2

/-- **The piece of a token stands behind those of the earlier tokens**, and its line counts the line
feeds before it. -/
theorem exists_piece_of_locatedTokens {first : Nat} {pieces : List Piece}
    {earlier later : List Located} {located : Located}
    (h : locatedTokens first pieces = earlier ++ located :: later) :
    ∃ before piece behind, pieces = before ++ piece :: behind ∧
      locatedTokens first before = earlier ∧ piece.token? = some located.token ∧
      located.line = first + (before.flatMap Piece.slice).count '\n' := by
  induction pieces generalizing first earlier with
  | nil => cases List.append_ne_nil_of_right_ne_nil earlier (List.cons_ne_nil _ _) h.symm
  | cons piece pieces ih =>
    -- the first piece is skipped, or it is the one asked for, or it gives one of the earlier tokens
    have hskip {earlier' : List Located} (hpieces : locatedTokens (first + piece.slice.count '\n')
          pieces = earlier' ++ located :: later)
        (hearlier : (piece.token?.map fun token => ⟨token, first⟩).toList ++ earlier' = earlier) :
        ∃ before piece' behind, piece :: pieces = before ++ piece' :: behind ∧
          locatedTokens first before = earlier ∧ piece'.token? = some located.token ∧
          located.line = first + (before.flatMap Piece.slice).count '\n' := by
      obtain ⟨before, piece', behind, rfl, hbefore, htoken, hline⟩ := ih hpieces
      refine ⟨piece :: before, piece', behind, rfl, ?_, htoken, ?_⟩
      · rw [locatedTokens, hbefore, hearlier]
      · rw [hline, List.flatMap_cons, List.count_append, Nat.add_assoc]
    rw [locatedTokens] at h
    cases htoken : piece.token? with
    | none =>
      rw [htoken] at h hskip
      exact hskip h rfl
    | some token =>
      rw [htoken] at h hskip
      cases earlier with
      | nil =>
        obtain ⟨rfl, -⟩ := List.cons.inj h
        exact ⟨[], piece, pieces, rfl, rfl, htoken, rfl⟩
      | cons head earlier =>
        obtain ⟨rfl, hpieces⟩ := List.cons.inj h
        exact hskip hpieces rfl

/-- **The line of a token counts the line feeds before it.** -/
theorem exists_split_of_mem_delivered {source : String} {kind : TokenKind} {spelling : String}
    {line : Nat} (h : ⟨⟨kind, .text spelling⟩, line⟩ ∈ (Cursor.ofSource source).delivered.1) :
    ∃ before behind, source.toList = before ++ (spelling.toList ++ behind) ∧
      line = 1 + before.count '\n' := by
  obtain ⟨pieces, rest, fault?, hscans, hdelivered⟩ := exists_scans source.toList 1
  rw [Cursor.ofSource, hdelivered] at h
  obtain ⟨earlier, later, hsplit⟩ := List.append_of_mem h
  obtain ⟨before, piece, behind, rfl, -, htoken, hline⟩ := exists_piece_of_locatedTokens hsplit
  obtain ⟨rest', htext, hstands⟩ := hscans.exists_stands_at
  have hok := hstands.outcome
  rw [htoken] at hok
  exact ⟨_, rest', hstands.stands.isMatch.slice_eq hok ▸ htext, hline⟩

/-! ## Whole texts -/

/-- **The tokens of a text are those of its segmentation**, the only one, which loses nothing and
stops where no pattern matches or a number is at fault. -/
theorem tokenize_exact (source : String) :
    (∀ (pattern : Pattern) slice rest,
      pattern.Wins slice (slice ++ rest) ↔ pattern.Stands slice rest) ∧
    ∃ pieces rest fault?, Scans source.toList pieces rest fault? ∧
      (∀ pieces' rest' fault'?, Scans source.toList pieces' rest' fault'? →
        pieces' = pieces ∧ rest' = rest ∧ fault'? = fault?) ∧
      pieces.flatMap Piece.slice ++ rest = source.toList ∧ (fault? = none ↔ rest = []) ∧
      (∀ c, fault? = some (.strayCharacter c) ↔ rest.head? = some c ∧
        ∀ (pattern : Pattern) slice, slice <+: rest → ¬ pattern.Matches slice) ∧
      tokenize source = match fault? with
        | none => .ok (locatedTokens 1 pieces)
        | some fault => .error ⟨fault, 1 + (pieces.flatMap Piece.slice).count '\n'⟩ := by
  refine ⟨fun _ _ _ => Pattern.wins_iff_stands, ?_⟩
  obtain ⟨pieces, rest, fault?, hscans, hdelivered⟩ := exists_scans source.toList 1
  refine ⟨pieces, rest, fault?, hscans, fun _ _ _ => hscans.unique, hscans.append,
    hscans.fault?_eq_none_iff, fun c => hscans.stray_iff, ?_⟩
  rw [tokenize, Cursor.ofSource, hdelivered]
  cases fault? <;> rfl

end LusoPascal
