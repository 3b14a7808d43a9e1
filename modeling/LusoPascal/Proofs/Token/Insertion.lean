import LusoPascal.Proofs.Token.Extension

/-!
# Trivia put between tokens

Blanks and complete comments can be put at the start or at the end of any token. They neither
lengthen the token before them nor cut the one behind, and only the lines behind them change.

* `Separator`: trivia that end in front of any text;
* `AtToken`: the pieces before and behind an end of a token;
* `Piece.Keeps`: a piece that is read as before in front of another text;
* **`Stands.keeps_of_head?`**, `Stands.keeps_before_separator`, `Stands.keeps_before_token`: why
  pieces do so;
* **`Scans.delivered_insert`**: what is delivered before and behind the new trivia;
* **`tokenize_insert`**: whole texts.
-/

namespace LusoPascal

/-- Trivia that end in front of any text: blanks, a comment in braces that is closed, or a line
comment together with the line feed behind it. -/
inductive Separator : List Char → Prop
  | blanks {run : List Char} (h : ∀ c ∈ run, isSpace c = true) : Separator run
  | braceComment {body : List Char} (h : '\x7d' ∉ body) : Separator ('\x7b' :: (body ++ ['\x7d']))
  | lineComment {body : List Char} (h : '\n' ∉ body) : Separator ('/' :: '/' :: (body ++ ['\n']))

/-- The first of the pieces behind a place is a token, or the last one before it. -/
def AtToken (earlier later : List Piece) : Prop :=
  (earlier.getLast?.bind Piece.token?).isSome = true ∨
    (later.head?.bind Piece.token?).isSome = true

/-! ## Separators -/

namespace Separator

variable {gap text : List Char}

/-- **A separator is split off as a whole.** -/
theorem splitTrivia_eq (h : Separator gap) (text : List Char) :
    splitTrivia .between (gap ++ text) =
      (gap ++ (splitTrivia .between text).1, (splitTrivia .between text).2) := by
  cases h with
  | blanks h =>
    refine splitTrivia_run (fun c hc next => ?_) text
    rw [TriviaMode.after?, if_pos (h c hc)]
  | @braceComment body h =>
    have hstands : Pattern.braceComment.Stands ('\x7b' :: (body ++ ['\x7d'])) text :=
      ⟨body, h, .inr rfl⟩
    exact hstands.splitTrivia_eq rfl
  | @lineComment body h =>
    have hstands : Pattern.lineComment.Stands ('/' :: '/' :: body) ('\n' :: text) :=
      ⟨⟨body, h, rfl⟩, fun c hc => (Option.some.inj hc).symm⟩
    have hsplit := hstands.splitTrivia_eq rfl
    -- the line feed is a blank behind the comment
    change splitTrivia .between ('/' :: '/' :: body ++ '\n' :: text) =
      ('/' :: '/' :: body ++ '\n' :: (splitTrivia .between text).1, (splitTrivia .between text).2)
      at hsplit
    simpa using hsplit

theorem next_eq (h : Separator gap) (text : List Char) (line : Nat) :
    (Cursor.mk (gap ++ text) line false).next =
      (Cursor.mk text (line + gap.count '\n') false).next :=
  Cursor.next_of_splitTrivia (h.splitTrivia_eq text) line

theorem of_head? (h : Separator gap) :
    ∀ c ∈ gap.head?, isSpace c = true ∨ c = '\x7b' ∨ c = '/' := by
  intro c hc
  cases h with
  | blanks h => exact .inl (h c (List.mem_of_head? hc))
  | braceComment => exact .inr (.inl (Option.some.inj hc).symm)
  | lineComment => exact .inr (.inr (Option.some.inj hc).symm)

theorem not_joins (h : Separator gap) :
    ∀ c ∈ gap.head?, c.isAlphanum = false ∧ c.isDigit = false ∧ c ≠ '.' := by
  intro c hc
  have hword : c.isAlphanum = false ∧ c ≠ '.' := by
    rcases h.of_head? c hc with hspace | rfl | rfl
    · refine ⟨eq_false_of_ne_true fun hword => ?_, ?_⟩
      · rw [isSpace_of_isAlphanum hword] at hspace
        cases hspace
      · rintro rfl
        exact absurd hspace (by decide)
    · decide
    · decide
  refine ⟨hword.1, ?_, hword.2⟩
  exact (Bool.or_eq_false_iff.mp hword.1).2

end Separator

/-- Only a slash is lengthened by something that begins a separator. -/
theorem eq_of_mem_growth {c : Char} {spelling : String} (h : c ∈ Pattern.growth spelling) :
    c = '=' ∨ c = '>' ∨ c = '/' ∧ spelling = "/" := by
  unfold Pattern.growth at h
  split at h <;> simp_all

/-! ## Pieces in front of another text -/

/-- In front of a text a piece is read, or skipped, as it was. -/
def Piece.Keeps (piece : Piece) (text : List Char) : Prop :=
  match piece.token? with
  | some _ => piece.Stands text
  | none => ∀ line, (Cursor.mk (piece.slice ++ text) line false).next =
      (Cursor.mk text (line + piece.slice.count '\n') false).next

namespace Piece

variable {piece : Piece} {rest text gap : List Char} {token : Token}

/-- **Such a piece is delivered as it was**, unless it is skipped. -/
theorem Keeps.delivered (h : piece.Keeps text) (line : Nat) :
    (Cursor.mk (piece.slice ++ text) line false).delivered =
      ((piece.token?.map fun token => ⟨token, line⟩).toList ++
          (Cursor.mk text (line + piece.slice.count '\n') false).delivered.1,
        (Cursor.mk text (line + piece.slice.count '\n') false).delivered.2) := by
  obtain ⟨pattern, slice, token?⟩ := piece
  cases token? with
  | none => exact Cursor.delivered_congr (h line)
  | some token =>
    obtain ⟨hstands, htoken⟩ := h
    obtain ⟨hsplit, hscan⟩ := hstands.scan?_eq htoken
    rw [Cursor.delivered_eq, Cursor.next_eq_ok hsplit hscan]
    dsimp only
    rw [if_neg (hstands.kind_ne_endOfInput htoken), hstands.count_newline htoken]
    rfl

/-- **A piece is kept if the character behind it is.** -/
theorem Stands.keeps_of_head? (h : piece.Stands rest) (hrest : rest ≠ [])
    (hhead : text.head? = rest.head?) : piece.Keeps text := by
  obtain ⟨pattern, slice, token?⟩ := piece
  obtain ⟨hstands, houtcome⟩ := h.stands.of_head? hrest hhead
  rw [h.outcome] at houtcome
  cases token? with
  | none => exact hstands.next_eq houtcome
  | some token => exact ⟨hstands, houtcome⟩

/-- **A token is kept in front of a separator**, unless it is a slash in front of a slash. -/
theorem Stands.keeps_before_separator (h : piece.Stands rest) (htoken : piece.token? = some token)
    (hgap : Separator gap) (hslash : token.kind = .slash → gap.head? ≠ some '/') :
    piece.Keeps (gap ++ rest) := by
  obtain ⟨pattern, slice, token?⟩ := piece
  obtain rfl : token? = some token := htoken
  cases gap with
  | nil => exact h
  | cons c gap =>
    obtain ⟨hstands, hok⟩ := h
    obtain ⟨hword, hdigit, hdot⟩ := hgap.not_joins c rfl
    have hhead {P : Char → Prop} (hP : P c) : ∀ d ∈ (c :: gap ++ rest).head?, P d := by
      intro d hd
      obtain rfl := Option.some.inj hd
      exact hP
    cases pattern with
    | blanks | lineComment | braceComment => cases hok
    | word | identifier => exact ⟨⟨hstands.1, hhead hword⟩, hok⟩
    | digits =>
      have hnot : (c :: gap ++ rest).head? ≠ some '.' := fun hc => hdot (Option.some.inj hc)
      refine ⟨⟨hstands.1, hhead hdigit⟩, ?_⟩
      dsimp only at hok ⊢
      rw [Pattern.outcome] at hok ⊢
      rw [if_neg hnot]
      split at hok
      · cases hok
      · exact hok
    | operator spelling kind =>
      refine ⟨⟨hstands.1, hhead fun hgrowth => ?_⟩, hok⟩
      obtain rfl := Option.some.inj (Except.ok.inj hok)
      have hc := hgap.of_head? c rfl
      rcases eq_of_mem_growth hgrowth with rfl | rfl | ⟨rfl, rfl⟩
      · revert hc
        decide
      · revert hc
        decide
      · have hentry := Pattern.kind_unique_of_operator _ hstands.1.1 ("/", .slash) (by decide) rfl
        exact hslash (congrArg Prod.snd hentry) rfl

theorem Stands.head?_ne_newline (h : piece.Stands rest) (htoken : piece.token? = some token) :
    ∃ c run, piece.slice = c :: run ∧ c ≠ '\n' := by
  have hcount := h.stands.count_newline (h.outcome.trans (congrArg Except.ok htoken))
  obtain ⟨c, run, hslice⟩ := List.exists_cons_of_ne_nil h.stands.isMatch.ne_nil
  refine ⟨c, run, hslice, ?_⟩
  rintro rfl
  simp [hslice] at hcount

/-- **What is skipped in front of a token is skipped in front of any text.** -/
theorem Stands.keeps_before_token (h : piece.Stands rest) (hskip : piece.token? = none) {c : Char}
    (hc : rest.head? = some c) (hline : c ≠ '\n') (text : List Char) : piece.Keeps text := by
  obtain ⟨pattern, slice, token?⟩ := piece
  obtain rfl : token? = none := hskip
  obtain ⟨hstands, hok⟩ := h
  have hseparator : Separator slice := by
    cases pattern with
    | blanks => exact .blanks hstands.1.2
    | lineComment => exact absurd (hstands.2 c hc) hline
    | braceComment =>
      obtain ⟨body, hbody, ⟨-, rfl⟩ | hslice⟩ := hstands
      · cases hc
      · obtain rfl : slice = _ := hslice
        exact .braceComment hbody
    | digits => cases Pattern.of_outcome_digits hok
    | word | identifier | operator => cases hok
  exact hseparator.next_eq text

end Piece

/-! ## Behind some pieces -/

namespace Scans

variable {text rest gap : List Char} {earlier later : List Piece} {fault? : Option Fault}

/-- **Pieces are delivered as they were in front of another text** that keeps the last of them. -/
theorem delivered_append (h : Scans text (earlier ++ later) rest fault?) {more : List Char}
    (hlast : ∀ piece ∈ earlier.getLast?, piece.Keeps more) (line : Nat) :
    (Cursor.mk (earlier.flatMap Piece.slice ++ more) line false).delivered =
      (locatedTokens line earlier ++ (Cursor.mk more
          (line + (earlier.flatMap Piece.slice).count '\n') false).delivered.1,
        (Cursor.mk more (line + (earlier.flatMap Piece.slice).count '\n') false).delivered.2) := by
  induction earlier generalizing text line with
  | nil => rfl
  | cons piece earlier ih =>
    obtain ⟨behind, -, hstands, hbehind⟩ := h.exists_stands
    have hkept : piece.Keeps (earlier.flatMap Piece.slice ++ more) ∧
        ∀ piece ∈ earlier.getLast?, piece.Keeps more := by
      cases earlier with
      | nil =>
        exact ⟨hlast piece rfl, fun other hother => absurd hother (Option.not_mem_none other)⟩
      | cons next earlier =>
        rw [List.getLast?_cons_cons] at hlast
        refine ⟨?_, hlast⟩
        obtain ⟨behind', rfl, hnext, -⟩ := hbehind.exists_stands
        have hne := hnext.stands.isMatch.ne_nil
        refine hstands.keeps_of_head? (List.append_ne_nil_of_left_ne_nil hne _) ?_
        rw [List.flatMap_cons, List.append_assoc, head?_append_of_ne_nil hne,
          head?_append_of_ne_nil hne]
    rw [List.flatMap_cons, List.append_assoc, hkept.1.delivered line, ih hbehind hkept.2,
      locatedTokens, List.count_append, ← Nat.add_assoc, List.append_assoc]

theorem keeps_last (h : Scans text (earlier ++ later) rest fault?)
    (hplace : AtToken earlier later) (hgap : Separator gap)
    (hslash : ∀ token ∈ earlier.getLast?.bind Piece.token?, token.kind = .slash →
      gap.head? ≠ some '/') :
    ∀ piece ∈ earlier.getLast?, piece.Keeps (gap ++ (later.flatMap Piece.slice ++ rest)) := by
  intro piece hpiece
  rw [AtToken, Option.mem_def.mp hpiece] at hplace
  rw [Option.mem_def.mp hpiece] at hslash
  obtain ⟨before, rfl⟩ := List.getLast?_eq_some_iff.mp hpiece
  rw [List.append_assoc, List.singleton_append] at h
  obtain ⟨behind, -, hstands, hbehind⟩ := h.drop.exists_stands
  rw [hbehind.append]
  cases htoken : piece.token? with
  | some token => exact hstands.keeps_before_separator htoken hgap (hslash token htoken)
  | none =>
    rcases hplace with hplace | hplace
    · rw [Option.bind_some, htoken] at hplace
      cases hplace
    · cases later with
      | nil => cases hplace
      | cons next later =>
        obtain ⟨token, hnext⟩ := Option.isSome_iff_exists.mp hplace
        obtain ⟨behind', rfl, hstands', -⟩ := hbehind.exists_stands
        obtain ⟨c, run, hslice, hne⟩ := hstands'.head?_ne_newline hnext
        exact hstands.keeps_before_token htoken (by rw [hslice]; rfl) hne _

/-- **A separator at an end of a token** changes the lines behind it and nothing else. -/
theorem delivered_insert (h : Scans text (earlier ++ later) rest fault?)
    (hplace : AtToken earlier later) (hgap : Separator gap)
    (hslash : ∀ token ∈ earlier.getLast?.bind Piece.token?, token.kind = .slash →
      gap.head? ≠ some '/') (line : Nat) :
    (Cursor.mk (earlier.flatMap Piece.slice ++ (gap ++ (later.flatMap Piece.slice ++ rest))) line
        false).delivered =
      let behind := (Cursor.mk (later.flatMap Piece.slice ++ rest)
        (line + (earlier.flatMap Piece.slice).count '\n') false).delivered
      (locatedTokens line earlier ++ behind.1.map (Located.later (gap.count '\n')),
        behind.2.map (LexicalError.later (gap.count '\n'))) := by
  rw [h.delivered_append (h.keeps_last hplace hgap hslash) line,
    Cursor.delivered_congr (hgap.next_eq _ _)]
  have hlater := Cursor.delivered_later (gap.count '\n') (Cursor.mk
    (later.flatMap Piece.slice ++ rest) (line + (earlier.flatMap Piece.slice).count '\n') false)
  rw [Cursor.later] at hlater
  rw [hlater]

end Scans

/-! ## Whole texts -/

theorem locatedTokens_append (line : Nat) (earlier later : List Piece) :
    locatedTokens line (earlier ++ later) = locatedTokens line earlier ++
      locatedTokens (line + (earlier.flatMap Piece.slice).count '\n') later := by
  induction earlier generalizing line with
  | nil => rfl
  | cons piece earlier ih =>
    rw [List.cons_append, locatedTokens, locatedTokens, ih, List.flatMap_cons, List.count_append,
      ← Nat.add_assoc, List.append_assoc]

/-- **Trivia can be put at the start or at the end of any token**, unless a line comment comes
directly behind a slash: only the lines of the tokens behind them change. -/
theorem tokenize_insert {source : String} {tokens : List Located}
    (h : tokenize source = .ok tokens) :
    ∃ pieces, Scans source.toList pieces [] none ∧
      ∀ earlier later gap, pieces = earlier ++ later → AtToken earlier later → Separator gap →
        (∀ token ∈ earlier.getLast?.bind Piece.token?, token.kind = .slash →
          gap.head? ≠ some '/') →
        let line := 1 + (earlier.flatMap Piece.slice).count '\n'
        source.toList = earlier.flatMap Piece.slice ++ later.flatMap Piece.slice ∧
        tokens = locatedTokens 1 earlier ++ locatedTokens line later ∧
        tokenize (String.ofList
            (earlier.flatMap Piece.slice ++ (gap ++ later.flatMap Piece.slice))) =
          .ok (locatedTokens 1 earlier ++
            (locatedTokens line later).map (Located.later (gap.count '\n'))) := by
  obtain ⟨pieces, rest, fault?, hscans, hdelivered⟩ := exists_scans source.toList 1
  rw [tokenize, Cursor.ofSource, hdelivered] at h
  cases fault? with
  | some fault => cases h
  | none =>
    obtain rfl := hscans.fault?_eq_none_iff.mp rfl
    obtain rfl := Except.ok.inj h
    refine ⟨pieces, hscans, ?_⟩
    rintro earlier later gap rfl hplace hgap hslash line
    refine ⟨?_, locatedTokens_append 1 earlier later, ?_⟩
    · rw [← hscans.append, List.append_nil, List.flatMap_append]
    · have hinsert := hscans.delivered_insert hplace hgap hslash 1
      rw [hscans.drop.delivered_eq, List.append_nil] at hinsert
      rw [tokenize, Cursor.ofSource, String.toList_ofList, hinsert]
      rfl

/-- A comment over two lines behind a slash moves the name behind it down. -/
theorem tokenize_insert_comment :
    tokenize "a/b" = .ok [⟨⟨.identifier, .text "a"⟩, 1⟩, ⟨⟨.slash, .text "/"⟩, 1⟩,
        ⟨⟨.identifier, .text "b"⟩, 1⟩] ∧
      tokenize "a/\x7b\n\x7db" = .ok [⟨⟨.identifier, .text "a"⟩, 1⟩, ⟨⟨.slash, .text "/"⟩, 1⟩,
        ⟨⟨.identifier, .text "b"⟩, 2⟩] := by
  have h : tokenize "a/b" = .ok [⟨⟨.identifier, .text "a"⟩, 1⟩, ⟨⟨.slash, .text "/"⟩, 1⟩,
      ⟨⟨.identifier, .text "b"⟩, 1⟩] := by decide +kernel
  refine ⟨h, ?_⟩
  obtain ⟨pieces, hscans, hinsert⟩ := tokenize_insert h
  have ha : Pattern.identifier.Stands ['a'] ['/', 'b'] := by
    refine ⟨⟨by decide, by decide⟩, fun c hc => ?_⟩
    obtain rfl := Option.some.inj hc
    rfl
  have hslash : (Pattern.operator "/" .slash).Stands ['/'] ['b'] := by
    refine ⟨⟨by decide, rfl⟩, fun c hc => ?_⟩
    obtain rfl := Option.some.inj hc
    decide
  have hb : Pattern.identifier.Stands ['b'] [] := ⟨⟨by decide, by decide⟩, nofun⟩
  have hpieces : Scans "a/b".toList [⟨.identifier, ['a'], some ⟨.identifier, .text "a"⟩⟩,
      ⟨.operator "/" .slash, ['/'], some ⟨.slash, .text "/"⟩⟩,
      ⟨.identifier, ['b'], some ⟨.identifier, .text "b"⟩⟩] [] none :=
    .piece rfl ha.wins rfl (.piece rfl hslash.wins rfl (.piece rfl hb.wins rfl .done))
  obtain ⟨rfl, -, -⟩ := hpieces.unique hscans
  exact (hinsert [_, _] [_] ('\x7b' :: (['\n'] ++ ['\x7d'])) rfl (.inl rfl)
    (.braceComment (by decide)) fun _ _ _ => by decide).2.2

end LusoPascal
