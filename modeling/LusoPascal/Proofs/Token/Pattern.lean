import LusoPascal.Proofs.Text.Class
import LusoPascal.Proofs.Token.Genuine

/-!
# Patterns

The patterns of the language, each as the set of texts it matches, and which of them wins at a
place of a text: the one that matches the longest slice, and a reserved word rather than an
identifier.

* `Pattern`, `Pattern.Matches`: the declared patterns and their texts;
* `Pattern.Wins`: the longest match;
* `Pattern.Stands`: what the slice and the character behind it look like, pattern by pattern;
* **`Pattern.wins_iff_stands`**: the two are the same;
* **`Pattern.Wins.unique`**: at most one pattern wins, and with one slice.
-/

namespace LusoPascal

/-- The operators and marks. -/
def operatorSpellings : List (String × TokenKind) :=
  [(":=", .assign), ("<=", .lessEqual), (">=", .greaterEqual), ("<>", .notEqual), ("=", .equal),
    ("<", .less), (">", .greater), (":", .colon), (",", .comma), (";", .semicolon), (".", .dot),
    ("+", .plus), ("-", .minus), ("*", .times), ("/", .slash), ("(", .leftParen),
    (")", .rightParen)]

/-- The declared patterns. What the first three match is skipped. -/
inductive Pattern where
  | blanks | lineComment | braceComment
  | word (spelling : String) (kind : TokenKind)
  | identifier | digits
  | operator (spelling : String) (kind : TokenKind)
deriving DecidableEq

namespace Pattern

/-- The texts of a pattern. -/
def Matches : Pattern → List Char → Prop
  | blanks, slice => slice ≠ [] ∧ ∀ c ∈ slice, isSpace c = true
  | lineComment, slice => ∃ body, '\n' ∉ body ∧ slice = '/' :: '/' :: body
  | braceComment, slice =>
    ∃ body, '\x7d' ∉ body ∧ (slice = '\x7b' :: body ∨ slice = '\x7b' :: (body ++ ['\x7d']))
  | word spelling kind, slice => (spelling, kind) ∈ reservedWords ∧ slice = spelling.toList
  | identifier, slice => IsWord slice
  | digits, slice => slice ≠ [] ∧ ∀ c ∈ slice, c.isDigit = true
  | operator spelling kind, slice =>
    (spelling, kind) ∈ operatorSpellings ∧ slice = spelling.toList

/-- A pattern wins at the start of a text with a slice if no pattern matches a longer one there;
between a reserved word and an identifier the reserved word wins. -/
structure Wins (pattern : Pattern) (slice text : List Char) : Prop where
  starts : slice <+: text
  isMatch : pattern.Matches slice
  longest : ∀ (other : Pattern) (longer : List Char), longer <+: text → other.Matches longer →
    longer.length ≤ slice.length
  reserved : pattern = identifier → ∀ spelling kind, ¬ (word spelling kind).Matches slice

/-- The characters that may not stand behind an operator, since the two are something longer. -/
def growth : String → List Char
  | ":" => ['=']
  | "<" => ['=', '>']
  | ">" => ['=']
  | "/" => ['/']
  | _ => []

/-- A slice and the text behind it, pattern by pattern: a run ends where it has to, a line comment
ends before a line feed, a comment in braces with the first closing brace or the text, and behind an
operator stands nothing that makes it longer. -/
def Stands : Pattern → List Char → List Char → Prop
  | blanks, slice, rest =>
    (slice ≠ [] ∧ ∀ c ∈ slice, isSpace c = true) ∧ ∀ c ∈ rest.head?, isSpace c = false
  | lineComment, slice, rest =>
    (∃ body, '\n' ∉ body ∧ slice = '/' :: '/' :: body) ∧ ∀ c ∈ rest.head?, c = '\n'
  | braceComment, slice, rest =>
    ∃ body, '\x7d' ∉ body ∧
      (slice = '\x7b' :: body ∧ rest = [] ∨ slice = '\x7b' :: (body ++ ['\x7d']))
  | word spelling kind, slice, rest =>
    ((spelling, kind) ∈ reservedWords ∧ slice = spelling.toList) ∧
      ∀ c ∈ rest.head?, c.isAlphanum = false
  | identifier, slice, rest =>
    (IsWord slice ∧ String.ofList slice ∉ reservedWords.map Prod.fst) ∧
      ∀ c ∈ rest.head?, c.isAlphanum = false
  | digits, slice, rest =>
    (slice ≠ [] ∧ ∀ c ∈ slice, c.isDigit = true) ∧ ∀ c ∈ rest.head?, c.isDigit = false
  | operator spelling kind, slice, rest =>
    ((spelling, kind) ∈ operatorSpellings ∧ slice = spelling.toList) ∧
      ∀ c ∈ rest.head?, c ∉ growth spelling

end Pattern

/-! ## How patterns begin -/

/-- What the first character of a slice may be. -/
inductive Initial where
  | blank | letter | digit | slash | brace | mark | stray
deriving DecidableEq

/-- The class of a first character. -/
def initial (c : Char) : Initial :=
  if isSpace c then .blank
  else if c.isAlpha then .letter
  else if c.isDigit then .digit
  else if c = '/' then .slash
  else if c = '\x7b' then .brace
  else if c ∈ ":<>=,;.+-*()".toList then .mark
  else .stray

section Initial

variable {c : Char}

theorem initial_of_isSpace (h : isSpace c = true) : initial c = .blank := if_pos h

theorem initial_of_isAlpha (h : c.isAlpha = true) : initial c = .letter := by
  have hspace : isSpace c = false :=
    isSpace_of_isAlphanum (by rw [Char.isAlphanum, h, Bool.true_or])
  rw [initial, hspace, if_neg Bool.false_ne_true, if_pos h]

theorem initial_of_isDigit (h : c.isDigit = true) : initial c = .digit := by
  have hspace : isSpace c = false :=
    isSpace_of_isAlphanum (by rw [Char.isAlphanum, h, Bool.or_true])
  rw [initial, hspace, isAlpha_of_isDigit h, if_neg Bool.false_ne_true,
    if_neg Bool.false_ne_true, if_pos h]

theorem initial_of_isWord {run : List Char} (h : IsWord (c :: run)) : initial c = .letter :=
  initial_of_isAlpha h.1

end Initial

/-! ### Operators -/

theorem initial_mem_of_operator : ∀ entry ∈ operatorSpellings,
    entry.1.toList.head?.map initial ∈ [some .slash, some .mark] := by
  decide

theorem ne_nil_of_operator : ∀ entry ∈ operatorSpellings, entry.1.toList ≠ [] := by
  decide

theorem eq_slash_of_operator : ∀ entry ∈ operatorSpellings, '/' ∈ entry.1.toList.head? →
    entry = ("/", .slash) := by
  decide

/-- An operator with each of the characters that lengthen it. -/
def lengthened (spelling : String) : List (List Char) :=
  (Pattern.growth spelling).map fun c => spelling.toList ++ [c]

theorem eq_or_mem_lengthened : ∀ entry ∈ operatorSpellings, ∀ longer ∈ operatorSpellings,
    entry.1.toList <+: longer.1.toList →
      entry = longer ∨ longer.1.toList ∈ lengthened entry.1 := by
  decide

/-- A lengthened operator is another one, or begins a comment. -/
theorem eq_or_exists_of_mem_lengthened : ∀ entry ∈ operatorSpellings,
    ∀ slice ∈ lengthened entry.1,
      slice = ['/', '/'] ∨ ∃ longer ∈ operatorSpellings, longer.1.toList = slice := by
  decide

namespace Pattern

variable {pattern other : Pattern} {slice rest text : List Char} {c : Char}

/-- The classes of characters that begin a pattern. -/
def initials : Pattern → List Initial
  | blanks => [.blank]
  | lineComment => [.slash]
  | braceComment => [.brace]
  | word _ _ | identifier => [.letter]
  | digits => [.digit]
  | operator _ _ => [.slash, .mark]

theorem Matches.isWord {spelling : String} {kind : TokenKind}
    (h : (word spelling kind).Matches slice) : IsWord slice := by
  obtain ⟨hmem, rfl⟩ := h
  exact isWord_of_mem_reservedWords _ hmem

theorem isWord_of_identifier (h : identifier.Matches slice) : IsWord slice := h

theorem Matches.ne_nil (h : pattern.Matches slice) : slice ≠ [] := by
  rintro rfl
  cases pattern with
  | blanks | digits => exact h.1 rfl
  | lineComment => obtain ⟨body, -, h⟩ := h; cases h
  | braceComment => obtain ⟨body, -, h | h⟩ := h <;> cases h
  | word => exact h.isWord.ne_nil rfl
  | identifier => exact (isWord_of_identifier h).ne_nil rfl
  | operator => exact ne_nil_of_operator _ h.1 h.2.symm

theorem Matches.initial_mem (h : pattern.Matches (c :: slice)) :
    initial c ∈ pattern.initials := by
  cases pattern with
  | blanks => exact List.mem_singleton.mpr (initial_of_isSpace (h.2 c List.mem_cons_self))
  | lineComment =>
    obtain ⟨body, -, h⟩ := h
    obtain ⟨rfl, -⟩ := List.cons.inj h
    decide
  | braceComment =>
    obtain ⟨body, -, h | h⟩ := h <;> obtain ⟨rfl, -⟩ := List.cons.inj h <;> decide
  | word => exact List.mem_singleton.mpr (initial_of_isWord h.isWord)
  | identifier => exact List.mem_singleton.mpr (initial_of_isWord h)
  | digits => exact List.mem_singleton.mpr (initial_of_isDigit (h.2 c List.mem_cons_self))
  | operator spelling kind =>
    obtain ⟨hentry, hslice⟩ := h
    have hinitial := initial_mem_of_operator _ hentry
    rw [← hslice, List.head?_cons, Option.map_some] at hinitial
    simpa [initials] using hinitial

/-! ## The longest match -/

theorem Stands.isMatch (h : pattern.Stands slice rest) : pattern.Matches slice := by
  cases pattern with
  | braceComment =>
    obtain ⟨body, hbody, ⟨h, -⟩ | h⟩ := h
    · exact ⟨body, hbody, .inl h⟩
    · exact ⟨body, hbody, .inr h⟩
  | identifier => exact h.1.1
  | _ => exact h.1

theorem not_slashes_of_operator {spelling : String} {kind : TokenKind} :
    ¬ (operator spelling kind).Matches ('/' :: '/' :: rest) := by
  rintro ⟨hentry, hslice⟩
  have hspelling := eq_slash_of_operator _ hentry (by rw [← hslice]; rfl)
  obtain ⟨rfl, -⟩ := Prod.mk.inj hspelling
  cases hslice

/-- The closing brace ends a comment. -/
theorem not_matches_of_closed {body : List Char} :
    ¬ braceComment.Matches ('\x7b' :: (body ++ '\x7d' :: c :: rest)) := by
  rintro ⟨body', hbody', h | h⟩
  · obtain rfl := (List.cons.inj h).2
    simp at hbody'
  · have hlast := congrArg List.dropLast (List.cons.inj h).2
    rw [List.dropLast_concat, List.dropLast_append_of_ne_nil (List.cons_ne_nil _ _)] at hlast
    rw [← hlast] at hbody'
    simp at hbody'

theorem not_matches_of_line {body : List Char} :
    ¬ lineComment.Matches ('/' :: '/' :: (body ++ '\n' :: rest)) := by
  rintro ⟨body', hbody', h⟩
  obtain rfl := (List.cons.inj (List.cons.inj h).2).2
  simp at hbody'

section Operator

variable {spelling longer : String} {kind kind' : TokenKind}

/-- An operator is no longer one with a character behind it that does not lengthen it. -/
theorem not_operator_of_not_mem_growth (h : (spelling, kind) ∈ operatorSpellings)
    (hc : c ∉ growth spelling) :
    ¬ (operator longer kind').Matches (spelling.toList ++ c :: rest) := by
  rintro ⟨h', hslice⟩
  have hstarts : spelling.toList <+: longer.toList := ⟨c :: rest, hslice⟩
  rcases eq_or_mem_lengthened _ h _ h' hstarts with heq | hmem
  · obtain ⟨rfl, -⟩ := Prod.mk.inj heq
    simp at hslice
  · obtain ⟨c', hc', heq⟩ := List.mem_map.mp hmem
    rw [← hslice, List.append_cancel_left_eq] at heq
    obtain ⟨rfl, -⟩ := List.cons.inj heq
    exact hc hc'

theorem not_lineComment_of_not_mem_growth (h : (spelling, kind) ∈ operatorSpellings)
    (hc : c ∉ growth spelling) : ¬ lineComment.Matches (spelling.toList ++ c :: rest) := by
  rintro ⟨body, -, hslice⟩
  obtain ⟨d, run, hrun⟩ := List.exists_cons_of_ne_nil (ne_nil_of_operator _ h)
  dsimp only at hrun
  rw [hrun] at hslice
  obtain ⟨rfl, htail⟩ := List.cons.inj hslice
  have hspelling := eq_slash_of_operator _ h (by rw [hrun]; rfl)
  obtain ⟨rfl, -⟩ := Prod.mk.inj hspelling
  obtain ⟨-, rfl⟩ := List.cons.inj hrun
  obtain ⟨rfl, -⟩ := List.cons.inj htail
  exact hc (by decide)

end Operator

theorem Stands.not_matches {more : List Char} (h : pattern.Stands slice (c :: rest)) :
    ¬ other.Matches (slice ++ c :: more) := by
  intro hother
  obtain ⟨d, run, rfl⟩ := List.exists_cons_of_ne_nil h.isMatch.ne_nil
  have hinitial := h.isMatch.initial_mem
  have hinitial' := hother.initial_mem
  have hmem : c ∈ d :: run ++ c :: more := by simp
  -- the class of the first character leaves one pattern, or two
  cases pattern with
  | blanks =>
    rw [List.mem_singleton.mp hinitial] at hinitial'
    cases other with
    | blanks => exact absurd (hother.2 c hmem) (Bool.eq_false_iff.mp (h.2 c rfl))
    | _ => simp [initials] at hinitial'
  | lineComment =>
    rw [List.mem_singleton.mp hinitial] at hinitial'
    obtain ⟨⟨body, -, hslice⟩, hrest⟩ := h
    obtain rfl := hrest c rfl
    rw [hslice] at hother
    cases other with
    | lineComment => exact not_matches_of_line hother
    | operator => exact not_slashes_of_operator hother
    | _ => simp [initials] at hinitial'
  | braceComment =>
    obtain ⟨body, hbody, ⟨-, hrest⟩ | hslice⟩ := h
    · cases hrest
    · rw [List.mem_singleton.mp hinitial] at hinitial'
      rw [hslice] at hother
      cases other with
      | braceComment => exact not_matches_of_closed (by simpa using hother)
      | _ => simp [initials] at hinitial'
  | word | identifier =>
    rw [List.mem_singleton.mp hinitial] at hinitial'
    have hc : ¬ c.isAlphanum = true := Bool.eq_false_iff.mp (h.2 c rfl)
    cases other with
    | word => exact hc (hother.isWord.isAlphanum c hmem)
    | identifier => exact hc ((isWord_of_identifier hother).isAlphanum c hmem)
    | _ => simp [initials] at hinitial'
  | digits =>
    rw [List.mem_singleton.mp hinitial] at hinitial'
    cases other with
    | digits => exact absurd (hother.2 c hmem) (Bool.eq_false_iff.mp (h.2 c rfl))
    | _ => simp [initials] at hinitial'
  | operator spelling kind =>
    obtain ⟨⟨hentry, hslice⟩, hrest⟩ := h
    have hc := hrest c rfl
    rw [hslice] at hother
    cases other with
    | lineComment => exact not_lineComment_of_not_mem_growth hentry hc hother
    | operator => exact not_operator_of_not_mem_growth hentry hc hother
    | _ => simp_all [initials]

/-! ### Both ways -/

theorem Stands.wins (h : pattern.Stands slice rest) : pattern.Wins slice (slice ++ rest) where
  starts := List.prefix_append slice rest
  isMatch := h.isMatch
  longest other longer hlonger hother := by
    by_contra hlt
    obtain ⟨more, rfl⟩ := List.prefix_of_prefix_length_le (List.prefix_append slice rest) hlonger
      (Nat.le_of_not_le hlt)
    rw [List.prefix_append_right_inj] at hlonger
    cases more with
    | nil => simp at hlt
    | cons c more =>
      obtain ⟨rest, rfl⟩ := hlonger
      exact h.not_matches hother
  reserved hpattern spelling kind hword := by
    subst hpattern
    obtain ⟨⟨-, hnot⟩, -⟩ := h
    rw [hword.2, String.ofList_toList] at hnot
    exact hnot (List.mem_map_of_mem hword.1)

theorem Wins.not_matches (h : pattern.Wins slice (slice ++ rest)) (other : Pattern)
    (hc : c ∈ rest.head?) : ¬ other.Matches (slice ++ [c]) := by
  intro hother
  obtain ⟨rest, rfl⟩ := List.head?_eq_some_iff.mp hc
  have hle := h.longest other (slice ++ [c]) (by simp [List.prefix_append_right_inj]) hother
  rw [List.length_append, List.length_singleton] at hle
  omega

theorem Wins.stands (h : pattern.Wins slice (slice ++ rest)) : pattern.Stands slice rest := by
  have hmatch := h.isMatch
  cases pattern with
  | blanks =>
    refine ⟨hmatch, fun c hc => eq_false_of_ne_true fun hspace => ?_⟩
    refine h.not_matches blanks hc ⟨by simp, ?_⟩
    rw [List.forall_mem_append, List.forall_mem_singleton]
    exact ⟨hmatch.2, hspace⟩
  | lineComment =>
    refine ⟨hmatch, fun c hc => ?_⟩
    obtain ⟨body, hbody, rfl⟩ := hmatch
    by_contra hne
    exact h.not_matches lineComment hc
      ⟨body ++ [c], by simp [hbody, Ne.symm hne], rfl⟩
  | braceComment =>
    obtain ⟨body, hbody, rfl | rfl⟩ := hmatch
    · refine ⟨body, hbody, .inl ⟨rfl, ?_⟩⟩
      cases rest with
      | nil => rfl
      | cons c rest =>
        refine absurd ?_ (h.not_matches braceComment rfl)
        by_cases hc : c = '\x7d'
        · subst hc
          exact ⟨body, hbody, .inr rfl⟩
        · exact ⟨body ++ [c], by simp [hbody, Ne.symm hc], .inl rfl⟩
    · exact ⟨body, hbody, .inr rfl⟩
  | word spelling kind =>
    refine ⟨hmatch, fun c hc => eq_false_of_ne_true fun hword => ?_⟩
    exact h.not_matches identifier hc (hmatch.isWord.concat hword)
  | identifier =>
    refine ⟨⟨hmatch, fun hmem => ?_⟩, fun c hc => eq_false_of_ne_true fun hword => ?_⟩
    · obtain ⟨⟨spelling, kind⟩, hentry, hspelling⟩ := List.mem_map.mp hmem
      have hslice := congrArg String.toList hspelling
      rw [String.toList_ofList] at hslice
      exact h.reserved rfl spelling kind ⟨hentry, hslice.symm⟩
    · exact h.not_matches identifier hc ((isWord_of_identifier hmatch).concat hword)
  | digits =>
    refine ⟨hmatch, fun c hc => eq_false_of_ne_true fun hdigit => ?_⟩
    refine h.not_matches digits hc ⟨by simp, ?_⟩
    rw [List.forall_mem_append, List.forall_mem_singleton]
    exact ⟨hmatch.2, hdigit⟩
  | operator spelling kind =>
    refine ⟨hmatch, fun c hc hgrowth => ?_⟩
    obtain ⟨hentry, rfl⟩ := hmatch
    have hmem : spelling.toList ++ [c] ∈ lengthened spelling := List.mem_map_of_mem hgrowth
    rcases eq_or_exists_of_mem_lengthened _ hentry _ hmem with heq | ⟨⟨longer, kind'⟩, hlonger, heq⟩
    · exact h.not_matches lineComment hc ⟨[], List.not_mem_nil, heq⟩
    · exact h.not_matches (operator longer kind') hc ⟨hlonger, heq.symm⟩

/-- **A pattern wins with the slices that stand as they have to.** -/
theorem wins_iff_stands : pattern.Wins slice (slice ++ rest) ↔ pattern.Stands slice rest :=
  ⟨Wins.stands, Stands.wins⟩

/-! ## No second winner -/

theorem kind_unique_of_operator : ∀ entry ∈ operatorSpellings, ∀ other ∈ operatorSpellings,
    entry.1 = other.1 → entry = other := by
  decide

theorem kind_unique_of_reserved {spelling : String} {kind kind' : TokenKind}
    (h : (spelling, kind) ∈ reservedWords) (h' : (spelling, kind') ∈ reservedWords) :
    kind = kind' := by
  have hkind := lookup_of_mem_reservedWords _ h
  rw [lookup_of_mem_reservedWords _ h'] at hkind
  exact (Option.some.inj hkind).symm

/-- **At most one pattern wins, and with one slice.** -/
theorem Wins.unique {slice' : List Char} (h : pattern.Wins slice text)
    (h' : other.Wins slice' text) : pattern = other ∧ slice = slice' := by
  have hslice : slice = slice' := by
    refine (List.prefix_of_prefix_length_le h.starts h'.starts ?_).eq_of_length ?_
    · exact h'.longest pattern slice h.starts h.isMatch
    · exact Nat.le_antisymm (h'.longest pattern slice h.starts h.isMatch)
        (h.longest other slice' h'.starts h'.isMatch)
  subst hslice
  refine ⟨?_, rfl⟩
  obtain ⟨c, run, rfl⟩ := List.exists_cons_of_ne_nil h.isMatch.ne_nil
  have hinitial := h.isMatch.initial_mem
  have hinitial' := h'.isMatch.initial_mem
  cases pattern with
  | blanks | braceComment | digits =>
    rw [List.mem_singleton.mp hinitial] at hinitial'
    cases other <;> first | rfl | simp [initials] at hinitial'
  | lineComment =>
    rw [List.mem_singleton.mp hinitial] at hinitial'
    cases other with
    | lineComment => rfl
    | operator =>
      obtain ⟨body, -, hslice⟩ := h.isMatch
      exact absurd (hslice ▸ h'.isMatch) not_slashes_of_operator
    | _ => simp [initials] at hinitial'
  | word spelling kind =>
    rw [List.mem_singleton.mp hinitial] at hinitial'
    obtain ⟨hentry, hslice⟩ := h.isMatch
    cases other with
    | word spelling' kind' =>
      obtain ⟨hentry', hslice'⟩ := h'.isMatch
      obtain rfl := String.toList_inj.mp (hslice.symm.trans hslice')
      rw [kind_unique_of_reserved hentry hentry']
    | identifier => exact absurd h.isMatch (h'.reserved rfl spelling kind)
    | _ => simp [initials] at hinitial'
  | identifier =>
    rw [List.mem_singleton.mp hinitial] at hinitial'
    cases other with
    | word spelling kind => exact absurd h'.isMatch (h.reserved rfl spelling kind)
    | identifier => rfl
    | _ => simp [initials] at hinitial'
  | operator spelling kind =>
    obtain ⟨hentry, hslice⟩ := h.isMatch
    cases other with
    | lineComment =>
      obtain ⟨body, -, hslash⟩ := h'.isMatch
      exact absurd (hslash ▸ h.isMatch) not_slashes_of_operator
    | operator spelling' kind' =>
      obtain ⟨hentry', hslice'⟩ := h'.isMatch
      have hspelling := String.toList_inj.mp (hslice.symm.trans hslice')
      have hequal := kind_unique_of_operator _ hentry _ hentry' hspelling
      rw [(Prod.mk.inj hequal).1, (Prod.mk.inj hequal).2]
    | _ => simp_all [initials]

end Pattern

end LusoPascal
