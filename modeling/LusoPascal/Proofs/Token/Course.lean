import LusoPascal.Proofs.Token.Segmentation

/-!
# The course of a cursor

A cursor can be asked for the next token, for a look ahead and for its line, in any order. Only the
fetches move it: they go along the pieces of the text, and come to rest behind the last token, or
behind the fault.

* `Query`, `Cursor.replies`: what a cursor can be asked, and what it replies to a list of queries;
* `Cursor.after`: the cursor behind some fetches;
* **`getElem?_replies`**: a reply depends on the number of fetches before it alone;
* `Scans.exists_behind`: to fetch the token of a piece, or to skip it, leads behind the piece;
* **`Scans.next_at_token`**, **`Scans.next_at_end`**: what is fetched, and where it leads;
* **`Cursor.replies_follow_tokens`**: every reply on a text.
-/

namespace LusoPascal

/-! ## Queries -/

/-- What a cursor can be asked. -/
inductive Query where
  | next | peek | line
deriving DecidableEq

/-- What a cursor can reply. -/
inductive Reply where
  | fetched (result : Except LexicalError Token)
  | character (ahead : Option Char)
  | line (number : Nat)

namespace Cursor

def reply (cursor : Cursor) : Query → Reply
  | .next => .fetched (cursor.next.1.map Located.token)
  | .peek => .character cursor.peek?
  | .line => .line cursor.line

def behind (cursor : Cursor) : Query → Cursor
  | .next => cursor.next.2
  | .peek | .line => cursor

def replies (cursor : Cursor) : List Query → List Reply
  | [] => []
  | query :: queries => cursor.reply query :: (cursor.behind query).replies queries

/-- The cursor behind some fetches. -/
def after (cursor : Cursor) : Nat → Cursor
  | 0 => cursor
  | fetches + 1 => (cursor.after fetches).next.2

variable {cursor other : Cursor}

theorem after_add (cursor : Cursor) (m n : Nat) :
    cursor.after (m + n) = (cursor.after m).after n := by
  induction n with
  | zero => rfl
  | succ n ih => rw [← Nat.add_assoc, after, ih, after]

/-- **A reply depends on the number of fetches before it alone.** -/
theorem getElem?_replies (cursor : Cursor) (queries : List Query) (i : Nat) :
    (cursor.replies queries)[i]? =
      queries[i]?.map (cursor.after ((queries.take i).count .next)).reply := by
  induction queries generalizing cursor i with
  | nil => rfl
  | cons query queries ih =>
    cases i with
    | zero => rfl
    | succ i =>
      rw [replies, List.getElem?_cons_succ, List.getElem?_cons_succ, List.take_succ_cons, ih]
      cases query with
      | next => rw [List.count_cons_self, Nat.add_comm, after_add]; rfl
      | peek | line => rw [List.count_cons_of_ne (by decide)]; rfl

theorem next_after_congr (h : cursor.next = other.next) (n : Nat) :
    (cursor.after n).next = (other.after n).next := by
  cases n with
  | zero => exact h
  | succ n => rw [Nat.add_comm, after_add, after_add, after, after, after, after, h]

theorem after_of_finished (h : cursor.finished = true) (n : Nat) : cursor.after n = cursor := by
  induction n with
  | zero => rfl
  | succ n ih => rw [after, ih, next_of_finished h]

theorem line_le_next (cursor : Cursor) : cursor.line ≤ cursor.next.2.line := by
  rw [next]
  split
  · exact Nat.le_refl _
  · dsimp only
    split
    · exact Nat.le_add_right _ _
    · split <;> exact Nat.le_add_right _ _

theorem line_le_after (cursor : Cursor) (n : Nat) : cursor.line ≤ (cursor.after n).line := by
  induction n with
  | zero => exact Nat.le_refl _
  | succ n ih => exact ih.trans (line_le_next _)

end Cursor

/-! ## Along the pieces of a text -/

/-- At a character that begins nothing the fetch fails. -/
theorem Cursor.next_of_stray {text : List Char} {c : Char} (hc : text.head? = some c)
    (hnone : ∀ (pattern : Pattern) slice, slice <+: text → ¬ pattern.Matches slice) (line : Nat) :
    ∃ behind, (Cursor.mk text line false).next =
      (.error ⟨.strayCharacter c, line⟩, ⟨behind, line, true⟩) := by
  obtain ⟨text, rfl⟩ := List.head?_eq_some_iff.mp hc
  have htrivia : TriviaMode.between.after? c text.head? = none := by
    rw [Option.eq_none_iff_forall_ne_some]
    intro mode hmode
    obtain ⟨pattern, slice, rest, htext, hstands, -⟩ := exists_stands_of_trivia hmode
    exact hnone pattern slice ⟨rest, htext⟩ hstands.isMatch
  cases hscan : scan? (c :: text) with
  | none => cases scan?_eq_none_iff.mp hscan
  | some reading =>
    have htext := Reading.text_append_rest hscan
    obtain ⟨outcome, slice, rest⟩ := reading
    rcases exists_outcome htrivia hscan with ⟨pattern, hstands, -⟩ | ⟨rfl, -⟩
    · exact absurd hstands.isMatch (hnone pattern slice ⟨rest, htext⟩)
    · exact ⟨rest, Cursor.next_eq_error (splitTrivia_of_none htrivia) hscan⟩

namespace Scans

variable {text rest : List Char} {piece : Piece} {pieces earlier later : List Piece}
  {fault? : Option Fault}

/-- The token of a piece is fetched, or the piece is skipped; either leads behind the piece. -/
theorem exists_behind (h : Scans text (piece :: pieces) rest fault?) (line : Nat) :
    ∃ behind, Scans behind pieces rest fault? ∧ ∀ n,
      ((Cursor.mk text line false).after (piece.token?.toList.length + n)).next =
        ((Cursor.mk behind (line + piece.slice.count '\n') false).after n).next := by
  obtain ⟨pattern, slice, token?⟩ := piece
  obtain ⟨behind, rfl, ⟨hstands, hok⟩, hbehind⟩ := h.exists_stands
  refine ⟨behind, hbehind, fun n => ?_⟩
  cases token? with
  | none =>
    rw [Option.toList_none, List.length_nil, Nat.zero_add]
    exact Cursor.next_after_congr (hstands.next_eq hok line) n
  | some token =>
    obtain ⟨hsplit, hscan⟩ := hstands.scan?_eq hok
    have hnext : (Cursor.mk (slice ++ behind) line false).next = _ :=
      Cursor.next_eq_ok hsplit hscan
    have hcount := hstands.count_newline hok
    rw [Option.toList_some, List.length_singleton, Cursor.after_add, Cursor.after, Cursor.after,
      hnext, hcount]
    rfl

theorem length_tokens_cons (piece : Piece) (pieces : List Piece) :
    ((piece :: pieces).filterMap Piece.token?).length =
      piece.token?.toList.length + (pieces.filterMap Piece.token?).length := by
  rw [List.filterMap_cons]
  cases piece.token? with
  | none => exact (Nat.zero_add _).symm
  | some token => exact Nat.add_comm _ 1

/-- **The token of a piece is fetched behind those before it**, on the line where it starts. -/
theorem next_at_token {pattern : Pattern} {slice : List Char} {token : Token}
    (h : Scans text (earlier ++ ⟨pattern, slice, some token⟩ :: later) rest fault?) (line : Nat) :
    ((Cursor.mk text line false).after (earlier.filterMap Piece.token?).length).next =
      (.ok ⟨token, line + (earlier.flatMap Piece.slice).count '\n'⟩,
        ⟨later.flatMap Piece.slice ++ rest, line + (earlier.flatMap Piece.slice).count '\n',
          false⟩) := by
  induction earlier generalizing text line with
  | nil =>
    obtain ⟨behind, rfl, ⟨hstands, hok⟩, hbehind⟩ := h.exists_stands
    obtain ⟨hsplit, hscan⟩ := hstands.scan?_eq hok
    rw [hbehind.append]
    exact Cursor.next_eq_ok hsplit hscan
  | cons piece earlier ih =>
    obtain ⟨behind, hbehind, hnext⟩ := h.exists_behind line
    rw [length_tokens_cons, hnext, ih hbehind, List.flatMap_cons, List.count_append, Nat.add_assoc]

/-- **Behind all tokens the end of the text is fetched, or the fault.** Then the cursor is at
rest. -/
theorem next_at_end (h : Scans text pieces rest fault?) (line : Nat) :
    ∃ behind, ((Cursor.mk text line false).after (pieces.filterMap Piece.token?).length).next =
      (match fault? with
        | none => .ok ⟨.endOfInput, line + (pieces.flatMap Piece.slice).count '\n'⟩
        | some found => .error ⟨found, line + (pieces.flatMap Piece.slice).count '\n'⟩,
      ⟨behind, line + (pieces.flatMap Piece.slice).count '\n', true⟩) := by
  induction pieces generalizing text line with
  | nil =>
    cases h with
    | done => exact ⟨[], Cursor.next_eq_end rfl⟩
    | stray hc hnone => exact Cursor.next_of_stray hc hnone line
    | @fault _ _ behind _ found htext hwins hfault =>
      subst htext
      obtain ⟨hsplit, hscan⟩ := hwins.stands.scan?_of_outcome (.error found) hfault
      exact ⟨behind, Cursor.next_eq_error hsplit hscan⟩
  | cons piece pieces ih =>
    obtain ⟨behind, hbehind, hnext⟩ := h.exists_behind line
    obtain ⟨last, hend⟩ := ih hbehind (line + piece.slice.count '\n')
    refine ⟨last, ?_⟩
    rw [length_tokens_cons, hnext, hend, List.flatMap_cons, List.count_append, Nat.add_assoc]

end Scans

/-! ## Every reply on a text -/

/-- **The replies of a cursor on a text** are its tokens in order, then the fault if there is one,
and then its end over and over, on lines that never decrease. -/
theorem Cursor.replies_follow_tokens (source : String) :
    (∀ queries i, ((ofSource source).replies queries)[i]? =
      queries[i]?.map ((ofSource source).after ((queries.take i).count .next)).reply) ∧
    (∀ m n, ((ofSource source).after m).line ≤ ((ofSource source).after (m + n)).line) ∧
    ((ofSource source).after 0).line = 1 ∧
    ((ofSource source).after 0).peek? = source.toList[1]? ∧
    ∃ pieces rest fault?, Scans source.toList pieces rest fault? ∧
      (∀ earlier pattern slice token later,
        pieces = earlier ++ ⟨pattern, slice, some token⟩ :: later →
        ∀ n, n = (earlier.filterMap Piece.token?).length →
          ((ofSource source).after n).reply .next = .fetched (.ok token) ∧
          ((ofSource source).after (n + 1)).line =
            1 + (earlier.flatMap Piece.slice).count '\n' ∧
          ((ofSource source).after (n + 1)).peek? =
            (later.flatMap Piece.slice ++ rest)[1]?) ∧
      ∀ n, n = (pieces.filterMap Piece.token?).length →
        (match fault? with
          | none =>
            ((ofSource source).after n).reply .next = .fetched (.ok .endOfInput) ∧
            ((ofSource source).after (n + 1)).line = 1 + source.toList.count '\n'
          | some fault =>
            ((ofSource source).after n).reply .next =
              .fetched (.error ⟨fault, 1 + (pieces.flatMap Piece.slice).count '\n'⟩) ∧
            ((ofSource source).after (n + 1)).line =
              1 + (pieces.flatMap Piece.slice).count '\n') ∧
        ∀ k, ((ofSource source).after (n + 1 + k)).reply .next = .fetched (.ok .endOfInput) ∧
          ((ofSource source).after (n + 1 + k)).line = ((ofSource source).after (n + 1)).line ∧
          ((ofSource source).after (n + 1 + k)).peek? =
            ((ofSource source).after (n + 1)).peek? := by
  refine ⟨getElem?_replies _, fun m n => ?_, rfl, rfl, ?_⟩
  · rw [after_add]
    exact line_le_after _ n
  obtain ⟨pieces, rest, fault?, hscans, -⟩ := exists_scans source.toList 1
  refine ⟨pieces, rest, fault?, hscans, ?_, ?_⟩
  · rintro earlier pattern slice token later rfl n rfl
    have hnext := hscans.next_at_token 1
    rw [after, reply, ofSource, hnext]
    exact ⟨rfl, rfl, rfl⟩
  · rintro n rfl
    obtain ⟨behind, hnext⟩ := hscans.next_at_end 1
    have hafter (k : Nat) :
        (ofSource source).after ((pieces.filterMap Piece.token?).length + 1 + k) =
          ⟨behind, 1 + (pieces.flatMap Piece.slice).count '\n', true⟩ := by
      rw [after_add, after, ofSource, hnext, after_of_finished rfl]
    refine ⟨?_, fun k => ?_⟩
    · cases fault? with
      | none =>
        have hrest := hscans.fault?_eq_none_iff.mp rfl
        have happend := hscans.append
        rw [hrest, List.append_nil] at happend
        rw [after, reply, ofSource, hnext, ← happend]
        exact ⟨rfl, rfl⟩
      | some fault =>
        rw [after, reply, ofSource, hnext]
        exact ⟨rfl, rfl⟩
    · have hlast := hafter 0
      rw [Nat.add_zero] at hlast
      rw [hafter, hlast]
      exact ⟨rfl, rfl, rfl⟩

end LusoPascal
