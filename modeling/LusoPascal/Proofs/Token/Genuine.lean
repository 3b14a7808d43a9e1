import Mathlib.Data.List.TakeWhile
import LusoPascal.Token.Cursor

/-!
# Genuine tokens

What a cursor delivers is never an arbitrary pair of a kind and a lexeme: a reserved word or an
operator carries its own spelling, an identifier a name, and a number a value in range.

* `TokenKind.spelling?`: the spelling of a kind that is always spelled the same;
* `IsWord`, `IsName`: runs of letters and digits, and those that no reserved word is;
* `Token.Genuine`: the pairs that can be read;
* **`Cursor.genuine_of_next`**: every token of a cursor is genuine.
-/

namespace LusoPascal

/-- The spelling of a kind that is always spelled the same. -/
def TokenKind.spelling? : TokenKind → Option String
  | program => some "program"
  | var => some "var"
  | div => some "div"
  | inteiro => some "inteiro"
  | logico => some "logico"
  | e => some "e"
  | ou => some "ou"
  | nao => some "nao"
  | se => some "se"
  | entao => some "entao"
  | senao => some "senao"
  | enquanto => some "enquanto"
  | faca => some "faca"
  | inicio => some "inicio"
  | fim => some "fim"
  | procedimento => some "procedimento"
  | assign => some ":="
  | lessEqual => some "<="
  | greaterEqual => some ">="
  | notEqual => some "<>"
  | equal => some "="
  | less => some "<"
  | greater => some ">"
  | colon => some ":"
  | comma => some ","
  | semicolon => some ";"
  | dot => some "."
  | plus => some "+"
  | minus => some "-"
  | times => some "*"
  | slash => some "/"
  | leftParen => some "("
  | rightParen => some ")"
  | booleanLiteral | identifier | integerLiteral | endOfInput => none

/-- A letter, then letters and digits. -/
def IsWord : List Char → Prop
  | [] => False
  | c :: run => c.isAlpha = true ∧ ∀ d ∈ run, d.isAlphanum = true

instance : DecidablePred IsWord
  | [] => isFalse id
  | c :: run => decidable_of_iff ((c.isAlpha && run.all Char.isAlphanum) = true) (by simp [IsWord])

namespace IsWord

variable {run : List Char}

theorem ne_nil (h : IsWord run) : run ≠ [] := by
  rintro rfl
  exact h

theorem isAlphanum (h : IsWord run) : ∀ c ∈ run, c.isAlphanum = true := by
  cases run with
  | nil => cases h
  | cons c run =>
    rw [List.forall_mem_cons]
    exact ⟨by rw [Char.isAlphanum, h.1, Bool.true_or], h.2⟩

theorem concat {c : Char} (h : IsWord run) (hc : c.isAlphanum = true) : IsWord (run ++ [c]) := by
  cases run with
  | nil => cases h
  | cons d run =>
    have hall : ∀ e ∈ run ++ [c], e.isAlphanum = true := by
      rw [List.forall_mem_append, List.forall_mem_singleton]
      exact ⟨h.2, hc⟩
    exact ⟨h.1, hall⟩

end IsWord

/-- A name is a word that is not reserved. -/
structure IsName (name : String) : Prop where
  isWord : IsWord name.toList
  notReserved : name ∉ reservedWords.map Prod.fst

instance (name : String) : Decidable (IsName name) :=
  decidable_of_iff (IsWord name.toList ∧ name ∉ reservedWords.map Prod.fst)
    ⟨fun h => ⟨h.1, h.2⟩, fun h => ⟨h.isWord, h.notReserved⟩⟩

namespace Token

/-- The tokens that a text can hold, and the one at its end. -/
inductive Genuine : Token → Prop
  | fixed {kind : TokenKind} {spelling : String} (h : kind.spelling? = some spelling) :
      Genuine ⟨kind, .text spelling⟩
  | identifier {name : String} (h : IsName name) : Genuine ⟨.identifier, .text name⟩
  | integer {value : Nat} (h : value ≤ maxInteger) : Genuine ⟨.integerLiteral, .integer value⟩
  | boolean (value : Bool) : Genuine ⟨.booleanLiteral, .boolean value⟩
  | endOfInput : Genuine Token.endOfInput

namespace Genuine

variable {token : Token}

theorem integer_of_kind (h : token.Genuine) (hk : token.kind = .integerLiteral) :
    ∃ value : Nat, value ≤ maxInteger ∧ token.lexeme = .integer value := by
  cases h with
  | fixed h =>
    dsimp only at hk
    subst hk
    simp [TokenKind.spelling?] at h
  | integer h => exact ⟨_, h, rfl⟩
  | identifier | boolean | endOfInput => simp [Token.endOfInput] at hk

theorem name_of_kind (h : token.Genuine) (hk : token.kind = .identifier) :
    ∃ name, IsName name ∧ token = ⟨.identifier, .text name⟩ := by
  cases h with
  | fixed h =>
    dsimp only at hk
    subst hk
    simp [TokenKind.spelling?] at h
  | identifier h => exact ⟨_, h, rfl⟩
  | integer | boolean | endOfInput => simp [Token.endOfInput] at hk

theorem eq_of_spelling? {spelling : String} (h : token.Genuine)
    (hk : token.kind.spelling? = some spelling) : token = ⟨token.kind, .text spelling⟩ := by
  cases h with
  | fixed h => rw [h] at hk; obtain rfl := Option.some.inj hk; rfl
  | identifier | integer | boolean | endOfInput =>
    simp [TokenKind.spelling?, Token.endOfInput] at hk

end Genuine

end Token

/-! ## Every reading is genuine -/

theorem spelling?_of_mem_reservedWords :
    ∀ entry ∈ reservedWords, entry.2 = .booleanLiteral ∨ entry.2.spelling? = some entry.1 := by
  decide

theorem lookup_of_mem_reservedWords :
    ∀ entry ∈ reservedWords, reservedWords.lookup entry.1 = some entry.2 := by
  decide

theorem isWord_of_mem_reservedWords : ∀ entry ∈ reservedWords, IsWord entry.1.toList := by
  decide

theorem lookup_reservedWords_eq_none_iff {word : String} :
    reservedWords.lookup word = none ↔ word ∉ reservedWords.map Prod.fst := by
  rw [List.lookup_eq_none_iff]
  simp only [List.mem_map, not_exists, not_and, bne_iff_ne]
  exact forall₂_congr fun entry _ => ⟨Ne.symm, Ne.symm⟩

theorem spelling?_of_lookup {word : String} {kind : TokenKind}
    (h : reservedWords.lookup word = some kind) :
    kind = .booleanLiteral ∨ kind.spelling? = some word := by
  obtain ⟨before, behind, hsplit, -⟩ := List.lookup_eq_some_iff.mp h
  exact spelling?_of_mem_reservedWords (word, kind) (by rw [hsplit]; simp)

theorem genuine_wordToken {run : List Char} (h : IsWord run) : (wordToken run).Genuine := by
  unfold wordToken
  dsimp only
  split
  · exact .boolean _
  · next kind hne hlookup =>
    rcases spelling?_of_lookup hlookup with rfl | hspelling
    · exact absurd rfl hne
    · exact .fixed hspelling
  · next hlookup =>
    refine .identifier ⟨?_, lookup_reservedWords_eq_none_iff.mp hlookup⟩
    rwa [String.toList_ofList]

theorem genuine_numberToken {digits rest : List Char} {token : Token}
    (h : numberToken digits rest = .ok token) : token.Genuine := by
  unfold numberToken at h
  split at h
  · simp at h
  · split at h
    · next hle =>
      obtain rfl := Except.ok.inj h
      exact .integer hle
    · simp at h

theorem spelling?_of_operator? {text : List Char} {kind : TokenKind} {size : Nat}
    (h : operator? text = some (kind, size)) :
    kind.spelling? = some (String.ofList (text.take size)) := by
  unfold operator? at h
  split at h <;> simp only [Option.some.injEq, Prod.mk.injEq, reduceCtorEq] at h <;>
    obtain ⟨rfl, rfl⟩ := h <;> rfl

theorem Reading.genuine {text : List Char} {reading : Reading} {token : Token}
    (h : scan? text = some reading) (hok : reading.outcome = .ok token) : token.Genuine := by
  cases text with
  | nil => simp [scan?] at h
  | cons c text =>
    simp only [scan?] at h
    split at h
    · next hc =>
      obtain rfl := Option.some.inj h
      obtain rfl := Except.ok.inj hok
      exact genuine_wordToken ⟨hc, fun d hd => List.mem_takeWhile_imp hd⟩
    · split at h
      · obtain rfl := Option.some.inj h
        exact genuine_numberToken hok
      · split at h
        · next hop =>
          obtain rfl := Option.some.inj h
          obtain rfl := Except.ok.inj hok
          exact .fixed (spelling?_of_operator? hop)
        · obtain rfl := Option.some.inj h
          simp at hok

/-- **Every token of a cursor is genuine.** -/
theorem Cursor.genuine_of_next {cursor : Cursor} {located : Located}
    (h : cursor.next.1 = .ok located) : located.token.Genuine := by
  unfold next at h
  split at h
  · obtain rfl := Except.ok.inj h
    exact .endOfInput
  · dsimp only at h
    split at h
    · obtain rfl := Except.ok.inj h
      exact .endOfInput
    · next reading hscan =>
      split at h
      · next token hok =>
        obtain rfl := Except.ok.inj h
        exact Reading.genuine hscan hok
      · simp at h

end LusoPascal
