import LusoPascal.Proofs.Token.Genuine
import LusoPascal.Tree.Basic

/-!
# Deliveries

A delivery is a token together with the cursor that delivers it, so it also knows the text behind
the token and whatever comes next.

* `Delivery`, `Delivery.behind`: the token at its place, and the cursor behind it;
* `Delivery.nextKind?`, `Delivery.rawAssign`, `Delivery.Agrees`: the token behind, what the raw
  character says about it, and whether the two say the same about an assignment sign;
* `Cursor.trail`: the deliveries of a cursor before the end of the text or the first fault;
* `Delivery.Span`: deliveries that follow one another without a gap;
* `Delivery.Span.length_le`: each of them takes a character;
* **`Delivery.Span.trail_eq`**, **`Delivery.exists_span`**: the spans from a delivery are the starts
  of its trail behind which the next token can be fetched.
-/

namespace LusoPascal

/-! ## What is fetched -/

namespace Cursor

variable {text trivia body chars rest : List Char} {line : Nat}

theorem next_eq_end (hsplit : splitTrivia .between text = (trivia, [])) :
    (Cursor.mk text line false).next =
      (.ok ⟨.endOfInput, line + trivia.count '\n'⟩, ⟨[], line + trivia.count '\n', true⟩) := by
  rw [next, if_neg Bool.false_ne_true]
  dsimp only
  rw [hsplit, scan?]

theorem next_eq_ok {token : Token} (hsplit : splitTrivia .between text = (trivia, body))
    (hscan : scan? body = some ⟨.ok token, chars, rest⟩) :
    (Cursor.mk text line false).next =
      (.ok ⟨token, line + trivia.count '\n'⟩, ⟨rest, line + trivia.count '\n', false⟩) := by
  rw [next, if_neg Bool.false_ne_true]
  dsimp only
  rw [hsplit, hscan]

theorem next_eq_error {fault : Fault} (hsplit : splitTrivia .between text = (trivia, body))
    (hscan : scan? body = some ⟨.error fault, chars, rest⟩) :
    (Cursor.mk text line false).next =
      (.error ⟨fault, line + trivia.count '\n'⟩, ⟨rest, line + trivia.count '\n', true⟩) := by
  rw [next, if_neg Bool.false_ne_true]
  dsimp only
  rw [hsplit, hscan]

theorem delivered_congr {cursor other : Cursor} (h : cursor.next = other.next) :
    cursor.delivered = other.delivered := by
  rw [delivered_eq, h, ← delivered_eq]

end Cursor

/-! ## Deliveries -/

/-- A token and the cursor that delivers it. -/
structure Delivery where
  before : Cursor
  located : Located
  delivers : before.next.1 = .ok located

namespace Delivery

def behind (d : Delivery) : Cursor := d.before.next.2

def token (d : Delivery) : Token := d.located.token

def kind (d : Delivery) : TokenKind := d.token.kind

def line (d : Delivery) : Nat := d.located.line

/-- A delivery in the place of an identifier. -/
def identifier (d : Delivery) : Identifier := ⟨d.token.text, d.token, d.line⟩

/-- The kind of the token behind a delivery; nothing if a fault stands there. -/
def nextKind? (d : Delivery) : Option TokenKind :=
  match d.behind.next.1 with
  | .ok located => some located.token.kind
  | .error _ => none

/-- Whether the raw character at index one behind a delivery announces an assignment. -/
def rawAssign (d : Delivery) : Bool :=
  d.behind.peek? == some ':' || d.behind.peek? == some '='

/-- The raw character says the same as the next token about an assignment sign. -/
def Agrees (d : Delivery) : Prop := d.nextKind? = some .assign ↔ d.rawAssign = true

theorem genuine (d : Delivery) : d.token.Genuine := Cursor.genuine_of_next d.delivers

/-- A kind with a spelling of its own determines the token. -/
theorem token_of_kind {d : Delivery} {kind : TokenKind} {spelling : String} (hd : d.kind = kind)
    (hs : kind.spelling? = some spelling) : d.token = ⟨kind, .text spelling⟩ := by
  subst hd
  exact d.genuine.eq_of_spelling? hs

theorem next_before (d : Delivery) : d.before.next = (.ok d.located, d.behind) :=
  Prod.ext d.delivers rfl

theorem length_rest_behind_lt {d : Delivery} (h : d.kind ≠ .endOfInput) :
    d.behind.rest.length < d.before.rest.length := Cursor.length_rest_next_lt d.delivers h

theorem ext_before {d e : Delivery} (h : d.before = e.before) : d = e := by
  obtain ⟨before, located, hd⟩ := d
  obtain ⟨_, located', he⟩ := e
  obtain rfl := h
  obtain rfl := Except.ok.inj (hd.symm.trans he)
  rfl

theorem nextKind?_eq {d e : Delivery} (h : e.before = d.behind) : d.nextKind? = some e.kind := by
  rw [nextKind?, ← h, e.delivers]
  rfl

end Delivery

/-! ## Trails -/

namespace Cursor

/-- The deliveries of a cursor before the end of the text or the first fault. -/
def trail (cursor : Cursor) : List Delivery :=
  match h : cursor.next.1 with
  | .error _ => []
  | .ok located =>
    if hend : located.token.kind = .endOfInput then []
    else
      have : cursor.next.2.rest.length < cursor.rest.length := length_rest_next_lt h hend
      ⟨cursor, located, h⟩ :: cursor.next.2.trail
termination_by cursor.rest.length

theorem trail_of_error {cursor : Cursor} {error : LexicalError}
    (h : cursor.next.1 = .error error) : cursor.trail = [] := by
  rw [trail]
  split
  · rfl
  · next h' => rw [h] at h'; cases h'

end Cursor

namespace Delivery

theorem trail_of_end {d : Delivery} (h : d.kind = .endOfInput) : d.before.trail = [] := by
  rw [Cursor.trail]
  split
  · rfl
  · next located hok =>
    obtain rfl := Except.ok.inj (d.delivers.symm.trans hok)
    exact dif_pos h

theorem trail_of_ne_end {d : Delivery} (h : d.kind ≠ .endOfInput) :
    d.before.trail = d :: d.behind.trail := by
  rw [Cursor.trail]
  split
  · next hok => rw [d.delivers] at hok; cases hok
  · next located hok =>
    obtain rfl := Except.ok.inj (d.delivers.symm.trans hok)
    exact dif_neg h

end Delivery

namespace Cursor

theorem of_trail_eq_cons {cursor : Cursor} {d : Delivery} {w : List Delivery}
    (h : cursor.trail = d :: w) :
    d.before = cursor ∧ d.kind ≠ .endOfInput ∧ d.behind.trail = w := by
  cases hnext : cursor.next.1 with
  | error error => rw [trail_of_error hnext] at h; cases h
  | ok located =>
    let e : Delivery := ⟨cursor, located, hnext⟩
    have he : e.before.trail = d :: w := h
    by_cases hend : e.kind = .endOfInput
    · rw [Delivery.trail_of_end hend] at he; cases he
    · rw [Delivery.trail_of_ne_end hend] at he
      obtain ⟨rfl, htail⟩ := List.cons.inj he
      exact ⟨rfl, hend, htail⟩

theorem delivered_fst (cursor : Cursor) :
    cursor.delivered.1 = cursor.trail.map Delivery.located := by
  induction h : cursor.rest.length using Nat.strong_induction_on generalizing cursor with
  | _ n ih =>
    rw [delivered_eq]
    split
    · next error behind hnext => rw [trail_of_error (congrArg Prod.fst hnext)]; rfl
    · next located behind hnext =>
      let d : Delivery := ⟨cursor, located, congrArg Prod.fst hnext⟩
      have hbehind : d.behind = behind := congrArg Prod.snd hnext
      change _ = d.before.trail.map Delivery.located
      split
      · next hend => rw [Delivery.trail_of_end (d := d) hend]; rfl
      · next hend =>
        have hlt := length_rest_next_lt d.delivers hend
        rw [Delivery.trail_of_ne_end (d := d) hend, hbehind, List.map_cons,
          ih _ (h ▸ hlt) behind (by rw [← hbehind]; rfl)]

theorem length_trail_le (cursor : Cursor) : cursor.trail.length ≤ cursor.rest.length := by
  induction h : cursor.trail generalizing cursor with
  | nil => exact Nat.zero_le _
  | cons d w ih =>
    obtain ⟨rfl, hend, htail⟩ := of_trail_eq_cons h
    have hlt := length_rest_next_lt d.delivers hend
    have hle := ih d.behind htail
    rw [List.length_cons]
    exact Nat.lt_of_le_of_lt hle hlt

end Cursor

/-! ## Spans -/

namespace Delivery

/-- `Span d w e`: from `d` on the deliveries are those in `w`, and then comes `e`. -/
inductive Span : Delivery → List Delivery → Delivery → Prop
  | nil (d : Delivery) : Span d [] d
  | cons {d e f : Delivery} {w : List Delivery} (hlink : e.before = d.behind) (hw : Span e w f) :
      Span d (d :: w) f

namespace Span

variable {d e f : Delivery} {v w : List Delivery}

@[simp] theorem nil_iff : Span d [] e ↔ d = e :=
  ⟨fun h => by cases h; rfl, fun h => h ▸ nil d⟩

theorem cons_iff : Span d (e :: w) f ↔ e = d ∧ ∃ c, c.before = d.behind ∧ Span c w f := by
  constructor
  · intro h
    cases h with
    | cons hlink hw => exact ⟨rfl, _, hlink, hw⟩
  · rintro ⟨rfl, c, hlink, hw⟩
    exact cons hlink hw

theorem single (h : e.before = d.behind) : Span d [d] e := cons h (nil e)

theorem append (hv : Span d v e) (hw : Span e w f) : Span d (v ++ w) f := by
  induction hv with
  | nil => exact hw
  | cons hlink _ ih => exact cons hlink (ih hw)

theorem append_iff : Span d (v ++ w) f ↔ ∃ e, Span d v e ∧ Span e w f := by
  constructor
  · induction v generalizing d with
    | nil => exact fun h => ⟨d, nil d, h⟩
    | cons c v ih =>
      intro h
      obtain ⟨rfl, m, hlink, hm⟩ := cons_iff.mp h
      obtain ⟨e, hv, hw⟩ := ih hm
      exact ⟨e, cons hlink hv, hw⟩
  · rintro ⟨e, hv, hw⟩
    exact hv.append hw

theorem before_of_getLast? {last : Delivery} (h : Span d w e)
    (hlast : last ∈ w.getLast?) : e.before = last.behind := by
  induction h with
  | nil => simp at hlast
  | @cons d e f w hlink hw ih =>
    cases w with
    | nil =>
      obtain rfl := Span.nil_iff.mp hw
      rw [List.getLast?_singleton, Option.mem_some_iff] at hlast
      rw [hlink, hlast]
    | cons c w => exact ih (by rwa [List.getLast?_cons_cons] at hlast)

/-- **A span without the end of the text is the start of a trail.** -/
theorem trail_eq (h : Span d w e) (hw : ∀ c ∈ w, c.kind ≠ .endOfInput) :
    d.before.trail = w ++ e.before.trail := by
  induction h with
  | nil => rfl
  | cons hlink _ ih =>
    rw [trail_of_ne_end (hw _ List.mem_cons_self), ← hlink,
      ih fun c hc => hw c (List.mem_cons_of_mem _ hc), List.cons_append]

theorem length_le (h : Span d w e) (hw : ∀ c ∈ w, c.kind ≠ .endOfInput) :
    e.before.rest.length + w.length ≤ d.before.rest.length := by
  induction h with
  | nil => exact le_rfl
  | @cons d e f w hlink _ ih =>
    rw [List.forall_mem_cons] at hw
    have hlt := length_rest_behind_lt hw.1
    have hle := ih hw.2
    rw [hlink] at hle
    rw [List.length_cons]
    omega

/-- Behind a token is a character for each of the tokens that follow, and the text behind those. -/
theorem length_behind {c : Delivery} (h : Span d (v ++ c :: w) e)
    (hw : ∀ b ∈ v ++ c :: w, b.kind ≠ .endOfInput) :
    e.before.rest.length + w.length ≤ c.behind.rest.length := by
  obtain ⟨b, -, hspan⟩ := append_iff.mp h
  obtain ⟨rfl, f, hlink, hspan⟩ := cons_iff.mp hspan
  rw [← hlink]
  exact hspan.length_le fun b hb => hw b (List.mem_append_right _ (List.mem_cons_of_mem _ hb))

end Span

/-- **The start of a trail is a span** if the token behind it can be fetched. -/
theorem exists_span {d : Delivery} {w rest : List Delivery} (h : d.before.trail = w ++ rest)
    (hfetch : ∀ last ∈ w.getLast?, ∃ located, last.behind.next.1 = .ok located) :
    ∃ e, Span d w e := by
  induction w generalizing d with
  | nil => exact ⟨d, .nil d⟩
  | cons c w ih =>
    obtain ⟨hc, -, htail⟩ := Cursor.of_trail_eq_cons h
    obtain rfl := ext_before hc
    cases w with
    | nil =>
      obtain ⟨located, hlocated⟩ := hfetch c rfl
      exact ⟨⟨c.behind, located, hlocated⟩, .single rfl⟩
    | cons b w =>
      obtain ⟨hb, -, -⟩ := Cursor.of_trail_eq_cons htail
      have hfetch' : ∀ last ∈ (b :: w).getLast?, ∃ located, last.behind.next.1 = .ok located :=
        fun last hlast => hfetch last (by rwa [List.getLast?_cons_cons])
      obtain ⟨e, he⟩ := ih (by rw [hb]; exact htail) hfetch'
      exact ⟨e, .cons hb he⟩

end Delivery

end LusoPascal
