import LusoPascal.Proofs.Grammar.Kinds
import LusoPascal.Proofs.Grammar.Mirroring
import LusoPascal.Proofs.Grammar.Stream

/-!
# A reader rejects the first token that breaks the program

What is consumed before a token is rejected could still go on with each kind of token that the
error names. It could not go on with the rejected token, if so far the raw characters told
assignments from calls as the tokens do: otherwise some text would go on like that, and on this
text the reader, which could not tell the two texts apart before, would have succeeded.

* `StartsSentence`, `LeadsAt`: the starts of sentences, and where a command begins in one;
* `alike_of_spans`, `agrees_iff_of_spans`: two texts with the same tokens up to one token;
* `exists_signed`: a text with given tokens and with given raw characters behind them;
* `exists_twin`: a text that goes on as a given sentence does;
* `Production.not_startsSentence`: why the rejected token breaks the program;
* **`Reader.parse_rejects_first`**: what a reader consumes before it rejects a token.
-/

namespace LusoPascal

open Delivery

/-- Some sentence of the grammar starts with tokens of these kinds. -/
def StartsSentence (kinds : List TokenKind) : Prop :=
  ∃ w program leaders, DerivesProgram w program leaders ∧ kinds <+: w.map kind

theorem StartsSentence.of_append {kinds more : List TokenKind}
    (h : StartsSentence (kinds ++ more)) : StartsSentence kinds := by
  obtain ⟨w, program, leaders, hw, hstart⟩ := h
  exact ⟨w, program, leaders, hw, (List.prefix_append kinds more).trans hstart⟩

theorem Defect.exists_wanted (defect : Defect) : ∃ kind, kind ∈ defect.wanted := by
  cases defect <;> exact ⟨_, List.mem_cons_self⟩

/-- At an index, an identifier begins a command in some sentence that starts with tokens of these
kinds. -/
def LeadsAt (kinds : List TokenKind) (i : Nat) : Prop :=
  ∃ w program leaders c, DerivesProgram w program leaders ∧ w.Nodup ∧ kinds <+: w.map kind ∧
    i < kinds.length ∧ w[i]? = some c ∧ c ∈ leaders

namespace Delivery

variable {d d' e e' : Delivery} {v w w' : List Delivery}

theorem map_kind_eq (w : List Delivery) : w.map kind = (w.map token).map Token.kind := by
  rw [List.map_map]
  rfl

/-! ## Spans -/

theorem Span.nodup (h : Span d w e) (hw : ∀ c ∈ w, c.kind ≠ .endOfInput) : w.Nodup := by
  induction h with
  | nil => exact List.nodup_nil
  | @cons d f e w hlink hspan ih =>
    rw [List.forall_mem_cons] at hw
    refine List.nodup_cons.mpr ⟨fun hd => ?_, ih hw.2⟩
    -- behind itself there is less text than it has before it
    obtain ⟨u, x, rfl⟩ := List.append_of_mem hd
    obtain ⟨b, hu, hspan⟩ := append_iff.mp hspan
    obtain ⟨rfl, -⟩ := cons_iff.mp hspan
    have hle := hu.length_le fun c hc => hw.2 c (List.mem_append_left _ hc)
    have hlt := length_rest_behind_lt hw.1
    rw [hlink] at hle
    omega

theorem Span.map_nextKind? (h : Span d w e) :
    w.map nextKind? = (w.map kind ++ [e.kind]).tail.map some := by
  induction h with
  | nil => rfl
  | @cons d f e w hlink hspan ih =>
    rw [List.map_cons, ih, nextKind?_eq hlink, List.map_cons, List.cons_append, List.tail_cons]
    cases w with
    | nil => rw [Span.nil_iff.mp hspan]; rfl
    | cons c w =>
      obtain ⟨rfl, -⟩ := Span.cons_iff.mp hspan
      rfl

section Twins

variable (h : Span d w e) (h' : Span d' w' e') (htoken : w'.map token = w.map token)
  (hraw : w'.map rawAssign = w.map rawAssign) (he : e'.token = e.token)

include h h' htoken hraw he

/-- Two spans with the same tokens, and the same raw characters behind them, are alike up to the
token that comes next. -/
theorem alike_of_spans : Alike w.length d d' := by
  induction h generalizing d' w' with
  | nil =>
    obtain rfl := List.map_eq_nil_iff.mp htoken
    obtain rfl := Span.nil_iff.mp h'
    exact .ahead he.symm
  | @cons d f e w hlink _ ih =>
    obtain ⟨c, v, rfl, hc, hv⟩ := List.map_eq_cons_iff.mp htoken
    obtain ⟨rfl, g, hlink', h'⟩ := Span.cons_iff.mp h'
    obtain ⟨hrawd, hraw⟩ := List.cons.inj hraw
    exact .more hc.symm (fun _ => hrawd.symm) hlink hlink' (ih h' hv hraw he)

theorem agrees_iff_of_spans {i : Nat} {c c' : Delivery} (hc : w[i]? = some c)
    (hc' : w'[i]? = some c') : c'.Agrees ↔ c.Agrees := by
  have hkinds : w'.map kind = w.map kind := by rw [map_kind_eq, htoken, ← map_kind_eq]
  have hkind : e'.kind = e.kind := congrArg Token.kind he
  have hnext : w'.map nextKind? = w.map nextKind? := by
    rw [h'.map_nextKind?, h.map_nextKind?, hkinds, hkind]
  have hnext_i : c'.nextKind? = c.nextKind? := by simpa [hc, hc'] using congrArg (·[i]?) hnext
  have hraw_i : c'.rawAssign = c.rawAssign := by simpa [hc, hc'] using congrArg (·[i]?) hraw
  rw [Agrees, Agrees, hnext_i, hraw_i]

end Twins

/-! ## A text with given tokens and raw characters -/

/-- A gap that announces an assignment to the raw lookahead, or does not. -/
def signGap (raw : Bool) : List Char := if raw then ['\x7b', ':', '\x7d'] else [' ', ' ']

theorem isGap_signGap (raw : Bool) : IsGap (signGap raw) := by
  cases raw with
  | true => exact ⟨.inr rfl, by decide, fun _ => rfl⟩
  | false => exact ⟨.inl rfl, by decide, fun _ => rfl⟩

theorem rawAssign_of_signGap {raw : Bool} {rest : List Char}
    (h : d.behind = ⟨signGap raw ++ rest, 1, false⟩) : d.rawAssign = raw := by
  rw [rawAssign, Cursor.peek?, h]
  cases raw <;> rfl

/-- **Some text has given tokens and given raw characters behind them.** -/
theorem exists_signed {tokens : List Token} {raws : List Bool}
    (htokens : ∀ token ∈ tokens, token.IsWritable) (hlength : tokens.length = raws.length) :
    ∃ d w e, Span d w e ∧ e.kind = .endOfInput ∧ w.map token = tokens ∧
      w.map rawAssign = raws := by
  let items := tokens.zip (raws.map signGap)
  have hfst : items.map Prod.fst = tokens := List.map_fst_zip (by simp [hlength])
  have hitems : ∀ item ∈ items, item.1.IsWritable ∧ IsGap item.2 := by
    rintro ⟨token, gap⟩ hitem
    obtain ⟨htoken, hgap⟩ := List.of_mem_zip hitem
    obtain ⟨raw, -, rfl⟩ := List.mem_map.mp hgap
    exact ⟨htokens token htoken, isGap_signGap raw⟩
  obtain ⟨d, w, e, -, hw, he, hgaps⟩ := exists_spaced .start hitems
  rw [hfst] at hw
  have htoken : w.map token = tokens := by
    have hlocated := congrArg (List.map Located.token) hw.2
    rw [List.map_map, List.map_map] at hlocated
    exact hlocated.trans (List.map_id _)
  have hwlength : w.length = tokens.length := by rw [← htoken, List.length_map]
  refine ⟨d, w, e, hw.1, he, htoken, List.ext_getElem? fun i => ?_⟩
  by_cases hi : i < w.length
  · have htokens_i := List.getElem?_eq_getElem (l := tokens) (hwlength ▸ hi)
    have hraws_i := List.getElem?_eq_getElem (l := raws) (hlength ▸ hwlength ▸ hi)
    have hitem : items[i]? = some (tokens[i], signGap raws[i]) :=
      List.getElem?_zip_eq_some.mpr ⟨htokens_i, by rw [List.getElem?_map, hraws_i]; rfl⟩
    have hget := List.getElem?_eq_getElem hi
    rw [List.getElem?_map, hget, hraws_i, Option.map_some,
      rawAssign_of_signGap (hgaps i _ _ hget hitem)]
  · have hi' : w.length ≤ i := Nat.not_lt.mp hi
    rw [List.getElem?_eq_none (by rwa [List.length_map]),
      List.getElem?_eq_none (by rwa [← hlength, ← hwlength])]

theorem Span.agrees_of_signed (h : Span d w e)
    (hraw : w.map rawAssign = (w.map kind ++ [e.kind]).tail.map (· == .assign)) :
    ∀ c ∈ w, c.Agrees := by
  have hsame : w.map rawAssign = w.map fun c => c.nextKind? == some .assign := calc
    w.map rawAssign = (w.map kind ++ [e.kind]).tail.map (· == .assign) := hraw
    _ = ((w.map kind ++ [e.kind]).tail.map some).map (· == some .assign) := by
      rw [List.map_map]
      exact List.map_congr_left fun kind _ => by simp
    _ = (w.map nextKind?).map (· == some .assign) := by rw [h.map_nextKind?]
    _ = w.map fun c => c.nextKind? == some .assign := List.map_map
  intro c hc
  have hcraw := List.map_inj_left.mp hsame c hc
  rw [Agrees, hcraw, beq_iff_eq]

/-- **Some text goes on as a sentence does.** Up to a token it has the tokens of the given
deliveries and their raw characters; from then on the raw characters announce the assignments. -/
theorem exists_twin {x l : List Delivery} {program : Program} (hw : ∀ c ∈ w, c.kind ≠ .endOfInput)
    (hx : DerivesProgram x program l) (hstart : w.map kind ++ [e.kind] <+: x.map kind) :
    ∃ d' w' e' v f, Span d' w' e' ∧ Span e' v f ∧ w'.map token = w.map token ∧
      w'.map rawAssign = w.map rawAssign ∧ e'.token = e.token ∧
      (w' ++ v).map kind = x.map kind ∧ ∀ c ∈ v, c.Agrees := by
  obtain ⟨kinds, hkinds⟩ := hstart
  rw [List.append_assoc] at hkinds
  obtain ⟨u, y, rfl, hu, hy⟩ := List.map_eq_append_iff.mp hkinds.symm
  obtain ⟨c, y, rfl, hc, -⟩ := List.map_eq_cons_iff.mp hy
  have hne := hx.ne_endOfInput
  rw [List.forall_mem_append, List.forall_mem_cons] at hne
  let more := e.token :: y.map token
  let signs := (more.map Token.kind ++ [TokenKind.endOfInput]).tail.map (· == TokenKind.assign)
  have hwritable : ∀ t ∈ w.map token ++ more, t.IsWritable := by
    refine List.forall_mem_append.mpr ⟨List.forall_mem_map.mpr fun c hc => ⟨c.genuine, hw c hc⟩, ?_⟩
    refine List.forall_mem_cons.mpr ⟨⟨e.genuine, ?_⟩, ?_⟩
    · exact fun he => hne.2.1 (hc.trans he)
    · exact List.forall_mem_map.mpr fun c hc => ⟨c.genuine, hne.2.2 c hc⟩
  have hlength : (w.map token ++ more).length = (w.map rawAssign ++ signs).length := by
    simp [signs, more]
  obtain ⟨d', x', f, hspan, hf, htoken, hraw⟩ := exists_signed hwritable hlength
  obtain ⟨w', v, rfl, hw', hv⟩ := List.map_eq_append_iff.mp htoken
  rw [List.map_append] at hraw
  obtain ⟨hraw', hsigns⟩ := List.append_inj hraw (by simpa using congrArg List.length hw')
  obtain ⟨e', hspanw, hspanv⟩ := Span.append_iff.mp hspan
  have hkindsv : v.map kind = more.map Token.kind := by rw [map_kind_eq, hv]
  refine ⟨d', w', e', v, f, hspanw, hspanv, hw', hraw', ?_, ?_, ?_⟩
  · obtain ⟨e', v, rfl, he', -⟩ := List.map_eq_cons_iff.mp hv
    obtain ⟨rfl, -⟩ := Span.cons_iff.mp hspanv
    exact he'
  · have hkindsw : w'.map kind = w.map kind := by rw [map_kind_eq, hw', ← map_kind_eq]
    have hmore : more.map Token.kind = (c :: y).map kind := by
      rw [List.map_cons, List.map_cons, ← map_kind_eq, hc]
      rfl
    rw [List.map_append, List.map_append, hkindsw, hu, hkindsv, hmore]
  · refine hspanv.agrees_of_signed ?_
    rw [hsigns, hkindsv, hf]

end Delivery

namespace Production

/-- **The rejected token breaks the program.** -/
theorem not_startsSentence {budget : Nat} {d e : Delivery} {w : List Delivery}
    {log : Array Located} {error : SyntaxError} (hspan : Span d w e)
    (hw : ∀ c ∈ w, c.kind ≠ .endOfInput)
    (hrun : program budget (d.reader log) =
      .error (.rejected (.syntactic error)) (e.reader (logged log w)))
    (hagrees : ∀ (i : Nat) (c : Delivery), w[i]? = some c → LeadsAt (w.map kind) i → c.Agrees) :
    ¬ StartsSentence (w.map kind ++ [e.kind]) := by
  rintro ⟨x, P, leaders, hx, hstart⟩
  obtain ⟨d', w', e', v, f, hspanw, hspanv, htoken, hraw, he, hkinds, hv⟩ :=
    exists_twin hw hx hstart
  obtain ⟨P, leaders, hx'⟩ := hx.of_kinds hkinds
  obtain ⟨P, hx', hnearest⟩ := hx'.exists_nearestElse
  have hspan' := hspanw.append hspanv
  have hlength : w'.length = w.length := by simpa using congrArg List.length htoken
  have hkindsw : w'.map kind = w.map kind := by rw [map_kind_eq, htoken, ← map_kind_eq]
  -- the leaders among the first tokens agree as those of the given text do
  have hw' : ∀ c ∈ leaders, c ∈ w' → c.Agrees := by
    intro c' hc' hmem
    obtain ⟨i, hget'⟩ := List.mem_iff_getElem?.mp hmem
    have hi : i < w.length := hlength ▸ (List.getElem?_eq_some_iff.mp hget').1
    have hget := List.getElem?_eq_getElem hi
    have hleads : LeadsAt (w.map kind) i := by
      refine ⟨w' ++ v, P, leaders, c', hx', hspan'.nodup hx'.ne_endOfInput, ?_, ?_, ?_, hc'⟩
      · rw [List.map_append, hkindsw]
        exact List.prefix_append _ _
      · rwa [List.length_map]
      · rwa [List.getElem?_append_left (hlength ▸ hi)]
    exact (agrees_iff_of_spans hspan hspanw htoken hraw he hget hget').mpr (hagrees i _ hget hleads)
  have hagrees' : ∀ c ∈ leaders, c.Agrees := fun c hc =>
    (List.mem_append.mp (hx'.leaders_subset hc)).elim (hw' c hc) (hv c)
  have hreads := program_complete ⟨leaders, hx', hnearest, hagrees'⟩ le_rfl hspan' #[]
  have hsize : (reached (program budget) (d.reader log)).consumed.size ≤ log.size + w.length := by
    rw [reached, hrun]
    exact (size_logged log w).le
  have hmatch := (program_mirrors budget (w' ++ v).length).runs
    (alike_of_spans hspan hspanw htoken hraw he) log #[] hsize
  rw [hrun, hreads] at hmatch
  cases hmatch

end Production

/-- **A reader rejects the first token that breaks the program**: what it consumed begins a sentence
with each kind that was wanted, and with the token found it does not. -/
theorem Reader.parse_rejects_first {source : String} {reader behind : Reader} {error : SyntaxError}
    (hreader : Reader.ofSource source = .ok reader)
    (hparse : reader.parse = (.error (.syntactic error), behind)) :
    ∃ d w e, d.before = Cursor.ofSource source ∧ Span d w e ∧
      behind.consumed.toList = w.map located ∧ error.found = e.located ∧
      StartsSentence (w.map Delivery.kind) ∧
      (∀ kind ∈ error.defect.wanted, StartsSentence (w.map Delivery.kind ++ [kind])) ∧
      ((∀ (i : Nat) (c : Delivery), w[i]? = some c → LeadsAt (w.map Delivery.kind) i → c.Agrees) →
        ¬ StartsSentence (w.map Delivery.kind ++ [error.found.token.kind])) := by
  obtain ⟨d, hd, rfl⟩ := Reader.ofSource_eq_ok_iff.mp hreader
  rcases d.parse_ok_or_failed #[] with
    ⟨_, _, _, hok, -⟩ | ⟨error', behind', herror, hrun, hfailed⟩
  · rw [hparse] at hok
    cases hok
  · obtain ⟨hsame, rfl⟩ := Prod.mk.inj (hparse.symm.trans herror)
    obtain rfl := Except.error.inj hsame
    cases hfailed with
    | @syntactic w e defect hspan hw hmend =>
      have hwanted : ∀ kind ∈ defect.wanted, StartsSentence (w.map Delivery.kind ++ [kind]) := by
        intro kind hkind
        obtain ⟨c, v, rfl, program, leaders, hderives⟩ := hmend kind hkind
        exact ⟨_, program, leaders, hderives, v.map Delivery.kind, by simp⟩
      obtain ⟨kind, hkind⟩ := defect.exists_wanted
      exact ⟨d, w, e, hd, hspan, toList_logged #[] w, rfl, (hwanted kind hkind).of_append, hwanted,
        Production.not_startsSentence hspan hw hrun⟩

/-- A second name is rejected behind the name of a program, where a semicolon was wanted. -/
theorem Reader.parse_rejects_second_name :
    StartsSentence [.program, .identifier, .semicolon] ∧
      ¬ StartsSentence [.program, .identifier, .identifier] := by
  let first : Located := ⟨⟨.program, .text "program"⟩, 1⟩
  let name : Located := ⟨⟨.identifier, .text "p"⟩, 1⟩
  let found : Located := ⟨⟨.identifier, .text "x"⟩, 1⟩
  have hreader : Reader.ofSource "program p x" =
      .ok ⟨first, ⟨[' ', 'p', ' ', 'x'], 1, false⟩, #[]⟩ := rfl
  have hparse : Reader.parse ⟨first, ⟨[' ', 'p', ' ', 'x'], 1, false⟩, #[]⟩ =
      (.error (.syntactic ⟨.expected .semicolon, found⟩),
        ⟨found, ⟨[], 1, false⟩, #[first, name]⟩) := rfl
  obtain ⟨d, w, e, hd, hspan, hw, he, -, hwanted, hbreaks⟩ :=
    Reader.parse_rejects_first hreader hparse
  have hlocated : w.map located = [first, name] := hw.symm
  obtain ⟨a, v, rfl, ha, hv⟩ := List.map_eq_cons_iff.mp hlocated
  obtain ⟨b, rfl, hb⟩ := List.map_eq_singleton_iff.mp hv
  obtain ⟨rfl, c, hlink, hspan'⟩ := Span.cons_iff.mp hspan
  obtain ⟨rfl, -⟩ := Span.cons_iff.mp hspan'
  have hkinda : a.kind = .program := congrArg (fun l => l.token.kind) ha
  have hkindb : b.kind = .identifier := congrArg (fun l => l.token.kind) hb
  have hkinde : e.kind = .identifier := congrArg (fun l => l.token.kind) he.symm
  have hkinds : [a, b].map Delivery.kind = [.program, .identifier] := by
    rw [List.map_cons, List.map_singleton, hkinda, hkindb]
  have hbehinda : a.behind = ⟨[' ', 'p', ' ', 'x'], 1, false⟩ := by
    rw [Delivery.behind, hd]
    rfl
  have hbehindb : b.behind = ⟨[' ', 'x'], 1, false⟩ := by
    rw [Delivery.behind, hlink, hbehinda]
    rfl
  have hraw : [a, b].map rawAssign =
      ([a, b].map Delivery.kind ++ [e.kind]).tail.map (· == TokenKind.assign) := by
    rw [hkinds, hkinde, List.map_cons, List.map_singleton, rawAssign, rawAssign, hbehinda, hbehindb]
    rfl
  have hagrees := hspan.agrees_of_signed hraw
  have hbreaks' := hbreaks fun i c hc _ => hagrees c (List.mem_of_getElem? hc)
  rw [hkinds] at hwanted hbreaks'
  exact ⟨hwanted .semicolon (List.mem_singleton_self _), hbreaks'⟩

end LusoPascal
