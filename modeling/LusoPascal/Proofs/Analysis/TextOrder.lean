import LusoPascal.Proofs.Analysis.Discipline
import LusoPascal.Proofs.Grammar.Acceptance
import LusoPascal.Proofs.Token.Segmentation

/-!
# An analysis follows the text

An analysis visits the tree of a program in the order in which its tokens stand in the text, and
lines only grow along the tokens. So no reference is resolved after one that stands further down,
and an error is never reported above a reference that was resolved before it.

* `Cursor.lines_inOrder`: the lines of the tokens of a text only grow;
* `Visits`: an analyzer that resolves references at some deliveries, one after the other, and stops
  at a delivery if it fails;
* `Visits.bind`: one analyzer after another visits what the two visit;
* `Stays`: an analyzer that resolves nothing and fails on one line only;
* **`DerivesStatement.visits`**, **`DerivesBlock.visits`**: the parts of a program;
* **`Program.analyze_inOrder`**: whole programs.
-/

namespace LusoPascal

open Delivery

/-! ## The lines of tokens -/

theorem le_line_of_mem_locatedTokens {first : Nat} {pieces : List Piece} :
    ∀ located ∈ locatedTokens first pieces, first ≤ located.line := by
  induction pieces generalizing first with
  | nil => simp [locatedTokens]
  | cons piece pieces ih =>
    intro located hmem
    rcases List.mem_append.mp hmem with hhere | hlater
    · obtain ⟨token, -, rfl⟩ := Option.map_eq_some_iff.mp (Option.mem_toList.mp hhere)
      exact le_rfl
    · exact (Nat.le_add_right _ _).trans (ih located hlater)

theorem locatedTokens_inOrder (first : Nat) (pieces : List Piece) :
    ((locatedTokens first pieces).map Located.line).Pairwise (· ≤ ·) := by
  induction pieces generalizing first with
  | nil => exact .nil
  | cons piece pieces ih =>
    rw [locatedTokens]
    cases piece.token? with
    | none => exact ih _
    | some token =>
      refine List.pairwise_cons.mpr ⟨List.forall_mem_map.mpr fun located hmem => ?_, ih _⟩
      exact (Nat.le_add_right _ _).trans (le_line_of_mem_locatedTokens located hmem)

/-- **The lines of the tokens of a text only grow.** -/
theorem Cursor.lines_inOrder (source : String) :
    ((Cursor.ofSource source).trail.map Delivery.line).Pairwise (· ≤ ·) := by
  obtain ⟨pieces, rest, fault?, -, hdelivered⟩ := exists_scans source.toList 1
  have hlines : (Cursor.ofSource source).trail.map Delivery.line =
      (locatedTokens 1 pieces).map Located.line := by
    have hfst : (Cursor.ofSource source).delivered.1 = locatedTokens 1 pieces :=
      congrArg Prod.fst hdelivered
    rw [← hfst, Cursor.delivered_fst, List.map_map]
    rfl
  rw [hlines]
  exact locatedTokens_inOrder 1 pieces

/-- The lines of the references that an analysis has resolved, in order. -/
def Analysis.lines (analysis : Analysis) : List Nat :=
  analysis.resolutions.toList.map Resolution.line

/-! ## Visits -/

namespace Analyzer

variable {α β : Type} {v w : List Delivery} {d : Delivery}

/-- An analyzer visits deliveries in order: the references that it resolves lie on the lines of some
of them, one after the other, and if it fails, then at one of them, and it has resolved references
only up to there. -/
def Visits (w : List Delivery) (p : Analyzer α) : Prop :=
  ∀ before, Meets p before
    (fun _ after => ∃ new, after.lines = before.lines ++ new ∧ new.Sublist (w.map line))
    fun error stop => ∃ new passed last, stop.lines = before.lines ++ new ∧
      passed ++ [last] <+: w ∧ error.line = last.line ∧ new.Sublist ((passed ++ [last]).map line)

/-- An analyzer resolves nothing, and fails on one line only. -/
def Stays (there : Nat) (p : Analyzer α) : Prop :=
  ∀ before, Meets p before (fun _ after => after.lines = before.lines)
    fun error stop => stop.lines = before.lines ∧ error.line = there

namespace Visits

variable {p : Analyzer α} {q : α → Analyzer β}

/-- **One analyzer after another** visits what the first one visits and then what the second one
visits. -/
theorem bind (hp : Visits v p) (hq : ∀ a, Visits w (q a)) : Visits (v ++ w) (p >>= q) := by
  intro before
  refine Meets.bind ((hp before).mono (fun _ _ => id) ?_) ?_
  · rintro error stop ⟨new, passed, last, hlines, hprefix, hlast, hnew⟩
    exact ⟨new, passed, last, hlines, hprefix.trans (List.prefix_append v w), hlast, hnew⟩
  · rintro a between ⟨new, hlines, hnew⟩
    refine (hq a between).mono ?_ ?_
    · rintro b after ⟨more, hmore, hsub⟩
      refine ⟨new ++ more, by rw [hmore, hlines, List.append_assoc], ?_⟩
      rw [List.map_append]
      exact hnew.append hsub
    · rintro error stop ⟨more, passed, last, hmore, hprefix, hlast, hsub⟩
      refine ⟨new ++ more, v ++ passed, last, by rw [hmore, hlines, List.append_assoc], ?_, hlast,
        ?_⟩
      · rw [List.append_assoc]
        exact (List.prefix_append_right_inj v).mpr hprefix
      · rw [List.append_assoc, List.map_append]
        exact hnew.append hsub

theorem bind_nil (hp : Visits w p) (hq : ∀ a, Visits [] (q a)) : Visits w (p >>= q) := by
  have hboth := hp.bind hq
  rwa [List.append_nil] at hboth

theorem cons (h : Visits w p) (d : Delivery) : Visits (d :: w) p := by
  refine fun before => (h before).mono ?_ ?_
  · rintro a after ⟨new, hlines, hnew⟩
    exact ⟨new, hlines, hnew.cons _⟩
  · rintro error stop ⟨new, passed, last, hlines, hprefix, hlast, hnew⟩
    exact ⟨new, d :: passed, last, hlines, List.cons_prefix_cons.mpr ⟨rfl, hprefix⟩, hlast,
      hnew.cons _⟩

theorem prepend (h : Visits w p) (v : List Delivery) : Visits (v ++ w) p := by
  induction v with
  | nil => exact h
  | cons d v ih => exact ih.cons d

theorem append (h : Visits v p) (w : List Delivery) : Visits (v ++ w) p := by
  refine fun before => (h before).mono ?_ ?_
  · rintro a after ⟨new, hlines, hnew⟩
    refine ⟨new, hlines, ?_⟩
    rw [List.map_append]
    exact hnew.trans (List.sublist_append_left _ _)
  · rintro error stop ⟨new, passed, last, hlines, hprefix, hlast, hnew⟩
    exact ⟨new, passed, last, hlines, hprefix.trans (List.prefix_append v w), hlast, hnew⟩

/-- A step that cannot fail and resolves nothing visits nothing. -/
theorem of_quiet (h : ∀ before, ∃ a after, p before = .ok a after ∧ after.lines = before.lines) :
    Visits [] p := by
  intro before
  obtain ⟨a, after, hrun, hlines⟩ := h before
  rw [Meets, hrun]
  exact ⟨[], by rw [hlines, List.append_nil], List.nil_sublist _⟩

theorem pure (a : α) : Visits [] (pure a : Analyzer α) :=
  of_quiet fun before => ⟨a, before, rfl, rfl⟩

theorem fail (violation : Violation) : Visits [d] (fail violation d.line : Analyzer α) :=
  fun _ => ⟨[], [], d, (List.append_nil _).symm, List.prefix_refl _, rfl, List.nil_sublist _⟩

theorem fail_bind (violation : Violation) :
    Visits [d] ((Analyzer.fail violation d.line : Analyzer α) >>= q) :=
  fun _ => ⟨[], [], d, (List.append_nil _).symm, List.prefix_refl _, rfl, List.nil_sublist _⟩

theorem stays (hp : Visits [d] p) (hq : ∀ a, Stays d.line (q a)) : Visits [d] (p >>= q) := by
  intro before
  refine Meets.bind (hp before) ?_
  rintro a between ⟨new, hlines, hnew⟩
  refine (hq a between).mono ?_ ?_
  · rintro b after hafter
    exact ⟨new, hafter.trans hlines, hnew⟩
  · rintro error stop ⟨hstop, herror⟩
    exact ⟨new, [], d, hstop.trans hlines, List.prefix_refl _, herror, hnew⟩

end Visits

/-! ## References and calls -/

theorem resolve?_visits (name : String) : Visits [] (resolve? name) :=
  .of_quiet fun before => ⟨_, before, rfl, rfl⟩

theorem lookup?_visits (name : String) : Visits [] (lookup? name) :=
  .of_quiet fun before => ⟨_, before, rfl, rfl⟩

theorem isTaken_visits (name : String) : Visits [] (isTaken name) :=
  .of_quiet fun before => ⟨_, before, rfl, rfl⟩

theorem record_visits (name : String) (scope : Scope) : Visits [d] (record name d.line scope) :=
  fun before => ⟨[d.line], by simp [Analysis.lines], List.Sublist.refl _⟩

theorem reference_visits (d : Delivery) : Visits [d] (reference d.identifier) := by
  refine (resolve?_visits d.identifier.name).bind fun found => ?_
  split
  · exact record_visits _ _
  · exact .fail _

namespace Stays

variable {there : Nat} {p : Analyzer α} {q : α → Analyzer β}

theorem bind (hp : Stays there p) (hq : ∀ a, Stays there (q a)) : Stays there (p >>= q) :=
  fun before => (hp before).bind fun a between hlines =>
    (hq a between).mono (fun _ _ hafter => hafter.trans hlines) fun _ _ hstop =>
      ⟨hstop.1.trans hlines, hstop.2⟩

theorem pure (a : α) : Stays there (pure a : Analyzer α) := fun _ => rfl

theorem fail (violation : Violation) : Stays there (fail violation there : Analyzer α) :=
  fun _ => ⟨rfl, rfl⟩

end Stays

theorem matchArguments_stays (c : Call) (args : List String) (params : List TypedName) :
    Stays c.line (matchArguments c args params) := by
  induction args generalizing params with
  | nil => exact .pure ()
  | cons argument args ih =>
    cases params with
    | nil => exact .pure ()
    | cons param params =>
      have hlookup : Stays c.line (lookup? argument) := fun _ => rfl
      refine hlookup.bind fun found => ?_
      split
      · split
        · exact (Stays.fail _).bind fun _ => ih params
        · exact ih params
      · exact .fail _
      · exact .fail _

theorem matchSignature_stays (c : Call) (params : List TypedName) :
    Stays c.line (matchSignature c params) := by
  rw [matchSignature]
  split
  · exact (Stays.fail _).bind fun _ => matchArguments_stays c _ _
  · exact matchArguments_stays c _ _

/-- A call is resolved and checked on the line of its first token. -/
theorem call_visits (strict : Bool) {c : Call} (h : c.line = d.line) :
    Visits [d] (call strict c) := by
  refine (resolve?_visits c.name).bind fun found => ?_
  rw [h]
  split
  · exact .fail _
  · split
    · split
      · refine (record_visits _ _).stays fun _ => ?_
        rw [← h]
        exact matchSignature_stays c _
      · exact .fail _
    · exact record_visits _ _

end Analyzer

/-! ## Commands -/

open Analyzer

section Commands

variable {strict : Bool} {w : List Delivery}

theorem DerivesExpression.visits {level : Level} {x : Expression}
    (h : DerivesExpression level w x) : Visits w (Analyzer.expression x) := by
  induction h with
  | number => exact (Visits.pure ()).cons _
  | var => exact reference_visits _
  | parens _ _ _ ih => exact (ih.append _).cons _
  | negation _ _ ih | signed _ _ ih => exact ih.cons _
  | ofFactor _ ih | ofTerm _ ih | ofSimple _ ih => exact ih
  | product _ _ _ ihl ihr | sum _ _ _ ihl ihr | comparison _ _ _ ihl ihr =>
    exact ihl.bind fun _ => ihr.cons _

theorem DerivesValue.visits {x : Expression} (h : DerivesValue w x) :
    Visits w (Analyzer.expression x) := by
  cases h with
  | boolean => exact (Visits.pure ()).cons _
  | expression hw => exact hw.visits

mutual

theorem DerivesStatement.visits {w l : List Delivery} {s : Statement}
    (h : DerivesStatement w s l) : Visits w (statement strict s) := by
  match h with
  | .empty => rw [statement]; exact .pure ()
  | .assignment _ _ hw =>
    rw [statement]
    exact (reference_visits _).bind fun _ => hw.visits.cons _
  | .call _ _ => rw [statement]; exact (call_visits strict rfl).append _
  | .compound hw => rw [statement]; exact hw.visits
  | .ifThen _ hv _ hw | .loop _ hv _ hw =>
    rw [statement]
    exact (hv.visits.bind fun _ => hw.visits.cons _).cons _
  | .ifThenElse _ hv _ hw _ hx =>
    rw [statement]
    exact (hv.visits.bind fun _ => (hw.visits.bind fun _ => hx.visits.cons _).cons _).cons _

theorem DerivesCompound.visits {w l : List Delivery} {ss : List Statement}
    (h : DerivesCompound w ss l) : Visits w (statements strict ss) := by
  match h with
  | .intro _ hw _ => exact (hw.visits.append _).cons _

theorem DerivesStatements.visits {w l : List Delivery} {ss : List Statement}
    (h : DerivesStatements w ss l) : Visits w (statements strict ss) := by
  match h with
  | .one hw => exact hw.visits.bind_nil fun _ => .pure ()
  | .more hv _ hw => exact hv.visits.bind fun _ => hw.visits.cons _

end

end Commands

/-! ## Declarations -/

namespace Analyzer

theorem define_visits (symbol : Symbol) : Visits [] (define symbol) :=
  .of_quiet fun before =>
    ⟨(), _, define_apply symbol before, by cases before.table.define? symbol <;> rfl⟩

theorem leave_visits : Visits [] leave :=
  .of_quiet fun before => ⟨(), _, leave_apply before, by cases before.table.pop? <;> rfl⟩

theorem declare_visits (d : Delivery) (type : TypeName) :
    Visits [d] (declare ⟨d.identifier, type⟩) := by
  rw [declare, typeNamed, bind_assoc]
  refine (lookup?_visits _).bind fun found => ?_
  split
  · rw [pure_bind]
    refine (isTaken_visits _).bind fun taken => ?_
    cases taken with
    | true => exact .fail_bind _
    | false => exact ((define_visits _).bind fun _ => .pure _).cons d
  · exact .fail_bind _

theorem openProcedure_visits (d : Delivery) (name : String) (params : List TypedIdentifier) :
    Visits [d] (openProcedure ⟨name, params, d.line⟩) := by
  have henter : Visits [] (enter name) := .of_quiet fun before => ⟨(), _, rfl, rfl⟩
  rw [openProcedure]
  refine (isTaken_visits _).bind fun taken => ?_
  cases taken with
  | true => exact .fail_bind _
  | false => exact ((define_visits _).bind fun _ => henter).cons d

end Analyzer

section Declarations

variable {strict : Bool} {w : List Delivery}

theorem DerivesDeclarator.visits {ident : Identifier} (h : DerivesDeclarator w ident)
    (type : TypeName) : Visits w (declaration strict (.var ⟨ident, type⟩)) := by
  have hdeclare (d : Delivery) : Visits [d] (declaration strict (.var ⟨d.identifier, type⟩)) := by
    rw [declaration]
    exact (declare_visits d type).bind fun _ => Visits.pure ()
  cases h with
  | plain => exact hdeclare _
  | assigned => exact (hdeclare _).append _

theorem DerivesVariables.visits {ds : List Declaration} (h : DerivesVariables w ds) :
    Visits w (declarations strict ds) := by
  cases h with
  | @intro m t w p type idents hm ht hw hp =>
    have hnames : Visits w (declarations strict (idents.map fun ident => .var ⟨ident, type⟩)) := by
      clear hp
      induction hw with
      | one hitem => exact (hitem.visits type).bind_nil fun _ => .pure ()
      | more hitem _ _ ih => exact (hitem.visits type).bind fun _ => ih.cons _
    exact ((hnames.append [p]).prepend t).prepend m

theorem Repeated.visits {groups : List (List Declaration)}
    (h : Repeated DerivesVariables w groups) : Visits w (declarations strict groups.flatten) := by
  induction h with
  | nil => exact .pure ()
  | cons hitem _ ih =>
    rw [List.flatten_cons, declarations_append]
    exact hitem.visits.bind fun _ => ih

theorem DerivesParameterGroup.visits {params : List TypedIdentifier}
    (h : DerivesParameterGroup w params) : Visits w (declareAll params) := by
  cases h with
  | @intro m w t c type idents hm hw hc ht =>
    have hdeclare {v : List Delivery} {ident : Identifier} (hitem : DerivesIdentifier v ident) :
        Visits v (declare ⟨ident, type⟩) := by
      cases hitem with
      | intro => exact declare_visits _ type
    have hnames : Visits w (declareAll (idents.map fun ident => ⟨ident, type⟩)) := by
      clear hc
      induction hw with
      | one hitem =>
        exact (hdeclare hitem).bind_nil fun _ => (Visits.pure _).bind_nil fun _ => .pure _
      | more hitem _ _ ih =>
        exact (hdeclare hitem).bind fun _ => (ih.cons _).bind_nil fun _ => .pure _
    exact (hnames.append (c :: t)).prepend m

theorem DerivesParameters.visits {params : List TypedIdentifier}
    (h : DerivesParameters w params) : Visits w (declareAll params) := by
  cases h with
  | missing => exact .pure _
  | @groups o c w groups ho hw hc =>
    have hgroups : Visits w (declareAll groups.flatten) := by
      clear hc
      induction hw with
      | one hitem => rw [List.flatten_singleton]; exact hitem.visits
      | more hitem _ _ ih =>
        rw [List.flatten_cons, declareAll_append]
        exact hitem.visits.bind fun _ => (ih.cons _).bind_nil fun _ => .pure _
    exact (hgroups.append [c]).cons o

mutual

theorem DerivesBlock.visits {w l : List Delivery} {block : Block} (h : DerivesBlock w block l) :
    Visits w (Analyzer.block strict block) := by
  match h with
  | .intro hu hv hw =>
    rw [Analyzer.block, declarations_append, bind_assoc]
    exact hu.visits.bind fun _ => hv.visits.bind fun _ => hw.visits

theorem DerivesProcedure.visits {w l : List Delivery} {procedure : Declaration}
    (h : DerivesProcedure w procedure l) : Visits w (declaration strict procedure) := by
  match h with
  | @DerivesProcedure.intro p n s t v w _ params block hp hn hv hs hw ht =>
    rw [declaration_procedure]
    have hparams : Visits v (declareParams ⟨n.token.text, params, p.line⟩) :=
      hv.visits.bind_nil fun _ => .of_quiet fun before => ⟨(), _, rfl, rfl⟩
    have hblock : Visits w (Analyzer.block strict block >>= fun _ => leave) :=
      hw.visits.bind_nil fun _ => leave_visits
    rw [Analyzer.block, bind_assoc] at hblock
    refine (openProcedure_visits p _ _).bind fun _ => ?_
    exact (hparams.bind fun _ => (hblock.append [t]).cons s).cons n

theorem DerivesProcedures.visits {w l : List Delivery} {procedures : List Declaration}
    (h : DerivesProcedures w procedures l) : Visits w (declarations strict procedures) := by
  match h with
  | .nil => exact .pure ()
  | .cons hv hw => exact hv.visits.bind fun _ => hw.visits

end

end Declarations

/-! ## Whole programs -/

theorem DerivesProgram.visits {w l : List Delivery} {program : Program}
    (h : DerivesProgram w program l) (strict : Bool) :
    Visits w (Analyzer.block strict program.block >>= fun _ => leave) := by
  cases h with
  | @intro p n s t v _ block hp hn hs hw ht =>
    have hblock : Visits v (Analyzer.block strict block >>= fun _ => leave) :=
      hw.visits.bind_nil fun _ => leave_visits
    exact (hblock.append [t]).prepend [p, n, s]

/-- **An analysis follows the text**: the lines of the references resolved never decrease, and none
is below the line of the error. -/
theorem Program.analyze_inOrder {source : String} {program : Program}
    (h : Program.ofSource source = .ok program) (strict : Bool) (earlier : Analysis) :
    ((program.analyze strict earlier).2.resolutions.toList.map Resolution.line).Pairwise (· ≤ ·) ∧
    ∀ error, (program.analyze strict earlier).1 = .error error →
      ∀ resolution ∈ (program.analyze strict earlier).2.resolutions,
        resolution.line ≤ error.line := by
  obtain ⟨⟨leaders, hderives, -⟩, -⟩ := Program.ofSource_sound h
  obtain ⟨start, hstart, hempty⟩ :
      ∃ start, enter "global" .initial = .ok () start ∧ start.lines = [] := ⟨_, rfl, rfl⟩
  have hsorted : ((sentence source).map line).Pairwise (· ≤ ·) := by
    have hstarts := throughDot_prefix (Cursor.ofSource source).trail
    exact (Cursor.lines_inOrder source).sublist (hstarts.sublist.map line)
  have hvisits := hderives.visits strict start
  rw [hempty] at hvisits
  rw [Program.analyze, Program.program_apply hstart]
  cases hrun : (Analyzer.block strict program.block >>= fun _ => leave) start with
  | ok _ after =>
    obtain ⟨new, hlines, hnew⟩ := hvisits.of_ok hrun
    have hordered : after.lines.Pairwise (· ≤ ·) := by
      rw [hlines]
      exact hsorted.sublist hnew
    refine ⟨hordered, ?_⟩
    rintro error ⟨⟩
  | error error stop =>
    obtain ⟨new, passed, last, hlines, hstarts, hlast, hnew⟩ := hvisits.of_error hrun
    have hpassed : ((passed ++ [last]).map line).Pairwise (· ≤ ·) :=
      hsorted.sublist (hstarts.sublist.map line)
    have hordered : stop.lines.Pairwise (· ≤ ·) := by
      rw [hlines]
      exact hpassed.sublist hnew
    refine ⟨hordered, ?_⟩
    rintro _ ⟨⟩ resolution hmem
    have hline : resolution.line ∈ stop.lines := List.mem_map_of_mem (Array.mem_toList_iff.mpr hmem)
    rw [hlines] at hline
    -- each line that was passed is at most the last one
    rw [List.map_append, List.pairwise_append] at hpassed
    have hmember := hnew.subset hline
    rw [List.map_append] at hmember
    rw [hlast]
    rcases List.mem_append.mp hmember with hearlier | hhere
    · exact hpassed.2.2 _ hearlier _ (List.mem_singleton_self _)
    · exact (List.mem_singleton.mp hhere).le

/-- References on four lines, two of them in a procedure, and a name that is not declared. -/
theorem Program.analyze_inOrder_unknown :
    let source := "program p; inteiro a;\nprocedimento q(b: inteiro);\n" ++
      "inicio b := a + 1 fim;\ninicio\nq(a);\na := 2 *\nc fim."
    ∃ program, Program.ofSource source = .ok program ∧
      (program.analyze true .initial).1 = .error ⟨.unknownVariable "c", 7⟩ ∧
      (program.analyze true .initial).2.resolutions.toList.map Resolution.line = [3, 3, 5, 6] ∧
      ∀ resolution ∈ (program.analyze true .initial).2.resolutions, resolution.line ≤ 7 := by
  intro source
  have hrun : (Program.ofSource source).toOption.map (fun program =>
      ((program.analyze true .initial).1,
        (program.analyze true .initial).2.resolutions.toList.map Resolution.line)) =
      some (.error ⟨.unknownVariable "c", 7⟩, [3, 3, 5, 6]) := by decide +kernel
  cases hprogram : Program.ofSource source with
  | error error => rw [hprogram] at hrun; cases hrun
  | ok program =>
    rw [hprogram] at hrun
    obtain ⟨herror, hlines⟩ := Prod.mk.inj (Option.some.inj hrun)
    exact ⟨program, rfl, herror, hlines, (analyze_inOrder hprogram true .initial).2 _ herror⟩

end LusoPascal
