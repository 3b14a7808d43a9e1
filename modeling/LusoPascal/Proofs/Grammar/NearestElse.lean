import LusoPascal.Proofs.Grammar.Derivation

/-!
# Alternatives and the nearest conditional

The grammar lets an alternative belong to any conditional before it that has none. Among the trees
that it derives, one is chosen: that in which the conditional is always the nearest.

* `Statement.isOpen`: whether an alternative could be added at the end of a command;
* `Statement.NearestElse`, `Program.NearestElse`: no alternative passes over an open command;
* `Statement.attach`: an alternative added to the nearest conditional;
* **`DerivesProgram.exists_nearestElse`**: whatever is a program also has a derivation in which
  every alternative belongs to the nearest conditional, with the same leaders.
-/

namespace LusoPascal

namespace Statement

/-- A conditional without alternative stands at the end of the command. -/
def isOpen : Statement → Bool
  | ifThen _ _ => true
  | ifThenElse _ _ elseBranch => elseBranch.isOpen
  | loop _ body => body.isOpen
  | _ => false

mutual

/-- Every alternative belongs to the nearest conditional before it that has none. -/
def NearestElse : Statement → Prop
  | compound children => AllNearestElse children
  | ifThen _ thenBranch => thenBranch.NearestElse
  | ifThenElse _ thenBranch elseBranch =>
    thenBranch.isOpen = false ∧ thenBranch.NearestElse ∧ elseBranch.NearestElse
  | loop _ body => body.NearestElse
  | _ => True

/-- `NearestElse` for every command of a list. -/
def AllNearestElse : List Statement → Prop
  | [] => True
  | s :: ss => s.NearestElse ∧ AllNearestElse ss

end

/-- An alternative for the nearest conditional at the end of an open command. -/
def attach : Statement → Statement → Statement
  | ifThen c s, t => if s.isOpen then ifThen c (s.attach t) else ifThenElse c s t
  | ifThenElse c s s', t => ifThenElse c s (s'.attach t)
  | loop c s, t => loop c (s.attach t)
  | s, _ => s

theorem NearestElse.attach {t : Statement} (ht : t.NearestElse) (s : Statement)
    (hopen : s.isOpen = true) (hs : s.NearestElse) : (s.attach t).NearestElse := by
  match s with
  | ifThen c s =>
    rw [NearestElse] at hs
    rw [Statement.attach]
    split
    · next hopen =>
      rw [NearestElse]
      exact ht.attach s hopen hs
    · next hclosed =>
      rw [NearestElse]
      exact ⟨Bool.eq_false_iff.mpr hclosed, hs, ht⟩
  | ifThenElse c s s' =>
    rw [isOpen] at hopen
    rw [NearestElse] at hs
    rw [Statement.attach, NearestElse]
    exact ⟨hs.1, hs.2.1, ht.attach s' hopen hs.2.2⟩
  | loop c s =>
    rw [isOpen] at hopen
    rw [NearestElse] at hs
    rw [Statement.attach, NearestElse]
    exact ht.attach s hopen hs
  | compound _ | assign _ _ _ | call _ | empty => simp [isOpen] at hopen

end Statement

namespace Declaration

mutual

/-- Every alternative in a declaration belongs to the nearest conditional. -/
def NearestElse : Declaration → Prop
  | var _ => True
  | procedure _ declarations body => AllNearestElse declarations ∧ Statement.AllNearestElse body

/-- `NearestElse` for every declaration of a list. -/
def AllNearestElse : List Declaration → Prop
  | [] => True
  | d :: ds => d.NearestElse ∧ AllNearestElse ds

end

theorem allNearestElse_append {ds es : List Declaration} :
    AllNearestElse (ds ++ es) ↔ AllNearestElse ds ∧ AllNearestElse es := by
  induction ds with
  | nil => simp [AllNearestElse]
  | cons d ds ih => rw [List.cons_append, AllNearestElse, AllNearestElse, ih, and_assoc]

theorem allNearestElse_iff {ds : List Declaration} :
    AllNearestElse ds ↔ ∀ d ∈ ds, d.NearestElse := by
  induction ds with
  | nil => simp [AllNearestElse]
  | cons d ds ih => rw [AllNearestElse, ih, List.forall_mem_cons]

end Declaration

/-- Every alternative in a block belongs to the nearest conditional. -/
def Block.NearestElse (block : Block) : Prop :=
  Declaration.AllNearestElse block.declarations ∧ Statement.AllNearestElse block.body

/-- Every alternative in a program belongs to the nearest conditional. -/
def Program.NearestElse (program : Program) : Prop := program.block.NearestElse

/-! ## Variables hold no command -/

theorem DerivesVariables.nearestElse {w : List Delivery} {declarations : List Declaration}
    (h : DerivesVariables w declarations) : Declaration.AllNearestElse declarations := by
  cases h with
  | intro =>
    rw [Declaration.allNearestElse_iff]
    simp [Declaration.NearestElse]

theorem Repeated.nearestElse {w : List Delivery} {groups : List (List Declaration)}
    (h : Repeated DerivesVariables w groups) : Declaration.AllNearestElse groups.flatten := by
  induction h with
  | nil => trivial
  | cons hv _ ih =>
    rw [List.flatten_cons, Declaration.allNearestElse_append]
    exact ⟨hv.nearestElse, ih⟩

/-! ## Choosing the nearest conditional -/

/-- An alternative behind an open command may belong to the nearest conditional. -/
theorem DerivesStatement.attach {w x l m : List Delivery} {e : Delivery} {s t : Statement}
    (h : DerivesStatement w s l) (hopen : s.isOpen = true) (he : e.kind = .senao)
    (hx : DerivesStatement x t m) :
    DerivesStatement (w ++ e :: x) (s.attach t) (l ++ m) := by
  match h with
  | .ifThen hi hv ht hw =>
    rw [Statement.attach, List.cons_append, List.append_assoc, List.cons_append]
    split
    · next hs => exact .ifThen hi hv ht (hw.attach hs he hx)
    · exact .ifThenElse hi hv ht hw he hx
  | .ifThenElse hi hv ht hw he' hx' =>
    have hlast := hx'.attach (by rwa [Statement.isOpen] at hopen) he hx
    rw [Statement.attach, List.append_assoc]
    simpa using DerivesStatement.ifThenElse hi hv ht hw he' hlast
  | .loop hi hv hf hw =>
    rw [Statement.attach, List.cons_append, List.append_assoc, List.cons_append]
    exact .loop hi hv hf (hw.attach (by rwa [Statement.isOpen] at hopen) he hx)
  | .empty | .assignment _ _ _ | .call _ _ | .compound _ => simp [Statement.isOpen] at hopen

mutual

theorem DerivesStatement.exists_nearestElse {w l : List Delivery} {s : Statement}
    (h : DerivesStatement w s l) : ∃ s', DerivesStatement w s' l ∧ s'.NearestElse := by
  match h with
  | .empty => exact ⟨_, .empty, trivial⟩
  | .assignment hd ha hw => exact ⟨_, .assignment hd ha hw, trivial⟩
  | .call hd hw => exact ⟨_, .call hd hw, trivial⟩
  | .compound hw =>
    obtain ⟨ss, hss, hn⟩ := hw.exists_nearestElse
    exact ⟨_, .compound hss, by rwa [Statement.NearestElse]⟩
  | .ifThen hi hv ht hw =>
    obtain ⟨s, hs, hn⟩ := hw.exists_nearestElse
    exact ⟨_, .ifThen hi hv ht hs, by rwa [Statement.NearestElse]⟩
  | .loop hi hv hf hw =>
    obtain ⟨s, hs, hn⟩ := hw.exists_nearestElse
    exact ⟨_, .loop hi hv hf hs, by rwa [Statement.NearestElse]⟩
  | .ifThenElse hi hv ht hw he hx =>
    obtain ⟨s, hs, hn⟩ := hw.exists_nearestElse
    obtain ⟨t, hxt, hnt⟩ := hx.exists_nearestElse
    cases hopen : s.isOpen with
    | false =>
      refine ⟨_, .ifThenElse hi hv ht hs he hxt, ?_⟩
      rw [Statement.NearestElse]
      exact ⟨hopen, hn, hnt⟩
    | true =>
      -- the alternative goes to a conditional at the end of the first command
      refine ⟨_, .ifThen hi hv ht (hs.attach hopen he hxt), ?_⟩
      rw [Statement.NearestElse]
      exact hnt.attach s hopen hn

theorem DerivesCompound.exists_nearestElse {w l : List Delivery} {ss : List Statement}
    (h : DerivesCompound w ss l) :
    ∃ ss', DerivesCompound w ss' l ∧ Statement.AllNearestElse ss' := by
  match h with
  | .intro hb hw hf =>
    obtain ⟨ss', hss, hn⟩ := hw.exists_nearestElse
    exact ⟨ss', .intro hb hss hf, hn⟩

theorem DerivesStatements.exists_nearestElse {w l : List Delivery} {ss : List Statement}
    (h : DerivesStatements w ss l) :
    ∃ ss', DerivesStatements w ss' l ∧ Statement.AllNearestElse ss' := by
  match h with
  | .one hw =>
    obtain ⟨s, hs, hn⟩ := hw.exists_nearestElse
    exact ⟨[s], .one hs, hn, trivial⟩
  | .more hv hp hw =>
    obtain ⟨s, hs, hn⟩ := hv.exists_nearestElse
    obtain ⟨ss', hss, hns⟩ := hw.exists_nearestElse
    exact ⟨s :: ss', .more hs hp hss, hn, hns⟩

end

mutual

theorem DerivesBlock.exists_nearestElse {w l : List Delivery} {block : Block}
    (h : DerivesBlock w block l) : ∃ block', DerivesBlock w block' l ∧ block'.NearestElse := by
  match h with
  | .intro hu hv hw =>
    obtain ⟨procedures, hp, hn⟩ := hv.exists_nearestElse
    obtain ⟨body, hb, hnb⟩ := hw.exists_nearestElse
    exact ⟨_, .intro hu hp hb, Declaration.allNearestElse_append.mpr ⟨hu.nearestElse, hn⟩, hnb⟩

theorem DerivesProcedure.exists_nearestElse {w l : List Delivery} {procedure : Declaration}
    (h : DerivesProcedure w procedure l) :
    ∃ procedure', DerivesProcedure w procedure' l ∧ procedure'.NearestElse := by
  match h with
  | .intro hp hn hv hs hw ht =>
    obtain ⟨block', hb, hnb⟩ := hw.exists_nearestElse
    refine ⟨_, .intro hp hn hv hs hb ht, ?_⟩
    rw [Declaration.NearestElse]
    exact hnb

theorem DerivesProcedures.exists_nearestElse {w l : List Delivery}
    {procedures : List Declaration} (h : DerivesProcedures w procedures l) :
    ∃ procedures', DerivesProcedures w procedures' l ∧
      Declaration.AllNearestElse procedures' := by
  match h with
  | .nil => exact ⟨[], .nil, trivial⟩
  | .cons hv hw =>
    obtain ⟨p, hp, hn⟩ := hv.exists_nearestElse
    obtain ⟨ps, hps, hns⟩ := hw.exists_nearestElse
    exact ⟨p :: ps, .cons hp hps, hn, hns⟩

end

/-- **Every program has a derivation whose alternatives belong to the nearest conditionals**, and
the same identifiers begin its commands. -/
theorem DerivesProgram.exists_nearestElse {w l : List Delivery} {program : Program}
    (h : DerivesProgram w program l) :
    ∃ program', DerivesProgram w program' l ∧ program'.NearestElse := by
  cases h with
  | intro hp hn hs hw ht =>
    obtain ⟨block', hb, hnb⟩ := hw.exists_nearestElse
    exact ⟨_, .intro hp hn hs hb ht, hnb⟩

end LusoPascal
