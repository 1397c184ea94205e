import Installer.Proofs.Compile.Numbering
import Installer.Proofs.Directory.Laying
import Installer.Proofs.Identifier.Spelling

/-!
# Identifiers that spell out the hierarchy

A directory is numbered right after its parent, so the identifier that it asks for is made from the
one that its parent was given. Where that one is legal, the identifier below it begins with it, spells
out the directory's own name behind a dot, and is never one of those that rooted paths are given.
-/
namespace Installer.Compile
open Identifier Directory

variable {p : Project}

/-- The directory with the number `parent`, if there is one, was given the identifier `above`. -/
def Above (given : List (Nat × String)) (parent : Option Nat) (above : Option String) : Prop :=
  ∀ j, parent = some j → ∃ id, above = some id ∧ (j, id) ∈ given

/-- A directory was given its identifier in its turn, when its parent had one already. -/
def InTurn (p : Project) (given : List (Nat × String)) (g : Nat × String) : Prop :=
  ∃ above s, g.2 = servedId p s ⟨g.1, above⟩ ∧ Above given (nodeAt p g.1).parent above

/-- From `s` comes `u` by giving directories their identifiers, each in its turn. -/
def TakesTurns (p : Project) (s u : Numbering) : Prop :=
  ∃ gs, u.given = s.given ++ gs ∧ ∀ g ∈ gs, InTurn p u.given g

theorem Above.mono {given more : List (Nat × String)} (hsubset : given ⊆ more)
    {parent : Option Nat} {above : Option String} (h : Above given parent above) :
    Above more parent above := by
  intro j hj
  obtain ⟨id, hsome, hmem⟩ := h j hj
  exact ⟨id, hsome, hsubset hmem⟩

theorem InTurn.mono {given more : List (Nat × String)} (hsubset : given ⊆ more) {g : Nat × String}
    (h : InTurn p given g) : InTurn p more g := by
  obtain ⟨above, s, hid, habove⟩ := h
  exact ⟨above, s, hid, habove.mono hsubset⟩

theorem TakesTurns.subset {s u : Numbering} (h : TakesTurns p s u) : s.given ⊆ u.given := by
  obtain ⟨gs, hgs, _⟩ := h
  rw [hgs]
  exact List.subset_append_left _ _

theorem TakesTurns.trans {s t u : Numbering} (h : TakesTurns p s t) (h' : TakesTurns p t u) :
    TakesTurns p s u := by
  have hsubset := h'.subset
  obtain ⟨gs, hgs, hturn⟩ := h
  obtain ⟨hs, hhs, hturn'⟩ := h'
  refine ⟨gs ++ hs, by rw [hhs, hgs, List.append_assoc], ?_⟩
  exact List.forall_mem_append.2 ⟨fun g hg => (hturn g hg).mono hsubset, hturn'⟩

/-- One directory takes its turn, and stands above those below it from then on. -/
theorem takesTurns_serve {s : Numbering} {i : Nat} {above : Option String}
    (h : Above s.given (nodeAt p i).parent above) : TakesTurns p s (serve p s ⟨i, above⟩) ∧
      Above (serve p s ⟨i, above⟩).given (some i) (some (servedId p s ⟨i, above⟩)) := by
  rw [TakesTurns, given_serve]
  refine ⟨⟨_, rfl, List.forall_mem_singleton.2 ⟨above, s, rfl, ?_⟩⟩, ?_⟩
  · exact h.mono (List.subset_append_left _ _)
  · rintro j ⟨⟩
    exact ⟨_, rfl, List.mem_append_right _ (List.mem_singleton_self _)⟩

theorem parent_nodeAt {i : Nat} {parent : Option Nat}
    (h : p.directories.parentOf i = some parent) : (nodeAt p i).parent = parent := by
  obtain ⟨n, hn, rfl⟩ := Option.map_eq_some_iff.1 h
  rw [nodeAt_of_node? hn]

/-- A walk over outlines that fit below a directory gives identifiers in turn. -/
theorem takesTurns_number :
    (∀ o parent above s, o.Fits p.directories.parentOf parent →
      Above s.given parent above →
      TakesTurns p s (number p (chosenInstallDir p).1 above s o)) ∧
    ∀ os parent above s, Outline.Fits.fitAll p.directories.parentOf parent os →
      Above s.given parent above →
        TakesTurns p s (number.numberAll p (chosenInstallDir p).1 above s os) := by
  refine Outline.induction ?node ?nil ?cons
  case node =>
    intro i children ih parent above s hfits habove
    obtain ⟨hturn, hbelow⟩ := takesTurns_serve (parent_nodeAt hfits.1 ▸ habove)
    exact hturn.trans (ih (some i) _ _ hfits.2 hbelow)
  case nil => exact fun _ _ s _ _ => ⟨[], (List.append_nil _).symm, by simp⟩
  case cons =>
    intro o os ho hos parent above s hfits habove
    have hfirst := ho parent above s hfits.1 habove
    exact hfirst.trans (hos parent above _ hfits.2 (habove.mono hfirst.subset))

/-- Every directory of a project has the identifier that it was given below that of its parent. -/
theorem exists_servedId (hp : p.directories.Founded) {i : Nat} {n : Node}
    (hn : p.directories.node? i = some n) : ∃ above s,
      (assignDirectories p).id i = servedId p s ⟨i, above⟩ ∧
        ∀ j, n.parent = some j → above = some ((assignDirectories p).id j) := by
  have hfits := Outline.fitAll_iff.2 fun o => Tree.fits_of_mem_outlines hp (o := o)
  obtain ⟨gs, hgs, hturns⟩ := takesTurns_number.2 p.directories.outlines none none
    { ids := startingIds p } hfits (by simp [Above])
  have hgiven : (assignDirectories p).given = gs := (given_assignDirectories p).trans hgs
  have hi : i ∈ p.directories.outlines.flatMap Outline.walk :=
    p.directories.walk_outlines_perm.mem_iff.2
      (List.mem_range.2 (List.getElem?_eq_some_iff.1 hn).1)
  have hmem : (i, (assignDirectories p).id i) ∈ (assignDirectories p).given := by
    rw [given_eq_map]
    exact List.mem_map_of_mem hi
  obtain ⟨above, s, hid, habove⟩ := hturns _ (hgiven ▸ hmem)
  refine ⟨above, s, hid, fun j hj => ?_⟩
  obtain ⟨id, rfl, hgivenId⟩ := habove j (nodeAt_of_node? hn ▸ hj)
  have hparent : (j, id) ∈ (assignDirectories p).given := by
    rw [given_assignDirectories]
    exact hgivenId
  rw [id_of_mem_given hparent]

/-- The compiler makes up the identifier of a directory: its author gave none, it is not the
installation directory, it names no special folder, and it is no rooted path above all others. -/
structure Generated (p : Project) (i : Nat) (n : Node) : Prop where
  own : n.id = none
  notInstallation : (assignDirectories p).installDir ≠ some i
  notSpecial : specialFolder? n.name = none
  notRooted : n.parent = none → isRooted n.name = false

theorem servedId_of_generated {i : Nat} {n : Node} (hn : p.directories.node? i = some n)
    (h : Generated p i n) (s : Numbering) (above : Option String) : servedId p s ⟨i, above⟩ =
      (s.ids.allocate .directory (hierarchicalName above n.name)).1 := by
  have hinstall : (chosenInstallDir p).1 ≠ some i := h.notInstallation
  have hrooted : (n.parent.isNone && isRooted n.name) = false := by
    cases hparent : n.parent with
    | none => exact h.notRooted hparent
    | some j => rfl
  rw [servedId, directoryId, nodeAt_of_node? hn, h.own]
  simp only [hinstall, if_false, h.notSpecial, hrooted, Bool.false_eq_true]

/-- The identifier of a directory that the compiler makes one up for spells out the hierarchy: below a
parent with a legal identifier it is that identifier, a dot, and the name, told from others by a
number and underscores. It is never one that rooted paths are given, as no allocator gives those, and
a name without backslashes is spelled out by expanding folders and escaping alone. In the trees that
calls make every parent comes before what is below it. -/
theorem generated_ids_spell_out (hp : p.directories.Founded) :
    (∀ i n, p.directories.node? i = some n → Generated p i n →
      (∀ j, n.parent = some j → IsLegal ((assignDirectories p).id j) →
        SpellsBelow ((assignDirectories p).id j) n.name ((assignDirectories p).id i)) ∧
      ∀ ds, ds ≠ [] → (∀ d ∈ ds, Text.isDigit d = true) →
        (assignDirectories p).id i ≠ targetDirId ++ String.ofList ds) ∧
    (∀ name : String, '\\' ∉ name.toList → spelledSegment name =
      String.ofList (escape (expandFolders (Text.dropTail Text.isBlank name.toList)))) ∧
    ∀ (a : Allocator) kind raw ds, ds ≠ [] → (∀ d ∈ ds, Text.isDigit d = true) →
      (a.allocate kind raw).1 ≠ targetDirId ++ String.ofList ds := by
  refine ⟨fun i n hn h => ?_, fun _ => spelledSegment_of_not_mem,
    fun a kind raw ds => a.allocate_ne_append_digits kind raw (by decide)⟩
  obtain ⟨above, s, hid, habove⟩ := exists_servedId hp hn
  rw [hid, servedId_of_generated hn h]
  refine ⟨fun j hj hlegal => ?_, fun ds => s.ids.allocate_ne_append_digits .directory _ (by decide)⟩
  rw [habove j hj]
  exact spellsBelow_allocate s.ids hlegal n.name

/-- A directory with an identifier of its own and another directory below it. -/
def tempBelowTree : Tree :=
  Call.run .empty none (.add {
    path := "App"
    id := some "AppFolder"
    installDir := true
    items := [.directory { path := "%Temp% 7" }] })

/-- The project with this tree. -/
def tempBelowProject : Project where
  name := "Acme"
  directories := tempBelowTree

theorem generated_ids_spell_out_temp : tempBelowProject.directories.Founded ∧
    (assignDirectories tempBelowProject).id 0 = "AppFolder" ∧
    (assignDirectories tempBelowProject).id 1 = "AppFolder.TempFolder207_" ∧
    SpellsBelow "AppFolder" "%Temp% 7" "AppFolder.TempFolder207_" := by
  have hreachable : tempBelowTree.Reachable := .call .empty (Tree.holds_none _) (by decide +kernel)
  have hfounded : tempBelowProject.directories.Founded := by
    simpa only [tempBelowProject] using hreachable.founded_and_apart.1
  have hnode : (tempBelowProject.directories.node? 1).map (fun n => (n.name, n.parent, n.id)) =
      some ("%Temp% 7", some 0, none) := by
    decide +kernel
  obtain ⟨n, hn, hfields⟩ := Option.map_eq_some_iff.1 hnode
  simp only [Prod.mk.injEq] at hfields
  obtain ⟨hname, hparent, hown⟩ := hfields
  have hassigned : (fun d : DirectoryIds => (d.id 0, d.id 1, d.installDir,
      specialFolder? "%Temp% 7")) (assignDirectories tempBelowProject) =
        ("AppFolder", "AppFolder.TempFolder207_", some 0, none) := by
    decide +kernel
  simp only [Prod.mk.injEq] at hassigned
  obtain ⟨habove, hid, hchosen, hspecial⟩ := hassigned
  have hgenerated : Generated tempBelowProject 1 n :=
    ⟨hown, by simp [hchosen], by rw [hname, hspecial], by simp [hparent]⟩
  obtain ⟨hspells, -⟩ := (generated_ids_spell_out hfounded).1 1 n hn hgenerated
  refine ⟨hfounded, habove, hid, ?_⟩
  have hbelow := hspells 0 hparent (habove ▸ by decide)
  rwa [habove, hid, hname] at hbelow

end Installer.Compile
