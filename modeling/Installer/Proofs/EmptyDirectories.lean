import Installer.Proofs.Compile.Surroundings

/-!
# What a policy on empty directories changes

A project can keep its empty directories, leave them out, or keep them alive with components. Two of
these ways differ in nothing but the empty directories, and none of them stands in the way of
another: where empty directories are kept alive a document can also be made without that.
-/
namespace Installer.Compile
open Identifier Directory Markup Schema

/-- A document has a frame, features, and the directories of layouts, where a directory's own
element stands around its content and the directories below. -/
structure Consists (p : Project) (x : Frame) (features : List Element) (ls : List Layout)
    (c : Compiled) : Prop where
  document : c.document = x.document p (layoutElements p ls) features
  directories : c.document.descendantsNamed "Directory" =
    x.target (layoutElements p ls) :: layoutElements p (ls.flatMap Layout.walk)
  frame : x.Plain
  features : ∀ e ∈ Element.within features, e.name ∈ featureNames

theorem shellOf_spec (p : Project) (d : DirectoryIds) (i : Nat) :
    (shellOf p d i).name = "Directory" ∧ (shellOf p d i).elements = [] :=
  directoryElement_spec _ _ _ _

/-- A compiled document consists of its surroundings and of layouts without directories in their
contents. -/
theorem consists_compiled {p : Project} {tally : Part} {s : Surroundings} {a b : Allocator}
    (hs : surroundings p (assignDirectories p) tally a = .ok (s, b)) {ls : List Layout}
    (hls : ∀ l ∈ ls.flatMap Layout.walk, Element.allNamed "Directory" l.content.elements = []) :
    Consists p s.frame s.features ls
      (s.compiled p (assignDirectories p) (layoutElements p ls)) := by
  obtain ⟨hplain, hfeatures⟩ := plain_surroundings hs
  refine ⟨rfl, ?_, hplain, hfeatures⟩
  have hdirectories := (Layout.allNamed_directory (shellOf_spec p (assignDirectories p))).2 ls hls
  rw [layoutElements, layoutElements, ← hdirectories]
  exact hplain.descendantsNamed_directory p
    (Element.allNamed_eq_nil_of_names hfeatures (by decide))

/-- The component with which an empty directory is kept alive. It creates the folder, and removes it
when the product is uninstalled. -/
def folderKeeper (seed directory : String) : Element where
  name := "Component"
  attributes := [("Id", "Component." ++ (directory ++ ".EmptyDirectory")),
    ("Guid", Digest.Guid.stable seed ("Component." ++ (directory ++ ".EmptyDirectory")))]
  children := [.element (Element.named "CreateFolder"),
    .element { name := "RemoveFolder", attributes := [("Id", directory), ("On", "uninstall")] }]

theorem elements_keeperPart (p : Project) (d : DirectoryIds) (i : Nat) :
    (keeperPart p d i).elements = [folderKeeper p.seed (d.id i)] :=
  rfl

/-- A keeper holds a component, and in it what creates and removes a folder. -/
theorem allNamed_keeperPart (p : Project) (d : DirectoryIds) {name : String}
    (hname : name ∉ ["Component", "CreateFolder", "RemoveFolder"]) (i : Nat) :
    Element.allNamed name (keeperPart p d i).elements = [] := by
  have hnames : (Element.within (keeperPart p d i).elements).map (·.name) =
      ["Component", "CreateFolder", "RemoveFolder"] := rfl
  refine Element.allNamed_eq_nil_of_names (fun e he => ?_) hname
  rw [← hnames]
  exact List.mem_map_of_mem he

namespace LaysOut

variable {p : Project} {ls : List Layout}

theorem no_directories (h : LaysOut p ls) :
    ∀ l ∈ ls.flatMap Layout.walk, Element.allNamed "Directory" l.content.elements = [] := by
  intro l hl
  obtain ⟨a, b, hfurnishes⟩ := (h.fits l hl).furnishes
  rw [hfurnishes.elements]
  exact Element.allNamed_eq_nil_of_names (fun _ => name_of_mem_within_pieces p _) (by decide)

theorem no_directories_thinned (h : LaysOut p ls) : ∀ l ∈ (thinned p ls).flatMap Layout.walk,
    Element.allNamed "Directory" l.content.elements = [] := by
  intro l hl
  obtain ⟨m, hm, -, hcontent⟩ := Layout.mem_walk_pruned hl
  rw [← hcontent]
  exact h.no_directories m hm

theorem no_directories_keptAlive (h : LaysOut p ls) :
    ∀ l ∈ (keptAlive p ls).flatMap Layout.walk,
      Element.allNamed "Directory" l.content.elements = [] := by
  intro l hl
  rw [keptAlive, Layout.walk_withKeepers.2] at hl
  obtain ⟨m, hm, rfl⟩ := List.mem_map.1 hl
  rw [Layout.allNamed_withKeepers fun i => allNamed_keeperPart p _ (by decide) i]
  exact h.no_directories m hm

/-- What is left out had nothing to report. -/
theorem tallyOf_thinned (h : LaysOut p ls) : tallyOf p (thinned p ls) = tallyOf p ls :=
  Layout.tally_pruned _ fun l hl => (h.fits l hl).bare

end LaysOut

theorem documentOf_eq_ok {p : Project} {ls : List Layout} {a b : Allocator} {c : Compiled} :
    documentOf p ls a = .ok (c, b) ↔
      ∃ s, surroundings p (assignDirectories p) (tallyOf p ls) a = .ok (s, b) ∧
        s.compiled p (assignDirectories p) (layoutElements p ls) = c := by
  rw [documentOf, Emit.bind_eq_ok]
  constructor
  · rintro ⟨s, b', hs, h⟩
    obtain ⟨rfl, rfl⟩ := Emit.pure_eq_ok.1 h
    exact ⟨s, hs, rfl⟩
  · rintro ⟨s, hs, rfl⟩
    exact ⟨s, b, hs, rfl⟩

/-- Keepers change no elements but those of directories, and components. -/
theorem descendantsNamed_keptAlive {p : Project} {x : Frame} {ls : List Layout}
    {fewer features : List Element} {whole alive : Compiled} (hwhole : Consists p x fewer ls whole)
    (halive : Consists p x features (keptAlive p ls) alive) {name : String}
    (hname : name ∉ "Product" :: "Directory" :: ["Component", "CreateFolder", "RemoveFolder"])
    (hfeature : name ∉ featureNames) :
    alive.document.descendantsNamed name = whole.document.descendantsNamed name := by
  simp only [List.mem_cons, not_or] at hname
  obtain ⟨hproduct, hdirectory, hkeeper⟩ := hname
  have hshell := shellOf_spec p (assignDirectories p)
  have hsame : Element.allNamed name (layoutElements p (keptAlive p ls)) =
      Element.allNamed name (layoutElements p ls) := by
    rw [layoutElements, layoutElements, (Layout.allNamed_elements hshell hdirectory).2,
      (Layout.allNamed_elements hshell hdirectory).2, keptAlive, Layout.walk_withKeepers.2,
      List.flatMap_map]
    refine List.flatMap_congr fun l _ => Layout.allNamed_withKeepers (fun i => ?_) l
    exact allNamed_keeperPart p _ (by simpa using hkeeper) i
  rw [hwhole.document, halive.document,
    Frame.descendantsNamed_document p x hproduct
      (Element.allNamed_eq_nil_of_names halive.features hfeature),
    Frame.descendantsNamed_document p x hproduct
      (Element.allNamed_eq_nil_of_names hwhole.features hfeature), hsame, if_neg hdirectory,
    if_neg hdirectory]

/-- A compiled project is another without the directories in which, themselves or anywhere below,
nothing is held. -/
def LeavesOut (p : Project) (whole less : Compiled) : Prop :=
  less.ids = whole.ids ∧ less.installDir = whole.installDir ∧ less.warnings = whole.warnings ∧
    ∃ x features ls, LaysOut p ls ∧ Consists p x features ls whole ∧
      Consists p x features (thinned p ls) less ∧
      ((thinned p ls).flatMap Layout.walk).map (fun l => (l.index, l.content)) =
        ((ls.flatMap Layout.walk).filter fun l =>
          l.outline.any p.directories.holdsPayload).map fun l => (l.index, l.content)

/-- The second element of a directory is the first with a component behind its children, if the
directory holds nothing and has none below it. Otherwise both have one name and the same attributes
and hold the same but for directories. -/
def SameButKeeper (p : Project) (o : Outline) (kept alive : Element) : Prop :=
  if p.directories.holdsPayload o.index = false ∧ o.children = [] then
    alive = kept.push (folderKeeper p.seed ((assignDirectories p).id o.index))
  else
    alive.name = kept.name ∧ alive.attributes = kept.attributes ∧
      alive.elements.filter (·.name != "Directory") = kept.elements.filter (·.name != "Directory")

/-- A compiled project is another with a component in each directory that holds nothing and has none
below it, and with features that may refer to more components. The directories of both documents
correspond in document order, behind the one above all others. -/
def KeepsAlive (p : Project) (whole alive : Compiled) : Prop :=
  ∃ x features fewer ls, LaysOut p ls ∧ Consists p x fewer ls whole ∧
    Consists p x features (keptAlive p ls) alive ∧
    (∃ rows : List (Element × Element),
      whole.document.descendantsNamed "Directory" =
        x.target (layoutElements p ls) :: rows.map (·.1) ∧
      alive.document.descendantsNamed "Directory" =
        x.target (layoutElements p (keptAlive p ls)) :: rows.map (·.2) ∧
      List.Forall₂ (fun l row => SameButKeeper p l.outline row.1 row.2) (ls.flatMap Layout.walk)
        rows) ∧
    ∀ name ∈ ["File", "Shortcut", "RegistryValue", "Environment"],
      alive.document.descendantsNamed name = whole.document.descendantsNamed name

/-- The elements of layouts are those of directories. -/
theorem filter_ne_directory (p : Project) (ls : List Layout) :
    (ls.map (Layout.element (shellOf p (assignDirectories p)))).filter (·.name != "Directory") =
      [] := by
  refine List.filter_eq_nil_iff.2 (List.forall_mem_map.2 fun l _ => ?_)
  obtain ⟨i, content, children⟩ := l
  rw [Layout.element_eq, Element.pushAll_name, (shellOf_spec p _ i).1]
  decide

/-- A keeper is all that the element of a layout gets. -/
theorem sameButKeeper_withKeepers (p : Project) (l : Layout) :
    SameButKeeper p l.outline (l.element (shellOf p (assignDirectories p)))
      ((l.withKeepers p.directories.holdsPayload (keeperPart p (assignDirectories p))).element
        (shellOf p (assignDirectories p))) := by
  obtain ⟨i, content, children⟩ := l
  have hchildren : (Layout.outline ⟨i, content, children⟩).children = [] ↔ children = [] := by
    rw [Layout.outline_eq, List.map_eq_nil_iff]
  rw [SameButKeeper, Layout.withKeepers_eq, Layout.element_eq, Layout.element_eq]
  split
  case isTrue hempty =>
    obtain rfl := hchildren.1 hempty.2
    have hholds : p.directories.holdsPayload i = false := hempty.1
    rw [hholds, if_pos (by rfl), Part.append, elements_keeperPart]
    simp [Element.pushAll, Element.push, Layout.outline]
  case isFalse hempty =>
    have hnot : ¬ (!p.directories.holdsPayload i && children.isEmpty) = true := by
      intro h
      have hbare : p.directories.holdsPayload i = false ∧ children = [] := by simpa using h
      exact hempty ⟨hbare.1, hchildren.2 hbare.2⟩
    rw [if_neg hnot, Element.pushAll_name, Element.pushAll_name, Element.elements_pushAll,
      Element.elements_pushAll]
    refine ⟨rfl, rfl, ?_⟩
    rw [List.filter_append, List.filter_append, List.filter_append, List.filter_append,
      filter_ne_directory, filter_ne_directory]

/-- The directories of layouts and of those with keepers correspond one by one. -/
theorem forall₂_sameButKeeper (p : Project) (ls : List Layout) :
    List.Forall₂ (fun l row => SameButKeeper p l.outline row.1 row.2) (ls.flatMap Layout.walk)
      ((ls.flatMap Layout.walk).map fun l =>
        (l.element (shellOf p (assignDirectories p)),
          (l.withKeepers p.directories.holdsPayload (keeperPart p (assignDirectories p))).element
            (shellOf p (assignDirectories p)))) := by
  rw [List.forall₂_map_right_iff, List.forall₂_same]
  exact fun l _ => sameButKeeper_withKeepers p l

/-- Leaving out empty directories fails where keeping them fails, and leaves them out of the same
document where it does not. -/
theorem elide_of_laidOut {p : Project} {ls : List Layout} {a : Allocator}
    (h : laidOut p = .ok (ls, a)) :
    (∃ e, (p.withPolicy .keep).compile = .error e ∧ (p.withPolicy .elide).compile = .error e) ∨
      ∃ whole less, (p.withPolicy .keep).compile = .ok whole ∧
        (p.withPolicy .elide).compile = .ok less ∧ LeavesOut p whole less := by
  have hls := laysOut_of_laidOut h
  rw [compile_withPolicy_of_laidOut h, compile_withPolicy_of_laidOut h]
  cases hs : surroundings p (assignDirectories p) (tallyOf p ls) a with
  | error e =>
    have hthinned := hs
    rw [← hls.tallyOf_thinned] at hthinned
    refine Or.inl ⟨e, ?_, ?_⟩
    · exact congrArg (Except.map _) (Emit.bind_of_error hs _)
    · exact congrArg (Except.map _) (Emit.bind_of_error hthinned _)
  | ok r =>
    obtain ⟨s, b⟩ := r
    have hthinned := hs
    rw [← hls.tallyOf_thinned] at hthinned
    have hwhole := documentOf_eq_ok.2 ⟨s, hs, rfl⟩
    have hless := documentOf_eq_ok.2 ⟨s, hthinned, rfl⟩
    refine Or.inr ⟨_, _, congrArg (Except.map _) hwhole, congrArg (Except.map _) hless, rfl, rfl,
      rfl, s.frame, s.features, ls, hls, ?_, ?_, Layout.walk_pruned ls⟩
    · exact consists_compiled hs hls.no_directories
    · exact consists_compiled hthinned hls.no_directories_thinned

/-- Where components keep directories alive, keeping the directories does not fail. -/
theorem keep_of_component {p : Project} {alive : Compiled}
    (h : (p.withPolicy .component).compile = .ok alive) :
    ∃ whole, (p.withPolicy .keep).compile = .ok whole ∧ KeepsAlive p whole alive := by
  obtain ⟨ls, a, b, hlaid, hdocument⟩ := laidOut_of_compile h
  have hls := laysOut_of_laidOut hlaid
  obtain ⟨s, hs, rfl⟩ := documentOf_eq_ok.1 hdocument
  have hrefs : (tallyOf p ls).refs ⊆ (tallyOf p (keptAlive p ls)).refs :=
    Layout.refs_withKeepers _ ls
  have hutil : (tallyOf p ls).usesUtil = (tallyOf p (keptAlive p ls)).usesUtil :=
    (Layout.usesUtil_withKeepers _ (fun _ => rfl) ls).symm
  obtain ⟨t, c, ht, hframe⟩ := exists_surroundings_of_subset hrefs hutil hs
  have hwhole := consists_compiled ht hls.no_directories
  rw [hframe] at hwhole
  have halive := consists_compiled hs hls.no_directories_keptAlive
  have hkeep := congrArg (Except.map (·.1)) (documentOf_eq_ok.2 ⟨t, ht, rfl⟩)
  refine ⟨_, (compile_withPolicy_of_laidOut hlaid .keep).trans hkeep, s.frame, s.features,
    t.features, ls, hls, hwhole, halive, ⟨_, ?_, ?_, forall₂_sameButKeeper p ls⟩,
    fun name hname => ?_⟩
  · refine hwhole.directories.trans ?_
    rw [layoutElements, layoutElements, List.map_map]
    rfl
  · refine halive.directories.trans ?_
    rw [keptAlive, Layout.walk_withKeepers.2, layoutElements, layoutElements, List.map_map,
      List.map_map, List.map_map]
    rfl
  · exact descendantsNamed_keptAlive hwhole halive (by revert name; decide) (by revert name; decide)

/-- Empty directories are all that policies on them change. Whether they are kept or left out, a
project fails alike or gives documents of one report that differ in them alone; and where components
keep them alive, it gives the document without those components too. -/
theorem policies_change_empty_directories (p : Project) :
    ((∃ e, (p.withPolicy .keep).compile = .error e ∧ (p.withPolicy .elide).compile = .error e) ∨
      ∃ whole less, (p.withPolicy .keep).compile = .ok whole ∧
        (p.withPolicy .elide).compile = .ok less ∧ LeavesOut p whole less) ∧
    ∀ alive, (p.withPolicy .component).compile = .ok alive →
      ∃ whole, (p.withPolicy .keep).compile = .ok whole ∧ KeepsAlive p whole alive := by
  refine ⟨?_, fun _ => keep_of_component⟩
  cases hlaid : laidOut p with
  | error e =>
    refine Or.inl ⟨e, ?_, ?_⟩ <;> rw [compile_withPolicy, hlaid] <;> rfl
  | ok laid => exact elide_of_laidOut hlaid

/-- A directory with a file, an empty directory below it, and one with nothing but an empty one. -/
def emptyBelow : Declaration where
  path := "App"
  id := some "AppFolder"
  items := [.file { source := "a.txt" },
    .directory {
      path := "Data", id := some "DataFolder"
      items := [.directory { path := "Cache", id := some "CacheFolder" }] },
    .directory { path := "Logs", id := some "LogsFolder" }]

/-- A project in which one directory holds a file and three below it hold nothing. -/
def nestedProject : Project where
  name := "Acme"
  directories := (Tree.empty.declare none emptyBelow).2

theorem policies_change_empty_directories_nested : ∃ alive whole less,
    (nestedProject.withPolicy .component).compile = .ok alive ∧
    (nestedProject.withPolicy .keep).compile = .ok whole ∧
    (nestedProject.withPolicy .elide).compile = .ok less ∧
    KeepsAlive nestedProject whole alive ∧ LeavesOut nestedProject whole less ∧
    alive.document.idsOf "RemoveFolder" = ["CacheFolder", "LogsFolder"] := by
  have hrun : ((nestedProject.withPolicy .component).compile.toOption.map fun c =>
      c.document.idsOf "RemoveFolder") = some ["CacheFolder", "LogsFolder"] := by
    decide +kernel
  obtain ⟨alive, halive, hids⟩ := exists_ok_of_toOption_map hrun
  obtain ⟨hboth, hcomponent⟩ := policies_change_empty_directories nestedProject
  obtain ⟨whole, hwhole, hkeeps⟩ := hcomponent alive halive
  obtain ⟨e, herror, -⟩ | ⟨whole', less, hwhole', hless, hleaves⟩ := hboth
  · rw [hwhole] at herror
    cases herror
  · obtain rfl : whole' = whole := Except.ok.inj (hwhole'.symm.trans hwhole)
    exact ⟨alive, whole', less, halive, hwhole, hless, hkeeps, hleaves, hids⟩

end Installer.Compile
