import Installer.CommandLine.Report
import Installer.Proofs.Compile.Reported
import Installer.Proofs.ComponentIds
import Installer.Proofs.ComponentReferences
import Installer.Proofs.DirectoryIds

/-!
# The report on identifiers

The report lists the identifiers of a document by kinds, each kind in document order. The directories
are listed whether the document holds them or not, in the order of a walk over the tree, which is
what the inspection of a project relies on where it takes directories and entries side by side.
-/
namespace Installer
open Identifier Directory Markup Schema

/-- No verbatim attribute renames a component or a directory. -/
structure Project.KeepsReportedIds (p : Project) : Prop where
  components : ∀ q ∈ p.payloads, q.attributes.get? "Component:Id" = none
  directories : ∀ n ∈ p.directories.nodes,
    n.attributes.get? "Id" = none ∧ n.ownAttributes.get? "Id" = none

instance (p : Project) : Decidable p.KeepsReportedIds :=
  decidable_of_iff ((∀ q ∈ p.payloads, q.attributes.get? "Component:Id" = none) ∧
      ∀ n ∈ p.directories.nodes,
        n.attributes.get? "Id" = none ∧ n.ownAttributes.get? "Id" = none)
    ⟨fun ⟨hc, hd⟩ => ⟨hc, hd⟩, fun h => ⟨h.components, h.directories⟩⟩

namespace Directory

/-- A walk over some nodes of one depth, with all that is below them: each node comes with its depth,
and before those below it. -/
inductive Tree.Walks (t : Tree) : Nat → List Nat → List (Nat × Nat) → Prop
  | nil (depth : Nat) : Walks t depth [] []
  | cons {depth i : Nat} {is : List Nat} {below rest : List (Nat × Nat)}
      (hbelow : Walks t (depth + 1) (t.children i) below) (hrest : Walks t depth is rest) :
      Walks t depth (i :: is) ((i, depth) :: below ++ rest)

theorem Outline.map_fst_walkDepth :
    (∀ o depth, (walkDepth depth o).map (·.1) = o.walk) ∧
      ∀ os depth, (walkDepth.walkDepthAll depth os).map (·.1) = os.flatMap walk := by
  refine Outline.induction ?node ?nil ?cons
  case node =>
    intro i children ih depth
    rw [walkDepth, walk_eq, List.map_cons, ih]
  case nil => exact fun _ => rfl
  case cons =>
    intro o os ho hos depth
    rw [walkDepth.walkDepthAll, List.map_append, ho, hos, List.flatMap_cons]

/-- Walking over complete outlines is walking over the tree. -/
theorem Tree.walks_walkDepth (t : Tree) :
    (∀ o : Outline, o.Complete t.children → ∀ depth is rest, t.Walks depth is rest →
        t.Walks depth (o.index :: is) (o.walkDepth depth ++ rest)) ∧
      ∀ os : List Outline, (∀ o ∈ os, o.Complete t.children) → ∀ depth,
        t.Walks depth (os.map (·.index)) (Outline.walkDepth.walkDepthAll depth os) := by
  refine Outline.induction ?node ?nil ?cons
  case node =>
    intro i children ih h depth is rest hrest
    have hbelow := ih (Outline.completeAll_iff.1 h.2) (depth + 1)
    rw [h.1] at hbelow
    rw [Outline.walkDepth]
    exact .cons hbelow hrest
  case nil => exact fun _ depth => .nil depth
  case cons =>
    intro o os ho hos h depth
    obtain ⟨hfirst, hrest⟩ := List.forall_mem_cons.1 h
    rw [Outline.walkDepth.walkDepthAll, List.map_cons]
    exact ho hfirst depth _ _ (hos hrest depth)

end Directory

namespace Compile

/-- The entries of a kind in the report on a document. -/
def Compiled.reported (c : Compiled) (kind : IdKind) : List Assigned :=
  c.ids.filter (·.kind = kind)

/-- A component that no verbatim attribute renames has the identifier of its entry. -/
theorem get?_id_of_mem_allBoxes {p : Project}
    (hp : ∀ q ∈ p.payloads, q.attributes.get? "Component:Id" = none) {b : Box}
    (hb : b ∈ allBoxes p) : (b.element p.seed).get? "Id" = some b.id := by
  rcases mem_allBoxes hb with ⟨directory, x, hx, rfl⟩ | ⟨directory, features, rfl⟩
  · rw [get?_element_box, Box.finalId, override?_box, hp _ (payload_mem_of_mem_allPieces hx)]
    rfl
  · exact get?_element_emptyBox p.seed directory features

theorem map_index_kept {p : Project} (h : p.options.emptyDirectories ≠ .elide) :
    (∀ o, (kept p o).map (·.index) = o.walk) ∧
      ∀ os : List Outline, (os.flatMap (kept p)).map (·.index) = os.flatMap Outline.walk := by
  refine Outline.induction ?node ?nil ?cons
  case node =>
    intro i children ih
    rw [kept, if_neg (by simp [h]), keptAll_eq_flatMap, List.map_cons, ih, Outline.walk_eq]
  case nil => rfl
  case cons =>
    intro o os ho hos
    rw [List.flatMap_cons, List.map_append, ho, hos, List.flatMap_cons]

/-- What is told about a directory at a depth, with the identifier that it was given. -/
def infoAt (p : Project) (c : Compiled) (x : Nat × Nat) : CommandLine.DirectoryInfo :=
  let id := (assignDirectories p).id x.1
  let n := nodeAt p x.1
  { id, name := n.name, depth := x.2, files := CommandLine.fileCount n,
    installDir := c.installDir == some id }

section report

variable {p : Project} {c : Compiled} (hc : p.compile = .ok c)
include hc

/-- The components are reported in their order. -/
theorem reported_component (hp : ∀ q ∈ p.payloads, q.attributes.get? "Component:Id" = none) :
    Reported .component c.document.elements c.ids := by
  obtain ⟨x, hx⟩ := shows_of_compile hc
  have helements : (Element.allNamed "Component" c.document.elements).map (·.get? "Id") =
      (allBoxes p).map fun b => some b.id := by
    rw [hx.allNamed_component, List.map_map]
    exact List.map_congr_left fun b hb => get?_id_of_mem_allBoxes hp hb
  rw [Reported, hx.entries, List.map_map]
  exact helements

/-- The directories are reported in the order of the walk, with their paths. -/
theorem reported_directory : c.reported .directory =
    (p.directories.outlines.flatMap Outline.walk).map fun i =>
      ⟨.directory, (assignDirectories p).id i, p.directories.pathOf i⟩ := by
  rw [Compiled.reported, (reported_document hc).2, DirectoryIds.report, given_eq_map, List.map_map]
  rfl

/-- The inspection tells of each directory what is true of it. -/
theorem directoryInfos_eq (m : Manifest) : (⟨m, p, c⟩ : CommandLine.Loaded).directoryInfos =
    (Outline.walkDepth.walkDepthAll 0 p.directories.outlines).map (infoAt p c) := by
  let order := Outline.walkDepth.walkDepthAll 0 p.directories.outlines
  have hids : (c.reported .directory).map (·.id) =
      order.map fun x => (assignDirectories p).id x.1 := by
    rw [reported_directory hc, ← Outline.map_fst_walkDepth.2 _ 0, List.map_map, List.map_map]
    rfl
  have hzip : order.zip (order.map fun x => (assignDirectories p).id x.1) =
      order.map fun x => (x, (assignDirectories p).id x.1) := by
    rw [← List.map_id order, List.map_map, List.zip_map', List.map_id]
    rfl
  change (order.zip ((c.reported .directory).map (·.id))).map _ = _
  rw [hids, hzip, List.map_map]
  rfl

/-- The directories of a document are reported in their order, where all of them are in it. -/
theorem ids_directories (hp : p.KeepsReportedIds) (hkeep : p.options.emptyDirectories ≠ .elide) :
    (c.document.descendantsNamed "Directory").map (·.get? "Id") =
      some targetDirId :: (c.reported .directory).map fun g => some g.id := by
  obtain ⟨x, hx⟩ := shows_of_compile hc
  rw [ids_of_showsDirectory hp.directories (showsDirectory_of_shows hx), reported_directory hc,
    ← (map_index_kept hkeep).2, List.map_cons, List.map_map, List.map_map, List.map_map]
  rfl

/-- The report agrees with the document. For each kind but the directories, its entries are the
identifiers of the elements of that name in document order, and the number of components is that of
their elements. The directories are reported behind the one above all others where none is left out,
and in any case in the order of the walk from the roots, with their paths; and that is how an
inspection takes them. -/
theorem report_agrees (hp : p.KeepsReportedIds) :
    (∀ kind : IdKind, kind ≠ .directory →
        (c.document.descendantsNamed kind.word).map (·.get? "Id") =
          (c.reported kind).map fun g => some g.id) ∧
      c.componentCount = (c.document.descendantsNamed "Component").length ∧
      (p.options.emptyDirectories ≠ .elide →
        (c.document.descendantsNamed "Directory").map (·.get? "Id") =
          some targetDirId :: (c.reported .directory).map fun g => some g.id) ∧
      ∃ walk, (p.directories.Founded → p.directories.Walks 0 p.directories.roots walk) ∧
        c.reported .directory = walk.map (fun x =>
          ⟨.directory, (assignDirectories p).id x.1, p.directories.pathOf x.1⟩) ∧
        ∀ m, (⟨m, p, c⟩ : CommandLine.Loaded).directoryInfos = walk.map (infoAt p c) := by
  have hkinds : ∀ kind : IdKind, kind ≠ .directory →
      (c.document.descendantsNamed kind.word).map (·.get? "Id") =
        (c.reported kind).map fun g => some g.id := by
    intro kind hkind
    rw [Element.descendantsNamed_eq_allNamed]
    by_cases hcomponent : kind = .component
    · rw [hcomponent]
      exact reported_component hc hp.components
    · exact (reported_document hc).1 kind (by cases kind <;> first | rfl | contradiction)
  refine ⟨hkinds, ?_, ids_directories hc hp,
    Outline.walkDepth.walkDepthAll 0 p.directories.outlines, fun ht => ?_, ?_, directoryInfos_eq hc⟩
  · have hlength := congrArg List.length (hkinds .component (by decide))
    rw [List.length_map, List.length_map] at hlength
    rw [Compiled.componentCount, List.countP_eq_length_filter]
    exact hlength.symm
  · rw [← Tree.map_index_outlines ht]
    exact (Tree.walks_walkDepth _).2 _ (fun o ho => Tree.complete_of_mem_outlines ht ho) 0
  · rw [reported_directory hc, ← Outline.map_fst_walkDepth.2 _ 0, List.map_map]
    rfl

end report

/-- A project with a directory below its first root that was made after its second root. -/
def laterBelow : Project where
  name := "Acme"
  directories := ⟨[
    { name := "App", id := some "AppFolder", parent := none, files := [{ source := "a.txt" }] },
    { name := "Data", id := some "DataFolder", parent := some 0 },
    { name := "Docs", id := some "DocsFolder", parent := none, files := [{ source := "b.txt" }] },
    { name := "Logs", id := some "LogsFolder", parent := some 0 }]⟩

theorem report_agrees_later_below :
    laterBelow.KeepsReportedIds ∧ laterBelow.directories.Founded ∧
    ∃ c, laterBelow.compile = .ok c ∧
      (c.document.descendantsNamed "File").map (·.get? "Id") = [some "a.txt", some "b.txt"] ∧
      (c.document.descendantsNamed "Component").length = 4 ∧
      (c.document.descendantsNamed "Directory").map (·.get? "Id") =
        [some "TARGETDIR", some "AppFolder", some "DataFolder", some "LogsFolder",
          some "DocsFolder"] ∧
      ∃ walk, laterBelow.directories.Walks 0 laterBelow.directories.roots walk ∧
        c.reported .directory = walk.map fun x =>
          ⟨.directory, (assignDirectories laterBelow).id x.1, laterBelow.directories.pathOf x.1⟩ := by
  have hkeeps : laterBelow.KeepsReportedIds := by decide
  have hfounded : laterBelow.directories.Founded := by
    have hskeleton : laterBelow.directories.skeleton =
        [("App", none), ("Data", some 0), ("Docs", none), ("Logs", some 0)] := rfl
    intro i q name hi
    rw [hskeleton] at hi
    match i with
    | 0 | 1 | 2 | 3 | i + 4 => simp at hi <;> omega
  have hrun : (laterBelow.compile.toOption.map fun c =>
      (c.componentCount, (c.reported .file).map (some ·.id),
        (c.reported .directory).map (some ·.id))) =
      some (4, [some "a.txt", some "b.txt"],
        [some "AppFolder", some "DataFolder", some "LogsFolder", some "DocsFolder"]) := by
    decide +kernel
  obtain ⟨c, hc, hvalues⟩ := exists_ok_of_toOption_map hrun
  obtain ⟨hcount, hids⟩ := Prod.mk.inj hvalues
  obtain ⟨hfiles, hdirectories⟩ := Prod.mk.inj hids
  obtain ⟨hkinds, hcomponents, hall, walk, hwalk, hentries, -⟩ := report_agrees hc hkeeps
  refine ⟨hkeeps, hfounded, c, hc, ?_, ?_, ?_, walk, hwalk hfounded, hentries⟩
  · exact (hkinds .file (by decide)).trans hfiles
  · exact hcomponents.symm.trans hcount
  · exact (hall (by decide)).trans (congrArg (some targetDirId :: ·) hdirectories)

end Compile

end Installer
