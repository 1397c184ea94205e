import Installer.Project

/-!
# Identifiers of directories

Every directory gets its identifier before anything is written, parents first: the one its author
gave, that of the installation directory, that of a special folder, a number for a rooted path, or
one that spells out the hierarchy.
-/

namespace Installer.Compile

open Identifier Directory

/-- What kind of thing an identifier was given to. -/
inductive IdKind where
  | directory
  | file
  | shortcut
  | component
  | feature
deriving DecidableEq

def IdKind.word : IdKind → String
  | .directory => "Directory"
  | .file => "File"
  | .shortcut => "Shortcut"
  | .component => "Component"
  | .feature => "Feature"

/-- An identifier with what it was given to and what it was made from. -/
structure Assigned where
  kind : IdKind
  id : String
  source : String
deriving DecidableEq

/-- What deserves the author's attention although the document can be made. -/
inductive Warning where
  | specialInstallDir
  | undeclaredFeature
deriving DecidableEq

def Warning.message : Warning → String
  | .specialInstallDir =>
      "special folder cannot be the installation directory, leaving its id unchanged"
  | .undeclaredFeature => "feature referenced by a component was never declared, adding it"

/-- The identifier of the directory above all others. -/
def targetDirId : String := "TARGETDIR"

/-- The directory that becomes the installation directory: the one that its author gave the
identifier to, else the tree's own choice, which must not be a special folder. -/
def chosenInstallDir (p : Project) : Option Nat × List Warning :=
  match p.options.installDirId with
  | none => (none, [])
  | some installId =>
      match p.directories.nodes.findIdx? (·.id == some installId) with
      | some i => (some i, [])
      | none =>
          match p.directories.installDir? with
          | none => (none, [])
          | some i =>
              match p.directories.node? i with
              | none => (none, [])
              | some n =>
                  if n.id.isNone && (specialFolder? n.name).isSome then
                    (none, [.specialInstallDir])
                  else (some i, [])

/-- A numbering in progress: the allocator, how many rooted paths were numbered, and the
identifiers given so far. -/
structure Numbering where
  ids : Allocator
  rooted : Nat := 0
  given : List (Nat × String) := []

/-- The name from which a directory below `parent` takes its identifier. -/
def hierarchicalName (parent : Option String) (name : String) : String :=
  match parent with
  | some p => p ++ "." ++ name
  | none => name

def directoryId (p : Project) (installDir : Option Nat) (i : Nat) (n : Node)
    (parent : Option String) (s : Numbering) : String × Numbering :=
  match n.id with
  | some id => (id, s)
  | none =>
      match if installDir = some i then p.options.installDirId else none with
      | some id => (id, s)
      | none =>
          match specialFolder? n.name with
          | some folder => (folder, s)
          | none =>
              if n.parent.isNone && isRooted n.name then
                let rooted := s.rooted + 1
                (targetDirId ++ String.ofList (Text.decimal rooted), { s with rooted })
              else
                let (id, ids) := s.ids.allocate .directory (hierarchicalName parent n.name)
                (id, { s with ids })

/-- A directory that waits for its identifier, with that of the directory around it. -/
structure Waiting where
  outline : Outline
  above : Option String

/-- Directories that wait for their identifiers below one directory, or as the first of all. -/
def waitBelow (above : Option String) (os : List Outline) : List Waiting :=
  os.map (⟨·, above⟩)

/-- How many directories wait, with all that are below them. -/
def totalWaiting (waiting : List Waiting) : Nat :=
  (waiting.flatMap (·.outline.walk)).length

theorem totalWaiting_below (i : Nat) (children : List Outline) (above id : Option String)
    (waiting : List Waiting) :
    totalWaiting (waitBelow id children ++ waiting) <
      totalWaiting (⟨⟨i, children⟩, above⟩ :: waiting) := by
  have hchildren : (waitBelow id children).flatMap (·.outline.walk) =
      Outline.walk.walkAll children := by
    rw [Outline.walkAll_eq_flatMap, waitBelow, List.flatMap_map]
  rw [totalWaiting, totalWaiting, List.flatMap_append, hchildren, List.flatMap_cons, Outline.walk,
    List.length_append, List.length_append, List.length_cons]
  omega

/-- Identifiers for waiting directories. The first of them gets its own, and then those right below
it wait in front of all others. -/
def numberWaiting (p : Project) (installDir : Option Nat) (s : Numbering) :
    List Waiting → Numbering
  | [] => s
  | ⟨⟨i, children⟩, above⟩ :: waiting =>
      let n := (p.directories.node? i).getD { name := "" }
      let (id, s) := directoryId p installDir i n above s
      numberWaiting p installDir { s with given := s.given ++ [(i, id)] }
        (waitBelow (some id) children ++ waiting)
termination_by waiting => totalWaiting waiting
decreasing_by exact totalWaiting_below i children above _ waiting

/-- The identifiers of all directories in the order of the walk, and what was chosen on the way. -/
structure DirectoryIds where
  ids : Allocator
  given : List (Nat × String)
  installDir : Option Nat
  warnings : List Warning

def DirectoryIds.id (d : DirectoryIds) (i : Nat) : String :=
  ((d.given.find? (·.1 == i)).map (·.2)).getD ""

def DirectoryIds.installDirId (d : DirectoryIds) : Option String :=
  d.installDir.map d.id

/-- An allocator that keeps clear of the identifiers that are never generated. -/
def startingIds (p : Project) : Allocator :=
  let ids := (Allocator.empty 0).reserve targetDirId
  match p.options.installDirId with
  | some id => ids.reserve id
  | none => ids

def assignDirectories (p : Project) : DirectoryIds :=
  let (installDir, warnings) := chosenInstallDir p
  let waiting := waitBelow none p.directories.outlines
  let s := numberWaiting p installDir { ids := startingIds p } waiting
  ⟨s.ids, s.given, installDir, warnings⟩

/-- The report on the directories: the k-th entry is the k-th directory of the walk. -/
def DirectoryIds.report (d : DirectoryIds) (t : Tree) : List Assigned :=
  let trails := t.trails
  d.given.map fun g => ⟨.directory, g.2, joinPath ((trails[g.1]?).getD [])⟩

end Installer.Compile
