import Installer.Compile.Document
import Installer.Dialog.Navigation
import Installer.Json.Printer
import Installer.Manifest.Decode

/-!
# Reports

What the commands print about a manifest and its document, for people and for programs.
-/

namespace Installer.CommandLine

open Compile Json

/-- A manifest with its project and its document. -/
structure Loaded where
  manifest : Manifest
  project : Project
  compiled : Compiled

def lines (ls : List String) : String :=
  ls.foldl (fun text l => text ++ l ++ "\n") ""

def number (n : Nat) : String :=
  String.ofList (Text.decimal n)

def count (n : Nat) (noun : String) : String :=
  number n ++ " " ++ noun ++ if n = 1 then "" else "s"

/-- The blanks in front of a line at a depth. -/
def indent (depth : Nat) : String :=
  String.ofList (List.replicate (2 * (depth + 1)) ' ')

/-- A text with blanks behind it up to a width in characters. -/
def padTo (width : Nat) (s : String) : String :=
  s ++ String.ofList (List.replicate (width - s.length) ' ')

def successLine (s : String) : String :=
  "✓ " ++ s

def infoLine (s : String) : String :=
  "• " ++ s

def errorLine (s : String) : String :=
  "✗ " ++ s

def warningLine (s : String) : String :=
  "⚠ " ++ s

/-- A line with a value under its name. -/
def statLine (label value : String) : String :=
  "  " ++ label ++ ": " ++ value

def shortHash (hash : String) : String :=
  String.ofList (hash.toList.take 12)

namespace Loaded

def directoryCount (l : Loaded) : Nat :=
  l.project.directories.size

/-- The report on a document that was written. -/
def builtText (l : Loaded) (output document : String) : String :=
  lines ([
    successLine ("Built " ++ output),
    statLine "Product" (l.project.name ++ " " ++ l.project.version.text),
    statLine "Components" (number l.compiled.componentCount),
    statLine "Directories" (count l.directoryCount "node")] ++
    (l.compiled.installDir.map (statLine "Install dir")).toList ++ [
    statLine "Manifest" (shortHash l.manifest.fingerprint),
    statLine "Document" (shortHash (Digest.Sha256.hexHash document))])

def builtJson (l : Loaded) (output document : String) : Json :=
  record [
    ("components", nat l.compiled.componentCount), ("directories", nat l.directoryCount),
    ("document", text (Digest.Sha256.hexHash document)),
    ("fingerprint", text l.manifest.fingerprint),
    ("install_dir", optionalText l.compiled.installDir), ("output", text output)]

/-- The warning about a document that installs nothing. -/
def emptyWarning (l : Loaded) : String :=
  if l.compiled.componentCount = 0 then
    lines [warningLine "Nothing to install: no component was emitted."]
  else ""

end Loaded

/-- What is told about a directory. -/
structure DirectoryInfo where
  id : String
  name : String
  depth : Nat
  files : Nat
  installDir : Bool

def fileCount (n : Directory.Node) : Nat :=
  n.files.length + (n.fileSets.flatMap (·.files)).length

namespace Loaded

/-- The directories in the order of the walk, with the identifiers that they were given. -/
def directoryInfos (l : Loaded) : List DirectoryInfo :=
  let tree := l.project.directories
  let order := Directory.Outline.walkDepth.walkDepthAll 0 tree.outlines
  let ids := (l.compiled.ids.filter (·.kind = .directory)).map (·.id)
  (order.zip ids).map fun ((i, depth), id) =>
    let n := (tree.node? i).getD { name := "" }
    { id, name := n.name, depth, files := fileCount n, installDir := l.compiled.installDir == some id }

def navigation? (l : Loaded) : Option Dialog.Navigation :=
  l.project.ui.map fun ui => .ofResolved ui.sequence.resolve

end Loaded

/-- The names of features with their depths, each before those below it. -/
def featureDepths (depth : Nat) : List Feature → List (Nat × String)
  | [] => []
  | ⟨_, name, _, _, _, _, _, _, children, _⟩ :: fs =>
      (depth, name) :: featureDepths (depth + 1) children ++ featureDepths depth fs

/-- A directory on a line, with the number of its files where that is asked for. -/
def DirectoryInfo.line (verbose : Bool) (d : DirectoryInfo) : String :=
  indent d.depth ++ d.name ++ " [" ++ d.id ++ "]" ++
    (if d.installDir then " (install dir)" else "") ++
    if verbose && 0 < d.files then " " ++ count d.files "file" else ""

def DirectoryInfo.toJson (d : DirectoryInfo) : Json :=
  record [
    ("id", text d.id), ("name", text d.name), ("depth", nat d.depth), ("files", nat d.files),
    ("install_dir", .bool d.installDir)]

/-- A dialog with those that follow it, on a line. -/
def dialogLine (n : Dialog.Navigation) (dialog : String) : String :=
  match n.successors dialog with
  | [] => "  " ++ dialog
  | next => "  " ++ dialog ++ " → " ++ ", ".intercalate next

def dialogLines : Option Dialog.Navigation → List String
  | none => [infoLine "No UI defined."]
  | some n =>
      ("Dialogs: " ++ count n.dialogs.length "dialog" ++ ", " ++
        count n.transitions.length "transition") :: n.sortedDialogs.map (dialogLine n)

namespace Loaded

/-- The features in lines, if there are any. -/
def featureLines (l : Loaded) : List String :=
  if l.project.features.isEmpty then []
  else "" :: "Features:" ::
    (featureDepths 0 l.project.features).map fun (depth, name) => indent depth ++ name

/-- The report on directories, features and dialogs. -/
def inspectionText (l : Loaded) (verbose : Bool) : String :=
  let infos := l.directoryInfos
  lines ([
    successLine (l.project.name ++ " " ++ l.project.version.text),
    statLine "Directories" (count infos.length "node"),
    statLine "Components" (number l.compiled.componentCount),
    "",
    "Directories:"] ++ infos.map (·.line verbose) ++ l.featureLines ++ "" ::
    dialogLines l.navigation?)

def inspectionJson (l : Loaded) : Json :=
  let n := l.navigation?.getD ⟨[], []⟩
  record [
    ("product", text l.project.name), ("version", text l.project.version.text),
    ("install_dir", optionalText l.compiled.installDir),
    ("directories", .array (l.directoryInfos.map (·.toJson))),
    ("features", texts ((featureDepths 0 l.project.features).map fun f => Text.trim f.2)),
    ("dialogs", .array (n.sortedDialogs.map fun d =>
      record [("dialog", text d), ("next", texts (n.successors d))])),
    ("entry_points", texts n.entryPoints)]

/-- The identifiers of a kind, letter case aside, or all of them. -/
def idsOfKind (l : Loaded) (kind : Option String) : List Assigned :=
  l.compiled.ids.filter fun a => kind.all (Text.sameText a.kind.word)

end Loaded

def idLine (width : Nat) (a : Assigned) : String :=
  padTo 10 a.kind.word ++ " " ++ padTo width a.id ++ "  " ++ a.source

/-- The list of identifiers. The column is as wide as the longest has bytes. -/
def idsText (ids : List Assigned) : String :=
  if ids.isEmpty then lines [infoLine "No identifiers assigned."]
  else
    let width := (ids.map (·.id.utf8ByteSize)).foldl max 0
    lines (ids.map (idLine width) ++ ["", count ids.length "identifier"])

def idsJson (ids : List Assigned) : Json :=
  .array (ids.map fun a =>
    record [("kind", text a.kind.word), ("id", text a.id), ("source", text a.source)])

end Installer.CommandLine
