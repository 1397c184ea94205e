import Installer.Formatted
import Installer.Schema.Basic

/-!
# Files and shortcuts

A file is taken from the build machine and installed into a directory. Files matched by one pattern
are declared together and may share their features. A shortcut lies in a directory and points at a
formatted target.
-/

namespace Installer

open Schema

/-- A file to install. The source is its path on the build machine; the name is its installed name
where that is another one. -/
structure File where
  id : Option String := none
  source : String
  name : Option String := none
  features : List String := []
  vital : Option Bool := none
  readOnly : Option Bool := none
  hidden : Option Bool := none
  compressed : Option Bool := none
  attributes : Attributes := .empty
deriving DecidableEq, Inhabited

/-- Files that a pattern matched on the build machine. -/
structure FileSet where
  pattern : String
  files : List File := []
  features : List String := []
deriving DecidableEq, Inhabited

namespace File

/-- How a file is written. Every file is the key path of its component. -/
def schema : Schema File where
  element := "File"
  fields := [
    .required "Source" fun f => some (.text f.source),
    .optional "Name" fun f => f.name.map .text,
    .required "KeyPath" fun _ => some (.flag true),
    .optional "Vital" fun f => f.vital.map .flag,
    .optional "ReadOnly" fun f => f.readOnly.map .flag,
    .optional "Hidden" fun f => f.hidden.map .flag,
    .optional "Compressed" fun f => f.compressed.map .flag]
  attributes := (·.attributes)
  identity f := some ⟨.file, f.source, f.id⟩

end File

/-- A shortcut. Its name goes without the extension. -/
structure Shortcut where
  id : Option String := none
  name : String
  target : String
  arguments : Option String := none
  workingDirectory : Option String := none
  description : Option String := none
  icon : Option String := none
  features : List String := []
  attributes : Attributes := .empty
deriving DecidableEq, Inhabited

namespace Shortcut

/-- The directory in whose reference the target begins. -/
def impliedDirectory? (s : Shortcut) : Option String :=
  match s.target.toList with
  | '[' :: rest =>
      if rest.contains ']' then some (String.ofList (rest.takeWhile (· != ']'))) else none
  | _ => none

/-- How a shortcut is written. -/
def schema : Schema Shortcut where
  element := "Shortcut"
  fields := [
    .required "Name" fun s => if s.name.isEmpty then none else some (.text (s.name ++ ".lnk")),
    .required "Target" fun s => some (.text (Formatted.normalize s.target)),
    .optional "WorkingDirectory" fun s => s.workingDirectory.map .text,
    .optional "Arguments" fun s => s.arguments.map .text,
    .optional "Description" fun s => s.description.map .text,
    .optional "Icon" fun s => s.icon.map .text]
  attributes := (·.attributes)
  identity s := some ⟨.shortcut, s.name, s.id⟩

end Shortcut

end Installer
