import Installer.Dialog.Interface
import Installer.Directory.Outline
import Installer.Product

/-!
# Projects

A project is all that an author says about one installer: the product, the directories with their
content, the features, and how the document is to be made.
-/

namespace Installer

open Schema Directory

/-- What is done with directories that have nothing to install: a component creates them, they are
left out, or they are written as they are. -/
inductive EmptyDirectoryPolicy where
  | component
  | elide
  | keep
deriving DecidableEq, Inhabited

instance : Text.Worded EmptyDirectoryPolicy where
  all := [.component, .elide, .keep]
  word
    | .component => "component"
    | .elide => "elide"
    | .keep => "keep"

/-- How a document is made. Without an identifier for it, no installation directory is chosen. -/
structure Options where
  installDirId : Option String := some "INSTALLDIR"
  emptyDirectories : EmptyDirectoryPolicy := .component
  defaultFeature : String := "Complete"
  emitUi : Bool := true
deriving DecidableEq, Inhabited

/-- An installer project. Identifiers of components are derived from its seed. -/
structure Project where
  name : String
  version : Version := .initial
  manufacturer : String := ""
  language : String := "1033"
  codepage : String := "1252"
  description : Option String := none
  guid : Option String := none
  productId : Option String := none
  upgradeCode : Option String := none
  sourceBaseDir : Option String := none
  directories : Tree := {}
  features : List Feature := []
  properties : List Property := []
  settings : List Setting := []
  media : Media := {}
  majorUpgrade : Option MajorUpgrade := none
  ui : Option Dialog.Interface := none
  options : Options := {}
  attributes : Attributes := .empty

namespace Project

def seed (p : Project) : String :=
  p.guid.getD p.name

/-- The project with a directory declaration, and the number of its directory. -/
def addDirectory (p : Project) (d : Declaration) : Except Misplaced (Nat × Project) := do
  let (i, directories) ← p.directories.add none d
  return (i, { p with directories })

def addItems (p : Project) (i : Nat) (items : List Item) : Except Misplaced Project := do
  let directories ← p.directories.addItems i items
  return { p with directories }

/-- The project with an item of the product. Files and shortcuts need a directory. -/
def add (p : Project) : Item → Except Misplaced Project
  | .directory d => (p.addDirectory d).map (·.2)
  | .setting s => .ok { p with settings := p.settings ++ [s] }
  | .feature f => .ok { p with features := p.features ++ [f] }
  | .property q => .ok { p with properties := p.properties ++ [q] }
  | .media m => .ok { p with media := m }
  | .dialog d =>
      let ui := p.ui.getD .stock
      .ok { p with ui := some { ui with sequence := ui.sequence.register d } }
  | item => .error ⟨item.typeName, "Project"⟩

def addAll (p : Project) (items : List Item) : Except Misplaced Project :=
  items.foldlM add p

/-- All declared features, each before those below it. -/
def allFeatures (p : Project) : List Feature :=
  p.features.flatMap Feature.walk

/-- The first declared feature of a name, at any depth, letter case aside. -/
def feature? (p : Project) (name : String) : Option Feature :=
  p.allFeatures.find? fun f => Text.sameText f.name name

end Project

end Installer
