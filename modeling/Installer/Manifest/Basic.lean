import Installer.Project

/-!
# Manifests

A manifest is the written description of a project. It names the product, its features and
properties, the directories with their content, and the user interface. It is checked for features
that nobody declared before it becomes a project.
-/

namespace Installer

open Schema Directory

namespace Manifest

/-- The product as a manifest describes it. The version is a text that may prove invalid. -/
structure Product where
  name : String
  version : String := "1.0.0.0"
  manufacturer : String := ""
  language : Option String := none
  codepage : Option String := none
  description : Option String := none
  guid : Option String := none
  productId : Option String := none
  upgradeCode : Option String := none
  sourceBaseDir : Option String := none
  attributes : Attributes := .empty
deriving DecidableEq, Inhabited

/-- Files of a pattern, listed by their sources. -/
structure Files where
  pattern : String
  files : List String := []
  features : List String := []
deriving DecidableEq, Inhabited

/-- An application to close, with the choices that a manifest has. -/
structure Closing where
  target : String
  id : Option String := none
  property : Option String := none
  description : Option String := none
  timeout : Option Int := none
  rebootPrompt : Option Bool := none
  closeMessage : Bool := false
  attributes : Attributes := .empty
deriving DecidableEq, Inhabited

/-- An item of a manifest, over the type of its directories. -/
inductive ItemOf (Folder : Type) where
  | directory (d : Folder)
  | file (f : File)
  | files (s : Files)
  | shortcut (s : Shortcut)
  | registry (r : RegistryValue)
  | environment (e : EnvironmentVariable)
  | closeApplication (c : Closing)

/-- A directory of a manifest with its items. -/
structure Folder where
  path : String
  id : Option String := none
  features : List String := []
  installDir : Bool := false
  attributes : Attributes := .empty
  items : List (ItemOf Folder) := []

abbrev Item := ItemOf Folder

/-- The media as a manifest describes them. What it leaves open is as usual. -/
structure Cabinet where
  id : Int := 1
  cabinet : Option String := none
  embedCab : Option Bool := none
  compressionLevel : Option CompressionLevel := none
  diskPrompt : Option String := none
  volumeLabel : Option String := none
  attributes : Attributes := .empty
deriving DecidableEq, Inhabited

/-- Where a user interface starts from. -/
inductive Preset where
  | commonDialogs
  | stock
  | dialogSequence
deriving DecidableEq, Inhabited

instance : Text.Worded Preset where
  all := [.commonDialogs, .stock, .dialogSequence]
  word
    | .commonDialogs => "common_dialogs"
    | .stock => "stock"
    | .dialogSequence => "dialog_sequence"

/-- Actions for a control of a dialog, behind those of the preset or in their place. -/
structure Publish where
  dialog : String
  control : String
  actions : List Dialog.Action := []
  replace : Bool := false
deriving DecidableEq, Inhabited

/-- The user interface as a manifest describes it. A dialog behind the licence page goes before any
preset. -/
structure Ui where
  preset : Preset := .commonDialogs
  postLicense : Option Dialog.Definition := none
  dialogs : List Dialog.Definition := []
  publish : List Publish := []
  properties : Attributes := .empty
  attributes : Attributes := .empty
deriving DecidableEq, Inhabited

end Manifest

/-- The description of one installer. -/
structure Manifest where
  product : Manifest.Product
  features : List Feature := []
  properties : List Property := []
  items : List Manifest.Item := []
  media : Option Manifest.Cabinet := none
  majorUpgrade : Option MajorUpgrade := none
  ui : Option Manifest.Ui := none
  options : Options := {}

namespace Manifest

/-- Why a manifest is no project. -/
inductive Fault where
  | undeclared (feature item : String)
  | version (e : Version.Invalid)
  | misplaced (e : Misplaced)
deriving DecidableEq

def Fault.message : Fault → String
  | .undeclared feature item => item ++ " references undeclared feature '" ++ feature ++ "'"
  | .version e => e.message
  | .misplaced e => e.message

namespace ItemOf

/-- An item in a message: its kind and what tells it from others of its kind. -/
def label : ItemOf Folder → String
  | .directory d => "dir " ++ d.path
  | .file f => "file " ++ f.source
  | .files s => "files " ++ s.pattern
  | .shortcut s => "shortcut " ++ s.name
  | .registry r => "registry " ++ r.key
  | .environment e => "environment " ++ e.name
  | .closeApplication c => "close_application " ++ c.target

/-- The features that the item itself refers to. -/
def ownFeatures : ItemOf Folder → List String
  | .directory d => d.features
  | .file f => f.features
  | .files s => s.features
  | .shortcut s => s.features
  | .registry r => r.features
  | .environment e => e.features
  | .closeApplication _ => []

/-- The item's own references to features, each with the item's label. -/
def ownRefs (i : ItemOf Folder) : List (String × String) :=
  i.ownFeatures.map (·, i.label)

end ItemOf

/-- The references to features in a directory and in all below it, each with the label of its
item. -/
def Folder.featureRefs : Folder → List (String × String)
  | d@⟨_, _, _, _, _, items⟩ => (ItemOf.directory d).ownRefs ++ refsAmong items
where
  refsAmong : List (ItemOf Folder) → List (String × String)
    | [] => []
    | .directory d :: items => d.featureRefs ++ refsAmong items
    | item :: items => item.ownRefs ++ refsAmong items

/-- The references to features in all items, each with the label of its item. -/
def featureRefs (m : Manifest) : List (String × String) :=
  Folder.featureRefs.refsAmong m.items

def featureNames (m : Manifest) : List String :=
  m.features.flatMap Feature.names

/-- A name is that of a declared feature or of the default one, letter case aside. -/
def knowsFeature (m : Manifest) (name : String) : Bool :=
  Text.sameText name m.options.defaultFeature || m.featureNames.any (Text.sameText · name)

/-- The first reference to a feature that nobody declared. A manifest without any feature relies on
the default one and is not checked. -/
def validate (m : Manifest) : Except Fault Unit :=
  if m.features.isEmpty then .ok ()
  else match m.featureRefs.find? fun r => !m.knowsFeature r.1 with
    | some (feature, item) => .error (.undeclared feature item)
    | none => .ok ()

def Files.toFileSet (s : Files) : FileSet :=
  { pattern := s.pattern, files := s.files.map fun source => { source }, features := s.features }

def Closing.toCloseApplication (c : Closing) : CloseApplication :=
  { id := c.id, target := c.target, property := c.property, description := c.description
    timeout := c.timeout.getD 5, closeMessage := c.closeMessage
    rebootPrompt := c.rebootPrompt.getD true, attributes := c.attributes }

/-- A directory of a manifest as a project declares it. -/
def Folder.toDeclaration : Folder → Declaration
  | ⟨path, id, features, installDir, attributes, items⟩ =>
      { path, id, features, attributes, installDir, items := toItems items }
where
  toItems : List (ItemOf Folder) → List Directory.Item
    | [] => []
    | .directory d :: items => .directory d.toDeclaration :: toItems items
    | .file f :: items => .file f :: toItems items
    | .files s :: items => .files s.toFileSet :: toItems items
    | .shortcut s :: items => .shortcut s :: toItems items
    | .registry r :: items => .setting (.registry r) :: toItems items
    | .environment e :: items => .setting (.environment e) :: toItems items
    | .closeApplication c :: items => .setting (.closeApplication c.toCloseApplication) :: toItems items

def Cabinet.toMedia (c : Cabinet) : Media :=
  let usual : Media := {}
  { id := c.id, cabinet := c.cabinet.or usual.cabinet, embedCab := c.embedCab.or usual.embedCab
    compressionLevel := c.compressionLevel, diskPrompt := c.diskPrompt
    volumeLabel := c.volumeLabel, attributes := c.attributes }

/-- What the user interface starts from. -/
def Ui.start (u : Ui) : Dialog.Interface :=
  match u.postLicense, u.preset with
  | some d, _ => .postLicense d
  | none, .commonDialogs => .commonFlow
  | none, .stock => .stock
  | none, .dialogSequence => .dialogSequence

/-- The interface with the actions of one control published. -/
def Publish.apply (p : Publish) (ui : Dialog.Interface) : Dialog.Interface :=
  let ui := if p.replace then { ui with sequence := ui.sequence.clear p.dialog p.control } else ui
  ui.on (.named p.dialog) p.control (p.actions.map (⟨·, none⟩))

/-- The user interface as a project has it: dialogs, actions and properties over the start. -/
def Ui.toInterface (u : Ui) : Dialog.Interface :=
  let start := u.start
  let defined := { start with sequence := u.dialogs.foldl Dialog.Sequence.register start.sequence }
  let published := u.publish.foldl (fun ui p => p.apply ui) defined
  let named := u.properties.entries.foldl (fun ui p => ui.setProperty p.1 p.2) published
  { named with attributes := named.attributes.extend u.attributes }

/-- The project of a manifest before its items are added. -/
def emptyProject (m : Manifest) (version : Version) : Project where
  name := m.product.name
  version
  manufacturer := m.product.manufacturer
  language := m.product.language.getD "1033"
  codepage := m.product.codepage.getD "1252"
  description := m.product.description
  guid := m.product.guid
  productId := m.product.productId
  upgradeCode := m.product.upgradeCode
  sourceBaseDir := m.product.sourceBaseDir
  features := m.features
  properties := m.properties
  media := (m.media.map Cabinet.toMedia).getD {}
  majorUpgrade := m.majorUpgrade
  options := m.options
  attributes := m.product.attributes

/-- The project that a manifest describes. -/
def toProject (m : Manifest) : Except Fault Project := do
  m.validate
  let version ← (Version.parse m.product.version).mapError .version
  let p ← ((m.emptyProject version).addAll (Folder.toDeclaration.toItems m.items)).mapError .misplaced
  return { p with ui := m.ui.map Ui.toInterface }

end Manifest

end Installer
