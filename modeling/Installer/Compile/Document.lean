import Installer.Compile.Features
import Installer.Markup.Render

/-!
# Documents

The document of a project: the product with its package, media and upgrade policy, the directories
with all components, the features, the properties and the user interface. Beside it stands a report
of the identifiers that were given.
-/

namespace Installer.Compile

open Identifier Directory Markup Schema

/-- A document with the report on it. -/
structure Compiled where
  document : Element
  ids : List Assigned
  installDir : Option String
  warnings : List Warning

def Compiled.text (c : Compiled) : String :=
  render c.document

def Compiled.componentCount (c : Compiled) : Nat :=
  c.ids.countP (·.kind = .component)

def productElement (p : Project) : Element :=
  let upgradeCode := p.upgradeCode.getD (Digest.Guid.stable p.seed "UpgradeCode")
  (Element.named "Product").setAll
    ([("Id", p.productId.getD "*"), ("Name", p.name), ("Language", p.language),
      ("Codepage", p.codepage), ("Version", p.version.text), ("Manufacturer", p.manufacturer),
      ("UpgradeCode", upgradeCode)] ++ p.attributes.own)

/-- The package that holds the product. -/
def packageElement (p : Project) : Element :=
  (Element.named "Package").setAll
    ([("InstallerVersion", "200"), ("Compressed", "yes")] ++
      (p.description.map (("Description", ·))).toList ++
      if p.manufacturer.isEmpty then [] else [("Manufacturer", p.manufacturer)])

/-- The directory above all others, with nothing in it. -/
def targetDirElement : Element :=
  ((Element.named "Directory").set "Id" targetDirId).set "Name" "SourceDir"

/-- The user interface, if there is one to write. Its directory is the installation directory. -/
def interfaceElements (p : Project) (installDir : Option String) : Emit (List Element) :=
  match p.ui with
  | some ui =>
      if p.options.emitUi then do
        let bound := match installDir with
          | some id => ui.bindInstallDir id
          | none => ui
        return [← bound.emit]
      else return []
  | none => return []

/-- The root of a document. Its extension is declared only where it is used. -/
def rootElement (usesUtil : Bool) (product : Element) : Element :=
  ((Element.named "Wix").setAll
    (("xmlns", "http://schemas.microsoft.com/wix/2006/wi") ::
      if usesUtil then [("xmlns:util", "http://schemas.microsoft.com/wix/UtilExtension")]
      else [])).push product

/-- The document of a project whose directories have their identifiers. -/
def document (p : Project) (d : DirectoryIds) : Emit Compiled := do
  let directories ← directoryPart.directoryParts p d p.directories.outlines
  let placed ← ({} : Placement).processAll p.seed p.settings
  let (settings, parents) := placedPart placed []
  let media ← Media.schema.emit p.media
  let upgrade ← p.majorUpgrade.toList.mapM MajorUpgrade.schema.emit
  let components := directories.append settings
  let (features, featureWarnings) ← allFeatureParts p components.refs
  let properties ← p.properties.mapM Property.schema.emit
  let ui ← interfaceElements p d.installDirId
  let product := (productElement p).pushAll
    ([packageElement p, media.element] ++ upgrade.map (·.element) ++
      [targetDirElement.pushAll components.elements] ++ parents ++ features.elements ++
      properties.map (·.element) ++ ui)
  return ⟨rootElement components.usesUtil product,
    d.report p.directories ++ components.assigned ++ features.assigned, d.installDirId,
    d.warnings ++ featureWarnings⟩

end Installer.Compile

namespace Installer

/-- The document of a project, or the first required field without a value. -/
def Project.compile (p : Project) : Except Schema.MissingValue Compile.Compiled :=
  let d := Compile.assignDirectories p
  ((Compile.document p d).run d.ids).map (·.1)

end Installer
