import Installer.Json.Decode
import Installer.Manifest.Basic

/-!
# Manifests as JSON values

Every field of a manifest is written in its place, so equal manifests have equal values. Optional
fields that are not set are left out, apart from those that a reader may expect to be there.
-/

namespace Installer.Manifest

open Json Schema

/-- An optional text that is left out when there is none. -/
def optText (s : Option String) : Option Json :=
  s.map text

/-- An optional truth value that is left out when there is none. -/
def optBool (b : Option Bool) : Option Json :=
  b.map .bool

def Product.encode (p : Product) : Json :=
  present [
    ("name", text p.name), ("version", text p.version), ("manufacturer", text p.manufacturer),
    ("language", optText p.language), ("codepage", optText p.codepage),
    ("description", optText p.description), ("guid", optText p.guid),
    ("product_id", optText p.productId), ("upgrade_code", optText p.upgradeCode),
    ("source_base_dir", optText p.sourceBaseDir), ("attributes", mapping p.attributes)]

def encodeFeatureCondition (c : FeatureCondition) : Json :=
  present [("level", int c.level), ("expression", text c.expression)]

def encodeFeature : Feature → Json
  | ⟨id, name, description, level, allowChange, typicalDefault, configurable, condition, children,
      attributes⟩ =>
      present [
        ("name", text name), ("id", optText id), ("description", optText description),
        ("level", int level), ("allow_change", Json.bool allowChange),
        ("typical_default", typicalDefault.map Json.word),
        ("configurable_dir", optText configurable),
        ("condition", condition.map encodeFeatureCondition),
        ("children", Json.array (encodeFeatures children)), ("attributes", mapping attributes)]
where
  encodeFeatures : List Feature → List Json
    | [] => []
    | f :: fs => encodeFeature f :: encodeFeatures fs

def encodeProperty (p : Property) : Json :=
  present [
    ("name", text p.name), ("value", optText p.value), ("secure", optBool p.secure),
    ("hidden", optBool p.hidden), ("admin", optBool p.admin), ("attributes", mapping p.attributes)]

def fileMembers (f : File) : List (String × Option Json) := [
  ("source", text f.source), ("id", optText f.id), ("name", optText f.name),
  ("features", texts f.features), ("vital", optBool f.vital), ("read_only", optBool f.readOnly),
  ("hidden", optBool f.hidden), ("compressed", optBool f.compressed),
  ("attributes", mapping f.attributes)]

def Files.members (s : Files) : List (String × Option Json) := [
  ("pattern", text s.pattern), ("files", texts s.files), ("features", texts s.features)]

def shortcutMembers (s : Shortcut) : List (String × Option Json) := [
  ("name", text s.name), ("target", text s.target), ("id", optText s.id),
  ("arguments", optText s.arguments), ("working_directory", optText s.workingDirectory),
  ("description", optText s.description), ("icon", optText s.icon),
  ("features", texts s.features), ("attributes", mapping s.attributes)]

def registryMembers (r : RegistryValue) : List (String × Option Json) := [
  ("root", Json.word r.root), ("key", text r.key), ("name", optText r.name),
  ("value", text r.value), ("type", Json.word r.type), ("id", optText r.id),
  ("win64", optBool r.win64), ("features", texts r.features), ("attributes", mapping r.attributes)]

def environmentMembers (e : EnvironmentVariable) : List (String × Option Json) := [
  ("name", text e.name), ("value", optText e.value), ("id", optText e.id),
  ("system", optBool e.system), ("permanent", optBool e.permanent), ("action", Json.word e.action),
  ("part", e.part.map Json.word), ("condition", optText e.condition),
  ("features", texts e.features), ("attributes", mapping e.attributes)]

def Closing.members (c : Closing) : List (String × Option Json) := [
  ("target", text c.target), ("id", optText c.id), ("property", optText c.property),
  ("description", optText c.description), ("timeout", c.timeout.map int),
  ("reboot_prompt", optBool c.rebootPrompt), ("close_message", Json.bool c.closeMessage),
  ("attributes", mapping c.attributes)]

/-- An object that begins with the kind of an item. -/
def tagged (kind : String) (members : List (String × Option Json)) : Json :=
  present (("kind", text kind) :: members)

def Folder.encode : Folder → Json
  | ⟨path, id, features, installDir, attributes, items⟩ =>
      tagged "dir" [
        ("path", text path), ("id", optText id), ("features", texts features),
        ("install_dir", Json.bool installDir), ("attributes", mapping attributes),
        ("items", Json.array (encodeItems items))]
where
  encodeItems : List (ItemOf Folder) → List Json
    | [] => []
    | .directory d :: items => d.encode :: encodeItems items
    | .file f :: items => tagged "file" (fileMembers f) :: encodeItems items
    | .files s :: items => tagged "files" s.members :: encodeItems items
    | .shortcut s :: items => tagged "shortcut" (shortcutMembers s) :: encodeItems items
    | .registry r :: items => tagged "registry" (registryMembers r) :: encodeItems items
    | .environment e :: items => tagged "environment" (environmentMembers e) :: encodeItems items
    | .closeApplication c :: items => tagged "close_application" c.members :: encodeItems items

def Cabinet.encode (c : Cabinet) : Json :=
  present [
    ("id", int c.id), ("cabinet", optText c.cabinet), ("embed_cab", optBool c.embedCab),
    ("compression_level", c.compressionLevel.map Json.word), ("disk_prompt", optText c.diskPrompt),
    ("volume_label", optText c.volumeLabel), ("attributes", mapping c.attributes)]

def encodeMajorUpgrade (m : MajorUpgrade) : Json :=
  present [
    ("allow_downgrades", optBool m.allowDowngrades),
    ("allow_same_version_upgrades", optBool m.allowSameVersionUpgrades),
    ("downgrade_error_message", optText m.downgradeErrorMessage),
    ("schedule", m.schedule.map Json.word), ("attributes", mapping m.attributes)]

def encodeAction (a : Dialog.Action) : Json :=
  present [
    ("event", a.event.map Json.word), ("property", optText a.property), ("value", text a.value),
    ("condition", text a.condition), ("order", a.order.map nat)]

def encodeControlCondition (c : Dialog.ControlCondition) : Json :=
  present [("action", Json.word c.action), ("expression", text c.expression)]

/-- A control of a dialog. Its texts are written even when they are not set. -/
def encodeControl (c : Dialog.Control) : Json :=
  present [
    ("id", text c.id), ("type", text c.type), ("x", nat c.x), ("y", nat c.y),
    ("width", nat c.width), ("height", nat c.height), ("text", optionalText c.text),
    ("property", optionalText c.property), ("tooltip", optionalText c.tooltip),
    ("hidden", Json.bool c.hidden), ("disabled", Json.bool c.disabled),
    ("actions", Json.array (c.actions.map encodeAction)),
    ("conditions", Json.array (c.conditions.map encodeControlCondition)),
    ("attributes", mapping c.attributes)]

def encodeDialog (d : Dialog.Definition) : Json :=
  present [
    ("id", text d.id), ("width", nat d.width), ("height", nat d.height), ("title", text d.title),
    ("controls", Json.array (d.controls.map encodeControl)), ("attributes", mapping d.attributes)]

def Publish.encode (p : Publish) : Json :=
  present [
    ("dialog", text p.dialog), ("control", text p.control),
    ("actions", Json.array (p.actions.map encodeAction)), ("replace", Json.bool p.replace)]

def Ui.encode (u : Ui) : Json :=
  present [
    ("preset", Json.word u.preset), ("post_license", u.postLicense.map encodeDialog),
    ("dialogs", Json.array (u.dialogs.map encodeDialog)),
    ("publish", Json.array (u.publish.map Publish.encode)),
    ("properties", mapping u.properties), ("attributes", mapping u.attributes)]

/-- The options. A missing identifier is written, because leaving it out means the usual one. -/
def encodeOptions (o : Options) : Json :=
  present [
    ("install_dir_id", optionalText o.installDirId),
    ("empty_directories", Json.word o.emptyDirectories),
    ("default_feature", text o.defaultFeature), ("emit_ui", Json.bool o.emitUi)]

def encode (m : Manifest) : Json :=
  present [
    ("product", m.product.encode), ("features", Json.array (encodeFeature.encodeFeatures m.features)),
    ("properties", Json.array (m.properties.map encodeProperty)),
    ("items", Json.array (Folder.encode.encodeItems m.items)),
    ("media", m.media.map Cabinet.encode), ("major_upgrade", m.majorUpgrade.map encodeMajorUpgrade),
    ("ui", m.ui.map Ui.encode), ("options", encodeOptions m.options)]

end Installer.Manifest
