import Installer.Digest.Sha
import Installer.Json.Decode
import Installer.Json.Printer
import Installer.Json.Reader
import Installer.Manifest.Encode

/-!
# Reading manifests

A manifest is read from a JSON text or refused as a whole. Arrays and objects may nest 127 levels
deep in what is read. An item is taken up as a whole before its kind is known, so everything in it
has to be readable, passed over or not.
-/

namespace Installer.Manifest

open Json Json.Decoder Schema

def decodeProduct : Nat → Decoder Product :=
  record ["name", "version", "manufacturer", "language", "codepage", "description", "guid",
    "product_id", "upgrade_code", "source_base_dir", "attributes"] fun depth fs => do
    let name ← fs.required "name" text
    let version ← fs.withDefault "version" text "1.0.0.0"
    let manufacturer ← fs.withDefault "manufacturer" text ""
    let language ← fs.optional "language" text
    let codepage ← fs.optional "codepage" text
    let description ← fs.optional "description" text
    let guid ← fs.optional "guid" text
    let productId ← fs.optional "product_id" text
    let upgradeCode ← fs.optional "upgrade_code" text
    let sourceBaseDir ← fs.optional "source_base_dir" text
    let attributes ← fs.withDefault "attributes" (mapping depth) .empty
    return {
      name, version, manufacturer, language, codepage, description, guid, productId, upgradeCode
      sourceBaseDir, attributes }

def decodeFeatureCondition : Nat → Decoder FeatureCondition :=
  record ["level", "expression"] fun _ fs => do
    let level ← fs.required "level" int64
    let expression ← fs.required "expression" text
    return { level, expression }

def featureFieldNames : List String := [
  "name", "id", "description", "level", "allow_change", "typical_default", "configurable_dir",
  "condition", "children", "attributes"]

/-- A feature whose fields are read, but for the features below it. -/
def buildFeature (depth : Nat) (fs : Fields) (children : List Feature) : Option Feature := do
  let name ← fs.required "name" text
  let id ← fs.optional "id" text
  let description ← fs.optional "description" text
  let level ← fs.withDefault "level" int64 1
  let allowChange ← fs.withDefault "allow_change" bool true
  let typicalDefault ← fs.optional "typical_default" (word false depth)
  let configurableDirectory ← fs.optional "configurable_dir" text
  let condition ← fs.optional "condition" (decodeFeatureCondition depth)
  let attributes ← fs.withDefault "attributes" (mapping depth) .empty
  return {
    id, name, description, level, allowChange, typicalDefault, configurableDirectory, condition
    children, attributes }

mutual

def decodeFeature : Nat → Decoder Feature
  | depth + 1, j => do
      let fs ← fields? featureFieldNames j
      let children ← fs.withDefault "children" (fun j => decodeFeatures depth j) []
      buildFeature depth fs children
  | 0, _ => none

def decodeFeatures : Nat → Decoder (List Feature)
  | depth + 1, .array js => js.mapM fun j => decodeFeature depth j
  | _, _ => none

end

def decodeProperty : Nat → Decoder Property :=
  record ["name", "value", "secure", "hidden", "admin", "attributes"] fun depth fs => do
    let name ← fs.required "name" text
    let value ← fs.optional "value" text
    let secure ← fs.optional "secure" bool
    let hidden ← fs.optional "hidden" bool
    let admin ← fs.optional "admin" bool
    let attributes ← fs.withDefault "attributes" (mapping depth) .empty
    return { name, value, secure, hidden, admin, attributes }

def decodeFile : Nat → Decoder File :=
  record ["source", "id", "name", "features", "vital", "read_only", "hidden", "compressed",
    "attributes"] fun depth fs => do
    let source ← fs.required "source" text
    let id ← fs.optional "id" text
    let name ← fs.optional "name" text
    let features ← fs.withDefault "features" (texts depth) []
    let vital ← fs.optional "vital" bool
    let readOnly ← fs.optional "read_only" bool
    let hidden ← fs.optional "hidden" bool
    let compressed ← fs.optional "compressed" bool
    let attributes ← fs.withDefault "attributes" (mapping depth) .empty
    return { id, source, name, features, vital, readOnly, hidden, compressed, attributes }

def decodeFiles : Nat → Decoder Files :=
  record ["pattern", "files", "features"] fun depth fs => do
    let pattern ← fs.required "pattern" text
    let files ← fs.withDefault "files" (texts depth) []
    let features ← fs.withDefault "features" (texts depth) []
    return { pattern, files, features }

def decodeShortcut : Nat → Decoder Shortcut :=
  record ["name", "target", "id", "arguments", "working_directory", "description", "icon",
    "features", "attributes"] fun depth fs => do
    let name ← fs.required "name" text
    let target ← fs.required "target" text
    let id ← fs.optional "id" text
    let arguments ← fs.optional "arguments" text
    let workingDirectory ← fs.optional "working_directory" text
    let description ← fs.optional "description" text
    let icon ← fs.optional "icon" text
    let features ← fs.withDefault "features" (texts depth) []
    let attributes ← fs.withDefault "attributes" (mapping depth) .empty
    return {
      id, name, target, arguments, workingDirectory, description, icon, features, attributes }

def decodeRegistry : Nat → Decoder RegistryValue :=
  record ["root", "key", "name", "value", "type", "id", "win64", "features", "attributes"]
    fun depth fs => do
    let root ← fs.withDefault "root" (word true depth) .localMachine
    let key ← fs.required "key" text
    let name ← fs.optional "name" text
    let value ← fs.withDefault "value" text ""
    let type ← fs.withDefault "type" (word true depth) .string
    let id ← fs.optional "id" text
    let win64 ← fs.optional "win64" bool
    let features ← fs.withDefault "features" (texts depth) []
    let attributes ← fs.withDefault "attributes" (mapping depth) .empty
    return { id, root, key, name, value, type, win64, features, attributes }

def decodeEnvironment : Nat → Decoder EnvironmentVariable :=
  record ["name", "value", "id", "system", "permanent", "action", "part", "condition", "features",
    "attributes"] fun depth fs => do
    let name ← fs.required "name" text
    let value ← fs.optional "value" text
    let id ← fs.optional "id" text
    let system ← fs.optional "system" bool
    let permanent ← fs.optional "permanent" bool
    let action ← fs.withDefault "action" (word true depth) .set
    let part ← fs.optional "part" (word true depth)
    let condition ← fs.optional "condition" text
    let features ← fs.withDefault "features" (texts depth) []
    let attributes ← fs.withDefault "attributes" (mapping depth) .empty
    return {
      id, name, value, system, permanent, action, part, condition, features, attributes }

def decodeClosing : Nat → Decoder Closing :=
  record ["target", "id", "property", "description", "timeout", "reboot_prompt", "close_message",
    "attributes"] fun depth fs => do
    let target ← fs.required "target" text
    let id ← fs.optional "id" text
    let property ← fs.optional "property" text
    let description ← fs.optional "description" text
    let timeout ← fs.optional "timeout" int64
    let rebootPrompt ← fs.optional "reboot_prompt" bool
    let closeMessage ← fs.withDefault "close_message" bool false
    let attributes ← fs.withDefault "attributes" (mapping depth) .empty
    return { target, id, property, description, timeout, rebootPrompt, closeMessage, attributes }

inductive ItemKind where
  | directory
  | file
  | files
  | shortcut
  | registry
  | environment
  | closeApplication
deriving DecidableEq

instance : Text.Worded ItemKind where
  all := [.directory, .file, .files, .shortcut, .registry, .environment, .closeApplication]
  word
    | .directory => "dir"
    | .file => "file"
    | .files => "files"
    | .shortcut => "shortcut"
    | .registry => "registry"
    | .environment => "environment"
    | .closeApplication => "close_application"

/-- The kind of an item by its word. In a directory its place in the list of kinds will do. -/
def decodeItemKind (nested : Bool) : Decoder ItemKind
  | .string (some s) => Text.ofWord? s
  | .number n =>
      if nested && !n.negative then
        n.integer?.bind fun i => (Text.Worded.all : List ItemKind)[i.toNat]?
      else none
  | _ => none

/-- The kind of an item and its other fields: a member `kind`, which comes once, or the first of an
array. -/
def splitKind? (nested : Bool) : Json → Option (ItemKind × Json)
  | .object ms =>
      match ms.filter fun m => m.1 == some "kind" with
      | [(_, kind)] =>
          (decodeItemKind nested kind).map (·, .object (ms.filter fun m => m.1 != some "kind"))
      | _ => none
  | .array (kind :: js) => (decodeItemKind nested kind).map (·, .array js)
  | _ => none

def folderFieldNames : List String := ["path", "id", "features", "install_dir", "attributes", "items"]

/-- A directory whose fields are read, but for its items. -/
def buildFolder (depth : Nat) (fs : Fields) (items : List Item) : Option Folder := do
  let path ← fs.required "path" text
  let id ← fs.optional "id" text
  let features ← fs.withDefault "features" (texts depth) []
  let installDir ← fs.withDefault "install_dir" bool false
  let attributes ← fs.withDefault "attributes" (mapping depth) .empty
  return { path, id, features, installDir, attributes, items }

mutual

/-- An item, in a directory or of the product. -/
def decodeItem (nested : Bool) : Nat → Decoder Item
  | depth + 1, j => do
      let (kind, rest) ← splitKind? nested j
      match kind with
      | .directory =>
          let fs ← fields? folderFieldNames rest
          let items ← fs.withDefault "items" (fun j => decodeItems depth j) []
          (buildFolder depth fs items).map .directory
      | .file => (decodeFile (depth + 1) rest).map .file
      | .files => (decodeFiles (depth + 1) rest).map .files
      | .shortcut => (decodeShortcut (depth + 1) rest).map .shortcut
      | .registry => (decodeRegistry (depth + 1) rest).map .registry
      | .environment => (decodeEnvironment (depth + 1) rest).map .environment
      | .closeApplication => (decodeClosing (depth + 1) rest).map .closeApplication
  | 0, _ => none

def decodeItems : Nat → Decoder (List Item)
  | depth + 1, .array js => js.mapM fun j => decodeItem true depth j
  | _, _ => none

end

/-- An item of the product, all of which is readable. -/
def decodeTopItem (depth : Nat) : Decoder Item := fun j =>
  if isReadable depth j then decodeItem false depth j else none

def decodeCabinet : Nat → Decoder Cabinet :=
  record ["id", "cabinet", "embed_cab", "compression_level", "disk_prompt", "volume_label",
    "attributes"] fun depth fs => do
    let id ← fs.withDefault "id" int64 1
    let cabinet ← fs.optional "cabinet" text
    let embedCab ← fs.optional "embed_cab" bool
    let compressionLevel ← fs.optional "compression_level" (word false depth)
    let diskPrompt ← fs.optional "disk_prompt" text
    let volumeLabel ← fs.optional "volume_label" text
    let attributes ← fs.withDefault "attributes" (mapping depth) .empty
    return { id, cabinet, embedCab, compressionLevel, diskPrompt, volumeLabel, attributes }

def decodeMajorUpgrade : Nat → Decoder MajorUpgrade :=
  record ["allow_downgrades", "allow_same_version_upgrades", "downgrade_error_message", "schedule",
    "attributes"] fun depth fs => do
    let allowDowngrades ← fs.optional "allow_downgrades" bool
    let allowSameVersionUpgrades ← fs.optional "allow_same_version_upgrades" bool
    let downgradeErrorMessage ← fs.optional "downgrade_error_message" text
    let schedule ← fs.optional "schedule" (word false depth)
    let attributes ← fs.withDefault "attributes" (mapping depth) .empty
    return { allowDowngrades, allowSameVersionUpgrades, downgradeErrorMessage, schedule, attributes }

def decodeAction : Nat → Decoder Dialog.Action :=
  record ["event", "property", "value", "condition", "order"] fun depth fs => do
    let event ← fs.optional "event" (word false depth)
    let property ← fs.optional "property" text
    let value ← fs.withDefault "value" text ""
    let condition ← fs.withDefault "condition" text Dialog.always
    let order ← fs.optional "order" nat32
    return { event, property, value, condition, order }

def decodeControlCondition : Nat → Decoder Dialog.ControlCondition :=
  record ["action", "expression"] fun depth fs => do
    let action ← fs.required "action" (word false depth)
    let expression ← fs.required "expression" text
    return { action, expression }

def decodeControl : Nat → Decoder Dialog.Control :=
  record ["id", "type", "x", "y", "width", "height", "text", "property", "tooltip", "hidden",
    "disabled", "actions", "conditions", "attributes"] fun depth fs => do
    let id ← fs.required "id" text
    let type ← fs.required "type" text
    let x ← fs.withDefault "x" nat32 0
    let y ← fs.withDefault "y" nat32 0
    let width ← fs.withDefault "width" nat32 0
    let height ← fs.withDefault "height" nat32 0
    let shown ← fs.optional "text" text
    let property ← fs.optional "property" text
    let tooltip ← fs.optional "tooltip" text
    let hidden ← fs.withDefault "hidden" bool false
    let disabled ← fs.withDefault "disabled" bool false
    let actions ← fs.withDefault "actions" (list decodeAction depth) []
    let conditions ← fs.withDefault "conditions" (list decodeControlCondition depth) []
    let attributes ← fs.withDefault "attributes" (mapping depth) .empty
    return {
      id, type, x, y, width, height, text := shown, property, tooltip, hidden, disabled, actions
      conditions, attributes }

def decodeDialog : Nat → Decoder Dialog.Definition :=
  record ["id", "width", "height", "title", "controls", "attributes"] fun depth fs => do
    let id ← fs.required "id" text
    let width ← fs.withDefault "width" nat32 0
    let height ← fs.withDefault "height" nat32 0
    let title ← fs.withDefault "title" text ""
    let controls ← fs.withDefault "controls" (list decodeControl depth) []
    let attributes ← fs.withDefault "attributes" (mapping depth) .empty
    return { id, width, height, title, controls, attributes }

def decodePublish : Nat → Decoder Publish :=
  record ["dialog", "control", "actions", "replace"] fun depth fs => do
    let dialog ← fs.required "dialog" text
    let control ← fs.required "control" text
    let actions ← fs.withDefault "actions" (list decodeAction depth) []
    let replace ← fs.withDefault "replace" bool false
    return { dialog, control, actions, replace }

def decodeUi : Nat → Decoder Ui :=
  record ["preset", "post_license", "dialogs", "publish", "properties", "attributes"]
    fun depth fs => do
    let preset ← fs.withDefault "preset" (word false depth) .commonDialogs
    let postLicense ← fs.optional "post_license" (decodeDialog depth)
    let dialogs ← fs.withDefault "dialogs" (list decodeDialog depth) []
    let publish ← fs.withDefault "publish" (list decodePublish depth) []
    let properties ← fs.withDefault "properties" (mapping depth) .empty
    let attributes ← fs.withDefault "attributes" (mapping depth) .empty
    return { preset, postLicense, dialogs, publish, properties, attributes }

/-- The options. A missing identifier means the usual one, `null` means none. -/
def decodeOptions : Nat → Decoder Options :=
  record ["install_dir_id", "empty_directories", "default_feature", "emit_ui"] fun depth fs => do
    let usual : Options := {}
    let installDirId ← fs.withDefault "install_dir_id" text.nullable usual.installDirId
    let emptyDirectories ← fs.withDefault "empty_directories" (word false depth)
      usual.emptyDirectories
    let defaultFeature ← fs.withDefault "default_feature" text usual.defaultFeature
    let emitUi ← fs.withDefault "emit_ui" bool usual.emitUi
    return { installDirId, emptyDirectories, defaultFeature, emitUi }

def decode : Nat → Decoder Manifest :=
  record ["product", "features", "properties", "items", "media", "major_upgrade", "ui", "options"]
    fun depth fs => do
    let product ← fs.required "product" (decodeProduct depth)
    let features ← fs.withDefault "features" (decodeFeatures depth) []
    let properties ← fs.withDefault "properties" (list decodeProperty depth) []
    let items ← fs.withDefault "items" (list decodeTopItem depth) []
    let media ← fs.optional "media" (decodeCabinet depth)
    let majorUpgrade ← fs.optional "major_upgrade" (decodeMajorUpgrade depth)
    let ui ← fs.optional "ui" (decodeUi depth)
    let options ← fs.withDefault "options" (decodeOptions depth) {}
    return { product, features, properties, items, media, majorUpgrade, ui, options }

/-- How deep arrays and objects may nest in what is read. -/
def maxDepth : Nat := 127

/-- The manifest that a text writes, if it writes one. -/
def read? (s : String) : Option Manifest :=
  (Json.read? s).bind (decode maxDepth)

/-- The one text that writes a manifest in its shortest form. -/
def canonical (m : Manifest) : String :=
  m.encode.compact

/-- How many digits of its hash tell a manifest from others. -/
def fingerprintLength : Nat := 20

/-- The leading digits of the hash of a manifest's shortest form. -/
def fingerprint (m : Manifest) : String :=
  String.ofList ((Digest.Sha256.hexHash m.canonical).toList.take fingerprintLength)

end Installer.Manifest
