import Installer.Schema.Basic
import Installer.Text.Basic

/-!
# The parts of a product

A product has features, which are the parts that the user may choose and which nest, installer
properties, media that hold the files, and a way to deal with its earlier versions.
-/

namespace Installer

open Markup Schema

/-- How a feature is installed when the user does not choose. -/
inductive TypicalDefault where
  | install
  | advertise
deriving DecidableEq, Inhabited

instance : Text.Worded TypicalDefault where
  all := [.install, .advertise]
  word
    | .install => "install"
    | .advertise => "advertise"

/-- The install level that holds when an expression is true at installation. -/
structure FeatureCondition where
  level : Int
  expression : String
deriving DecidableEq, Inhabited

/-- A feature with the features below it. -/
structure Feature where
  id : Option String := none
  name : String
  description : Option String := none
  level : Int := 1
  allowChange : Bool := true
  typicalDefault : Option TypicalDefault := none
  configurableDirectory : Option String := none
  condition : Option FeatureCondition := none
  children : List Feature := []
  attributes : Attributes := .empty
deriving Inhabited

namespace Feature

def named (name : String) : Feature :=
  { name }

/-- The feature and all below it, each before those below it. -/
def walk : Feature → List Feature
  | f@⟨_, _, _, _, _, _, _, _, children, _⟩ => f :: walkAll children
where
  walkAll : List Feature → List Feature
    | [] => []
    | f :: fs => f.walk ++ walkAll fs

def names (f : Feature) : List String :=
  f.walk.map (·.name)

def conditionElement (c : FeatureCondition) : Element :=
  ((Element.named "Condition").set "Level" (String.ofList (Text.integer c.level))).pushCData
    c.expression

/-- How a feature is written, without the features below it. -/
def schema : Schema Feature where
  element := "Feature"
  fields := [
    .required "Title" fun f => some (.text f.name),
    .required "Absent" fun f => some (.word (if f.allowChange then "allow" else "disallow")),
    .required "Level" fun f => some (.number f.level),
    .optional "Description" fun f => f.description.map .text,
    .optional "ConfigurableDirectory" fun f => f.configurableDirectory.map .text,
    .optional "TypicalDefault" fun f => f.typicalDefault.map fun t => .word (Text.Worded.word t),
    (Field.optional "Condition" fun f =>
      f.condition.map fun c => .elements [conditionElement c]).asChildren]
  attributes := (·.attributes)
  identity f := some ⟨.feature, f.name, f.id⟩

end Feature

/-- An installer property. Its name is its identifier. -/
structure Property where
  name : String
  value : Option String := none
  secure : Option Bool := none
  hidden : Option Bool := none
  admin : Option Bool := none
  attributes : Attributes := .empty
deriving DecidableEq, Inhabited

def Property.schema : Schema Property where
  element := "Property"
  fields := [
    .required "Id" fun p => some (.text p.name),
    .optional "Value" fun p => p.value.map .text,
    .optional "Secure" fun p => p.secure.map .flag,
    .optional "Hidden" fun p => p.hidden.map .flag,
    .optional "Admin" fun p => p.admin.map .flag]
  attributes := (·.attributes)

/-- How strongly a cabinet is compressed. -/
inductive CompressionLevel where
  | none
  | low
  | medium
  | high
  | mszip
deriving DecidableEq, Inhabited

instance : Text.Worded CompressionLevel where
  all := [.none, .low, .medium, .high, .mszip]
  word
    | .none => "none"
    | .low => "low"
    | .medium => "medium"
    | .high => "high"
    | .mszip => "mszip"

/-- The cabinet that holds the files. -/
structure Media where
  id : Int := 1
  cabinet : Option String := some "Cab1.cab"
  embedCab : Option Bool := some true
  compressionLevel : Option CompressionLevel := none
  diskPrompt : Option String := none
  volumeLabel : Option String := none
  attributes : Attributes := .empty
deriving DecidableEq

def Media.schema : Schema Media where
  element := "Media"
  fields := [
    .required "Id" fun m => some (.number m.id),
    .optional "Cabinet" fun m => m.cabinet.map .text,
    .optional "EmbedCab" fun m => m.embedCab.map .flag,
    .optional "CompressionLevel" fun m =>
      m.compressionLevel.map fun c => .word (Text.Worded.word c),
    .optional "DiskPrompt" fun m => m.diskPrompt.map .text,
    .optional "VolumeLabel" fun m => m.volumeLabel.map .text]
  attributes := (·.attributes)

/-- When the earlier version is removed. -/
inductive UpgradeSchedule where
  | afterInstallValidate
  | afterInstallInitialize
  | afterInstallExecute
  | afterInstallExecuteAgain
  | afterInstallFinalize
deriving DecidableEq, Inhabited

instance : Text.Worded UpgradeSchedule where
  all := [.afterInstallValidate, .afterInstallInitialize, .afterInstallExecute,
    .afterInstallExecuteAgain, .afterInstallFinalize]
  word
    | .afterInstallValidate => "afterInstallValidate"
    | .afterInstallInitialize => "afterInstallInitialize"
    | .afterInstallExecute => "afterInstallExecute"
    | .afterInstallExecuteAgain => "afterInstallExecuteAgain"
    | .afterInstallFinalize => "afterInstallFinalize"

/-- What happens to an earlier version of the product. -/
structure MajorUpgrade where
  allowDowngrades : Option Bool := none
  allowSameVersionUpgrades : Option Bool := none
  downgradeErrorMessage : Option String := none
  schedule : Option UpgradeSchedule := none
  attributes : Attributes := .empty
deriving DecidableEq, Inhabited

def MajorUpgrade.schema : Schema MajorUpgrade where
  element := "MajorUpgrade"
  fields := [
    .optional "AllowDowngrades" fun m => m.allowDowngrades.map .flag,
    .optional "AllowSameVersionUpgrades" fun m => m.allowSameVersionUpgrades.map .flag,
    .optional "DowngradeErrorMessage" fun m => m.downgradeErrorMessage.map .text,
    .optional "Schedule" fun m => m.schedule.map fun s => .word (Text.Worded.word s)]
  attributes := (·.attributes)

end Installer
