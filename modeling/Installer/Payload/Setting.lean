import Installer.Formatted
import Installer.Schema.Basic
import Installer.Text.Basic
import Installer.Text.Pieces

/-!
# Settings

What an installation changes on the system besides files and shortcuts: registry values, environment
variables, and running applications, which can be closed before their files are replaced. A setting may
be declared in a directory or for the product as a whole.
-/

namespace Installer

open Markup Schema

/-- The part of the registry that a key lies in. The last one is the machine or the user, as the
installation is for. -/
inductive RegistryHive where
  | localMachine
  | currentUser
  | classesRoot
  | users
  | machineOrUser
deriving DecidableEq, Inhabited

instance : Text.Worded RegistryHive where
  all := [.localMachine, .currentUser, .classesRoot, .users, .machineOrUser]
  word
    | .localMachine => "HKLM"
    | .currentUser => "HKCU"
    | .classesRoot => "HKCR"
    | .users => "HKU"
    | .machineOrUser => "HKMU"

inductive RegistryType where
  | string
  | integer
  | binary
  | expandable
  | multiString
deriving DecidableEq, Inhabited

instance : Text.Worded RegistryType where
  all := [.string, .integer, .binary, .expandable, .multiString]
  word
    | .string => "string"
    | .integer => "integer"
    | .binary => "binary"
    | .expandable => "expandable"
    | .multiString => "multiString"

/-- A value to write into the registry. Without a name it is the default value of its key. -/
structure RegistryValue where
  id : Option String := none
  root : RegistryHive := .localMachine
  key : String
  name : Option String := none
  value : String := ""
  type : RegistryType := .string
  win64 : Option Bool := none
  features : List String := []
  attributes : Attributes := .empty
deriving DecidableEq, Inhabited

namespace RegistryValue

/-- The name that the identifier is made from: the value's, or the key's where that is empty. -/
def identitySource (r : RegistryValue) : String :=
  match r.name with
  | some name => if name.isEmpty then r.key else name
  | none => r.key

/-- A line of a value of several lines. -/
def lineElement (line : String) : Element :=
  (Element.named "MultiStringValue").pushText line

/-- How a registry value is written. The lines of a value of several lines become elements. -/
def schema : Schema RegistryValue where
  element := "RegistryValue"
  fields := [
    .required "Root" fun r => some (.word (Text.Worded.word r.root)),
    .required "Key" fun r => some (.text r.key),
    .optional "Name" fun r => r.name.map .text,
    .required "Type" fun r => some (.word (Text.Worded.word r.type)),
    .optional "Value" fun r =>
      if r.type = .multiString then none else some (.text (Formatted.normalize r.value)),
    (Field.optional "MultiStringValue" fun r =>
      if r.type = .multiString then some (.elements ((Text.lines r.value).map lineElement))
      else none).asChildren,
    .required "KeyPath" fun _ => some (.flag true)]
  attributes := (·.attributes)
  identity r := some ⟨.registryValue, r.identitySource, r.id⟩

end RegistryValue

/-- What is done with an environment variable. -/
inductive EnvironmentAction where
  | set
  | create
  | remove
deriving DecidableEq, Inhabited

instance : Text.Worded EnvironmentAction where
  all := [.set, .create, .remove]
  word
    | .set => "set"
    | .create => "create"
    | .remove => "remove"

/-- Where a value goes in a variable that holds a list. -/
inductive EnvironmentPart where
  | all
  | first
  | last
deriving DecidableEq, Inhabited

instance : Text.Worded EnvironmentPart where
  all := [.all, .first, .last]
  word
    | .all => "all"
    | .first => "first"
    | .last => "last"

/-- An environment variable to set, create or remove. The condition is that of its component. -/
structure EnvironmentVariable where
  id : Option String := none
  name : String
  value : Option String := none
  system : Option Bool := none
  permanent : Option Bool := none
  action : EnvironmentAction := .set
  part : Option EnvironmentPart := none
  condition : Option String := none
  features : List String := []
  attributes : Attributes := .empty
deriving DecidableEq, Inhabited

namespace EnvironmentVariable

def schema : Schema EnvironmentVariable where
  element := "Environment"
  fields := [
    .required "Name" fun e => some (.text e.name),
    .optional "System" fun e => e.system.map .flag,
    .optional "Permanent" fun e => e.permanent.map .flag,
    .optional "Value" fun e => e.value.map fun v => .text (Formatted.normalize v),
    .required "Action" fun e => some (.word (Text.Worded.word e.action)),
    .optional "Part" fun e => e.part.map fun p => .word (Text.Worded.word p)]
  attributes := (·.attributes)
  identity e := some ⟨.environmentVariable, e.name, e.id⟩

end EnvironmentVariable

structure CloseApplication where
  id : Option String := none
  target : String
  property : Option String := none
  description : Option String := none
  terminateProcess : Option Int := none
  timeout : Int := 5
  sequence : Int := 1
  closeMessage : Bool := false
  elevatedCloseMessage : Bool := false
  elevatedEndSessionMessage : Bool := false
  endSessionMessage : Bool := false
  promptToContinue : Bool := false
  rebootPrompt : Bool := true
  attributes : Attributes := .empty
deriving DecidableEq, Inhabited

namespace CloseApplication

def schema : Schema CloseApplication where
  element := "util:CloseApplication"
  fields := [
    .optional "Id" fun c => c.id.map .text,
    .optional "Property" fun c => c.property.map .text,
    .required "Target" fun c => some (.text c.target),
    .optional "Description" fun c => c.description.map .text,
    .optional "TerminateProcess" fun c => c.terminateProcess.map .number,
    .required "Timeout" fun c => some (.number c.timeout),
    .required "Sequence" fun c => some (.number c.sequence),
    .required "CloseMessage" fun c => some (.flag c.closeMessage),
    .required "ElevatedCloseMessage" fun c => some (.flag c.elevatedCloseMessage),
    .required "ElevatedEndSessionMessage" fun c => some (.flag c.elevatedEndSessionMessage),
    .required "EndSessionMessage" fun c => some (.flag c.endSessionMessage),
    .required "PromptToContinue" fun c => some (.flag c.promptToContinue),
    .required "RebootPrompt" fun c => some (.flag c.rebootPrompt)]
  attributes := (·.attributes)

end CloseApplication

/-- A registry value, an environment variable, or an application to close. -/
inductive Setting where
  | registry (r : RegistryValue)
  | environment (e : EnvironmentVariable)
  | closeApplication (c : CloseApplication)
deriving DecidableEq

namespace Setting

def typeName : Setting → String
  | .registry _ => "RegistryValue"
  | .environment _ => "EnvironmentVariable"
  | .closeApplication _ => "CloseApplication"

/-- The setting as an element, before it has a place. -/
def emit : Setting → Schema.Emit Schema.Written
  | .registry r => RegistryValue.schema.emit r
  | .environment e => EnvironmentVariable.schema.emit e
  | .closeApplication c => CloseApplication.schema.emit c

end Setting

end Installer
