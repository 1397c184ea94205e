import Installer.Text.Basic

/-!
# Dialog actions

What happens when the user works a control of a dialog: an event of the installer, or a property
that takes a value.
-/

namespace Installer.Dialog

/-- The events that an action can raise. -/
inductive Event where
  | newDialog
  | spawnDialog
  | endDialog
  | doAction
  | setTargetPath
deriving DecidableEq, Inhabited

instance : Text.Worded Event where
  all := [.newDialog, .spawnDialog, .endDialog, .doAction, .setTargetPath]
  word
    | .newDialog => "NewDialog"
    | .spawnDialog => "SpawnDialog"
    | .endDialog => "EndDialog"
    | .doAction => "DoAction"
    | .setTargetPath => "SetTargetPath"

def Event.navigates : Event → Bool
  | .newDialog => true
  | .spawnDialog => true
  | _ => false

/-- The condition that always holds. -/
def always : String := "1"

/-- An action under a condition. It raises an event, or it gives a property a value. -/
structure Action where
  event : Option Event := none
  property : Option String := none
  value : String := ""
  condition : String := always
  order : Option Nat := none
deriving DecidableEq, Inhabited

namespace Action

def raise (event : Event) (value : String) : Action :=
  { event := some event, value }

/-- An action that replaces the dialog by another one. -/
def showDialog (dialog : String) : Action :=
  raise .newDialog dialog

/-- An action that opens another dialog over the dialog. -/
def spawnDialog (dialog : String) : Action :=
  raise .spawnDialog dialog

/-- An action that ends the dialog with a result. -/
def closeDialog (result : String) : Action :=
  raise .endDialog result

/-- An action that runs a custom action. -/
def execute (name : String) : Action :=
  raise .doAction name

/-- An action that takes over the chosen installation directory. -/
def setTargetPath : Action :=
  raise .setTargetPath "[WIXUI_INSTALLDIR]"

def setProperty (property value : String) : Action :=
  { property := some property, value }

def when (a : Action) (condition : String) : Action :=
  { a with condition }

def withOrder (a : Action) (order : Nat) : Action :=
  { a with order := some order }

/-- The dialog that the action leads to. -/
def destination? (a : Action) : Option String :=
  if a.event.any Event.navigates && !a.value.isEmpty then some a.value else none

end Action

/-- A condition as it is written: without blanks around it, and never empty. -/
def conditionText (condition : String) : String :=
  let text := Text.trim condition
  if text.isEmpty then always else text

end Installer.Dialog
