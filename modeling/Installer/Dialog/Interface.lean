import Installer.Dialog.Sequence

/-!
# User interfaces

The user interface of an installation: its properties, fonts and stock dialogs, and the sequence of
its actions. A project starts from the stock parts, from a whole stock flow, or from nothing.
-/

namespace Installer.Dialog

open Markup Schema

/-- The property that holds the directory which the user may choose. -/
def installDirProperty : String := "WIXUI_INSTALLDIR"

/-- The dialogs that every stock interface refers to. -/
def commonDialogs : List String := [
  "BrowseDlg", "DiskCostDlg", "ErrorDlg", "FatalError", "FilesInUse", "MsiRMFilesInUse",
  "PrepareDlg", "ProgressDlg", "ResumeDlg", "UserExit"]

/-- The order of the action that ends the last dialog. -/
def finishOrder : Nat := 9999

/-- A user interface. Properties keep the order in which they were first set. -/
structure Interface where
  properties : List (String × String) := []
  textStyles : List TextStyle := []
  dialogRefs : List String := []
  sequence : Sequence := {}
  attributes : Attributes := .empty

namespace Interface

/-- The stock properties, fonts and dialogs, with no action. -/
def stock : Interface where
  properties := [
    ("DefaultUIFont", "WixUI_Font_Normal"), (installDirProperty, "INSTALLDIR"),
    ("PIDTemplate", "####-####-####-####"), ("ARPNOMODIFY", "1")]
  textStyles := [
    { id := "WixUI_Font_Normal", faceName := "Tahoma", size := 8 },
    { id := "WixUI_Font_Bigger", faceName := "Tahoma", size := 12 },
    { id := "WixUI_Font_Title", faceName := "Tahoma", size := 9, bold := true }]
  dialogRefs := commonDialogs

/-- An empty strict sequence, to be laid over the stock interface. -/
def dialogSequence : Interface where
  sequence := .emptyStrict

/-- The interface with actions for a control of a dialog. -/
def on (ui : Interface) (dialog : Target) (control : String) (ps : List Publication) : Interface :=
  { ui with sequence := ui.sequence.on dialog control ps }

/-- The interface with actions for controls of named dialogs. -/
def onAll (ui : Interface) (steps : List (String × String × List Action)) : Interface :=
  steps.foldl (fun ui s => ui.on (.named s.1) s.2.1 (s.2.2.map (⟨·, none⟩))) ui

/-- The pages from the last check on, and those of a product that is installed already. -/
def verifyAndMaintain (backFromVerify : String) : List (String × String × List Action) := [
  ("VerifyReadyDlg", "Back", [
    (Action.showDialog backFromVerify).when "NOT Installed",
    (Action.showDialog "MaintenanceTypeDlg").when "Installed"]),
  ("MaintenanceWelcomeDlg", "Next", [.showDialog "MaintenanceTypeDlg"]),
  ("MaintenanceTypeDlg", "Back", [.showDialog "MaintenanceWelcomeDlg"]),
  ("MaintenanceTypeDlg", "RepairButton", [.showDialog "VerifyReadyDlg"]),
  ("MaintenanceTypeDlg", "RemoveButton", [.showDialog "VerifyReadyDlg"])]

/-- The end of the last page. -/
def finish : String × String × List Action :=
  ("ExitDialog", "Finish", [(Action.closeDialog "Return").withOrder finishOrder])

/-- The stock flow: welcome, licence, directory, features, check, and maintenance. -/
def commonFlow : Interface :=
  stock.onAll ([
    ("WelcomeDlg", "Next", [.showDialog "LicenseAgreementDlg"]),
    ("LicenseAgreementDlg", "Back", [.showDialog "WelcomeDlg"]),
    ("LicenseAgreementDlg", "Next", [.showDialog "InstallDirDlg"]),
    ("InstallDirDlg", "Back", [.showDialog "LicenseAgreementDlg"]),
    ("InstallDirDlg", "Next", [.setTargetPath, .showDialog "CustomizeDlg"]),
    ("InstallDirDlg", "ChangeFolder", [
      .setProperty "_BrowseProperty" "[WIXUI_INSTALLDIR]", .spawnDialog "BrowseDlg"]),
    ("CustomizeDlg", "Back", [.showDialog "InstallDirDlg"]),
    ("CustomizeDlg", "Next", [.showDialog "VerifyReadyDlg"])] ++
    verifyAndMaintain "InstallDirDlg" ++ [finish])

/-- The stock flow without the choice of features, and with a dialog behind the licence. -/
def postLicense (d : Definition) : Interface :=
  { stock with sequence := stock.sequence.register d }.onAll ([
    finish,
    ("WelcomeDlg", "Next", [.showDialog "LicenseAgreementDlg"]),
    ("LicenseAgreementDlg", "Back", [.showDialog "WelcomeDlg"]),
    ("LicenseAgreementDlg", "Next", [(Action.showDialog d.id).when "LicenseAccepted = \"1\""]),
    (d.id, "Back", [.showDialog "LicenseAgreementDlg"]),
    (d.id, "Next", [.showDialog "InstallDirDlg"]),
    (d.id, "Cancel", [.closeDialog "Exit"]),
    ("InstallDirDlg", "Back", [.showDialog d.id]),
    ("InstallDirDlg", "Next", [.setTargetPath, .showDialog "VerifyReadyDlg"]),
    ("InstallDirDlg", "ChangeFolder", [
      .setProperty "_BrowseProperty" "[WIXUI_INSTALLDIR]", .showDialog "BrowseDlg"])] ++
    verifyAndMaintain "InstallDirDlg")

/-- The interface with two dialogs chained by `Next` and `Back`, before the stock actions. -/
def link (ui : Interface) (source destination : String) : Interface :=
  ui.onAll [
    (source, "Next", [(Action.showDialog destination).withOrder strictOrder]),
    (destination, "Back", [(Action.showDialog source).withOrder strictOrder])]

def property? (ui : Interface) (name : String) : Option String :=
  (ui.properties.find? (·.1 == name)).map (·.2)

/-- The interface with a property set. A property that is there keeps its place. -/
def setProperty (ui : Interface) (name value : String) : Interface :=
  { ui with properties := setAttribute name value ui.properties }

/-- The interface with the property of the chosen directory set, if it has that property. -/
def bindInstallDir (ui : Interface) (id : String) : Interface :=
  if (ui.property? installDirProperty).isSome then ui.setProperty installDirProperty id else ui

def propertyElement (p : String × String) : Element :=
  ((Element.named "Property").set "Id" p.1).set "Value" p.2

/-- A stock dialog that the interface refers to. -/
def dialogRefElement (id : String) : Element :=
  (Element.named "DialogRef").set "Id" id

/-- The whole interface: fonts, properties, stock dialogs, actions and definitions. -/
def emit (ui : Interface) : Emit Element := do
  let styles ← ui.textStyles.mapM TextStyle.schema.emit
  let resolved := ui.sequence.resolve
  let dialogs ← resolved.definitions.mapM Definition.emit
  return ((Element.named "UI").setAll ui.attributes.own).pushAll
    (styles.map (·.element) ++ ui.properties.map propertyElement ++
      ui.dialogRefs.map dialogRefElement ++ resolved.elements ++ dialogs)

end Interface

end Installer.Dialog
