import Installer.Dialog.Action
import Installer.Schema.Basic

/-!
# Dialogs

A dialog is a window with controls. A control may carry actions and conditions of its own. Text
styles are the fonts that dialogs use.
-/

namespace Installer.Dialog

open Markup Schema

inductive ConditionAction where
  | default
  | disable
  | enable
  | hide
  | show
deriving DecidableEq, Inhabited

instance : Text.Worded ConditionAction where
  all := [.default, .disable, .enable, .hide, .show]
  word
    | .default => "default"
    | .disable => "disable"
    | .enable => "enable"
    | .hide => "hide"
    | .show => "show"

structure ControlCondition where
  action : ConditionAction
  expression : String
deriving DecidableEq, Inhabited

structure Control where
  id : String
  type : String
  x : Nat := 0
  y : Nat := 0
  width : Nat := 0
  height : Nat := 0
  text : Option String := none
  property : Option String := none
  tooltip : Option String := none
  hidden : Bool := false
  disabled : Bool := false
  actions : List Action := []
  conditions : List ControlCondition := []
  attributes : Attributes := .empty
deriving DecidableEq, Inhabited

structure Definition where
  id : String
  width : Nat := 0
  height : Nat := 0
  title : String := ""
  controls : List Control := []
  attributes : Attributes := .empty
deriving DecidableEq, Inhabited

/-- A font under the name of a text style. -/
structure TextStyle where
  id : String
  faceName : String
  size : Nat
  bold : Bool := false
  italic : Bool := false
  strike : Bool := false
  underline : Bool := false
  attributes : Attributes := .empty
deriving DecidableEq, Inhabited

/-- A natural number as a value. -/
def natValue (n : Nat) : Value :=
  .number (Int.ofNat n)

/-- A flag that is written only when it is on. -/
def onlyOn (b : Bool) : Option Value :=
  if b then some (.flag true) else none

namespace Control

/-- How a control is written, without its actions and conditions. -/
def schema : Schema Control where
  element := "Control"
  fields := [
    .required "Id" fun c => some (.text c.id),
    .optional "Width" fun c => some (natValue c.width),
    .optional "Height" fun c => some (natValue c.height),
    .optional "X" fun c => some (natValue c.x),
    .optional "Y" fun c => some (natValue c.y),
    .required "Type" fun c => some (.text c.type),
    .optional "Property" fun c => c.property.map .text,
    .optional "Hidden" fun c => onlyOn c.hidden,
    .optional "Disabled" fun c => onlyOn c.disabled,
    .optional "ToolTip" fun c => c.tooltip.map .text,
    (Field.optional "Text" fun c =>
      (c.text.filter (!·.isEmpty)).map fun t =>
        .elements [(Element.named "Text").pushText t]).asChildren]
  attributes := (·.attributes)

/-- An action of the control, ordered by its place among them. -/
def actionElement (a : Action) (index : Nat) : Element :=
  let e := Element.named "Publish"
  let e := match a.event with
    | some event => e.set "Event" (Text.Worded.word event)
    | none => e
  let e := match a.property.filter (!·.isEmpty) with
    | some property => e.set "Property" property
    | none => e
  ((e.set "Value" a.value).set "Order" (String.ofList (Text.decimal (index + 1)))).pushText
    (conditionText a.condition)

def conditionElement (c : ControlCondition) : Element :=
  ((Element.named "Condition").set "Action" (Text.Worded.word c.action)).pushText c.expression

def emit (c : Control) : Emit Element := do
  let p ← schema.emit c
  return (p.element.pushAll (c.actions.zipIdx.map fun a => actionElement a.1 a.2)).pushAll
    (c.conditions.map conditionElement)

end Control

namespace Definition

def schema : Schema Definition where
  element := "Dialog"
  fields := [
    .required "Id" fun d => some (.text d.id),
    .optional "Width" fun d => some (natValue d.width),
    .optional "Height" fun d => some (natValue d.height),
    .optional "Title" fun d => some (.text d.title)]
  attributes := (·.attributes)

def emit (d : Definition) : Emit Element := do
  let p ← schema.emit d
  let controls ← d.controls.mapM Control.emit
  return p.element.pushAll controls

end Definition

def TextStyle.schema : Schema TextStyle where
  element := "TextStyle"
  fields := [
    .required "Id" fun s => some (.text s.id),
    .required "FaceName" fun s => some (.text s.faceName),
    .required "Size" fun s => some (natValue s.size),
    .optional "Bold" fun s => some (.flag s.bold),
    .optional "Italic" fun s => some (.flag s.italic),
    .optional "Strike" fun s => some (.flag s.strike),
    .optional "Underline" fun s => some (.flag s.underline)]
  attributes := (·.attributes)

end Installer.Dialog
