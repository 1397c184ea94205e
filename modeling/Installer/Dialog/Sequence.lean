import Installer.Dialog.Basic

/-!
# Dialog sequences

A sequence collects the actions of controls, addressed by dialog and control, and the definitions of
the dialogs that they mention. Resolving it orders the actions of each control.
-/

namespace Installer.Dialog

open Markup

/-- A dialog addressed by its name or by its definition. -/
inductive Target where
  | named (name : String)
  | defined (d : Definition)
deriving DecidableEq

def Target.id : Target → String
  | .named name => name
  | .defined d => d.id

def Target.definition? : Target → Option Definition
  | .named _ => none
  | .defined d => some d

/-- An action to publish, with the definition of the dialog that it leads to, if that comes with
it. -/
structure Publication where
  action : Action
  definition : Option Definition := none
deriving DecidableEq

/-- An action that leads to a dialog and brings its definition along. -/
def Publication.navigate (event : Event) (t : Target) : Publication :=
  ⟨.raise event t.id, t.definition?⟩

/-- The actions of one control of one dialog, in the order of their publication. -/
structure Entry where
  dialog : String
  control : String
  actions : List Action
deriving DecidableEq

def Entry.isOf (dialog control : String) (e : Entry) : Bool :=
  e.dialog == dialog && e.control == control

/-- Actions by control, and definitions by first mention. In a strict sequence every action has an
order, which puts it before the stock actions of its control. -/
structure Sequence where
  strict : Bool := false
  entries : List Entry := []
  definitions : List Definition := []
deriving DecidableEq

/-- The order that a strict sequence gives to an action without one. -/
def strictOrder : Nat := 5

namespace Sequence

/-- A sequence without actions whose actions all get an order. -/
def emptyStrict : Sequence :=
  { strict := true }

def isEmpty (s : Sequence) : Bool :=
  s.entries.isEmpty && s.definitions.isEmpty

/-- The sequence with a definition, unless it defines that dialog already. -/
def register (s : Sequence) (d : Definition) : Sequence :=
  if s.definitions.any (·.id == d.id) then s else { s with definitions := s.definitions ++ [d] }

def registerAny (s : Sequence) : Option Definition → Sequence
  | some d => s.register d
  | none => s

/-- The action as the sequence keeps it. -/
def stamp (s : Sequence) (a : Action) : Action :=
  if s.strict && a.order.isNone then a.withOrder strictOrder else a

/-- Entries with actions behind those of a control. -/
def append (dialog control : String) (actions : List Action) : List Entry → List Entry
  | [] => [⟨dialog, control, actions⟩]
  | e :: es =>
      if e.isOf dialog control then { e with actions := e.actions ++ actions } :: es
      else e :: append dialog control actions es

/-- The sequence with actions published for a control of a dialog. -/
def on (s : Sequence) (dialog : Target) (control : String) (ps : List Publication) : Sequence :=
  let s := s.registerAny dialog.definition?
  let s := ps.foldl (fun s p => s.registerAny p.definition) s
  { s with entries := append dialog.id control (ps.map fun p => s.stamp p.action) s.entries }

/-- The sequence publishes something for a control. -/
def publishes (s : Sequence) (dialog control : String) : Bool :=
  s.entries.any (Entry.isOf dialog control)

def clear (s : Sequence) (dialog control : String) : Sequence :=
  { s with entries := s.entries.filter fun e => !e.isOf dialog control }

end Sequence

/-- The entry with its actions in order: by their own order, else by their place where there are
several. Equal orders keep their places. -/
def Entry.resolve (e : Entry) : Entry :=
  let several := 1 < e.actions.length
  let resolved := e.actions.zipIdx.map fun (a, i) =>
    { a with
      property := a.property.filter (!·.isEmpty)
      condition := conditionText a.condition
      order := a.order.or (if several then some (i + 1) else none) }
  { e with actions := resolved.mergeSort fun a b => a.order.getD 0 ≤ b.order.getD 0 }

/-- What a sequence comes to: the ordered actions of each control that has any, and the definitions
of the dialogs in the order of their first mention. -/
structure Resolved where
  entries : List Entry
  definitions : List Definition
deriving DecidableEq

/-- The sequence with the actions of each control in order. -/
def Sequence.resolve (s : Sequence) : Resolved :=
  ⟨(s.entries.filter fun e => !e.actions.isEmpty).map Entry.resolve, s.definitions⟩

/-- An action of a control, in place. -/
def Entry.actionElement (e : Entry) (a : Action) : Element :=
  let p := ((Element.named "Publish").set "Dialog" e.dialog).set "Control" e.control
  let p := match a.event with
    | some event => p.set "Event" (Text.Worded.word event)
    | none => p
  let p := if a.value.isEmpty then p else p.set "Value" a.value
  let p := match a.property with
    | some property => p.set "Property" property
    | none => p
  let p := match a.order with
    | some order => p.set "Order" (String.ofList (Text.decimal order))
    | none => p
  p.pushText a.condition

def Entry.elements (e : Entry) : List Element :=
  e.actions.map e.actionElement

def Resolved.entry? (r : Resolved) (dialog control : String) : Option Entry :=
  r.entries.find? (Entry.isOf dialog control)

def Resolved.elements (r : Resolved) : List Element :=
  r.entries.flatMap Entry.elements

end Installer.Dialog
