import Installer.Digest.Guid
import Installer.Markup.Element
import Installer.Payload.Setting

/-!
# Components and the placing of settings

A component is what is installed or removed as one. It holds an item that keeps it alive, has an
identifier that is the same in every build, and belongs to features. Settings are placed one after the
other. A registry value and an environment variable get a component each; the closing of an application
goes right below the enclosing element. A setting that cannot be written leaves no trace.
-/

namespace Installer

open Markup Schema Identifier

/-- A component and the features that it was declared for. -/
structure ComponentRef where
  id : String
  features : List String
deriving DecidableEq

namespace Component

/-- A component with its identifiers and nothing in it. -/
def element (seed id : String) : Element :=
  ((Element.named "Component").set "Id" id).set "Guid" (Digest.Guid.stable seed id)

/-- The identifier of the component around an item. -/
def idFor (item : String) : String :=
  "Component." ++ item

end Component

/-- What placing settings has produced: components, elements for the enclosing element, and the
components' features. Between two settings no element and no component attribute is at hand. -/
structure Placement where
  current : Option Element := none
  pending : List (String × String) := []
  componentId : Option String := none
  components : List Element := []
  parentElements : List Element := []
  refs : List ComponentRef := []
  usesUtil : Bool := false

namespace Placement

/-- The placement with a setting's element and its wishes for the component at hand. -/
def take (p : Placement) (written : Written) : Placement :=
  { p with current := some written.element, pending := written.componentAttributes }

/-- The placement with one more wish for the component. -/
def request (p : Placement) (name value : String) : Placement :=
  { p with pending := p.pending ++ [(name, value)] }

/-- The placement with nothing at hand. -/
def release (p : Placement) : Placement :=
  { p with current := none, pending := [] }

/-- The placement with a new component around elements. -/
def addComponent (p : Placement) (seed item : String) (features : List String)
    (content : List Element) : Placement :=
  let id := Component.idFor item
  { p with
    componentId := some id
    components := p.components ++ [((Component.element seed id).setAll p.pending).pushAll content]
    refs := p.refs ++ [⟨id, features⟩] }

def requestWidth (p : Placement) : Option Bool → Placement
  | some true => p.request "Win64" "yes"
  | some false => p.request "Win64" "no"
  | none => p

/-- The element of a component's condition, if there is one. -/
def conditionElements : Option String → List Element
  | some c => if c.isEmpty then [] else [(Element.named "Condition").pushCData c]
  | none => []

/-- The placement with the element at hand in its place. -/
def place (p : Placement) (seed : String) (s : Setting) : Placement :=
  match s, p.current with
  | .registry r, some e =>
      (p.requestWidth r.win64).addComponent seed ((e.get? "Id").getD r.key) r.features [e]
  | .environment v, some e =>
      p.addComponent seed ((e.get? "Id").getD v.name) v.features (e :: conditionElements v.condition)
  | .closeApplication _, some e =>
      { p with usesUtil := true, parentElements := p.parentElements ++ [e] }
  | .closeApplication _, none => { p with usesUtil := true }
  | _, none => p

/-- One more setting placed. After a failure the placement and the allocator are as before. -/
def process (p : Placement) (seed : String) (s : Setting) (ids : Allocator) :
    Except MissingValue Unit × Placement × Allocator :=
  match s.emit ids with
  | .error e => (.error e, p, ids)
  | .ok (written, ids) => (.ok (), ((p.take written).place seed s).release, ids)

/-- A row of settings placed, up to the first that cannot be written. -/
def processAll (p : Placement) (seed : String) : List Setting → Emit Placement
  | [] => pure p
  | s :: ss => fun ids =>
      match p.process seed s ids with
      | (.error e, _, _) => .error e
      | (.ok _, p, ids) => p.processAll seed ss ids

end Placement

end Installer
