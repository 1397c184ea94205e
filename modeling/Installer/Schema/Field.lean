import Installer.Markup.Element
import Installer.Version

/-!
# Fields

How one field of an entity is written: under which name, whether it has to be there, and whether it
becomes an attribute, a text or a row of elements.
-/

namespace Installer.Schema

open Markup

/-- What a field holds. -/
inductive Value where
  | text (s : String)
  | flag (b : Bool)
  | number (n : Int)
  | version (v : Version)
  | word (s : String)
  | elements (es : List Element)

namespace Value

/-- An empty text and an empty row of elements count as no value. -/
def isAbsent : Value → Bool
  | .text s => s.isEmpty
  | .elements es => es.isEmpty
  | _ => false

def written : Value → String
  | .text s => s
  | .flag true => "yes"
  | .flag false => "no"
  | .number n => String.ofList (Text.integer n)
  | .version v => v.text
  | .word s => s
  | .elements _ => ""

end Value

/-- Whether a field has to be there. A field with a usual value is left out when it has that. -/
inductive Presence where
  | required
  | optional
  | unless (usual : String)
deriving DecidableEq

/-- What becomes of a field's value. -/
inductive Role where
  | asAttribute
  | asText
  | asChildren
deriving DecidableEq

/-- One field of an entity. The name is for messages, the target for the document. -/
structure Field (α : Type) where
  name : String
  target : String
  presence : Presence
  role : Role
  value : α → Option Value

namespace Field

variable {α : Type}

def required (name : String) (value : α → Option Value) : Field α :=
  ⟨name, name, .required, .asAttribute, value⟩

def optional (name : String) (value : α → Option Value) : Field α :=
  ⟨name, name, .optional, .asAttribute, value⟩

/-- An attribute that is left out when it has its usual value. -/
def withUsual (name usual : String) (value : α → Option Value) : Field α :=
  ⟨name, name, .unless usual, .asAttribute, value⟩

def renamed (f : Field α) (target : String) : Field α :=
  { f with target }

/-- The field as a text of the element. -/
def asText (f : Field α) : Field α :=
  { f with role := .asText }

/-- The field as elements right below the element. -/
def asChildren (f : Field α) : Field α :=
  { f with role := .asChildren }

/-- The value to write, if there is one. -/
def value? (f : Field α) (x : α) : Option Value :=
  (f.value x).filter (!·.isAbsent)

def isMissing (f : Field α) (x : α) : Bool :=
  f.presence == .required && (f.value? x).isNone

/-- The element with the field written into it. -/
def write (f : Field α) (x : α) (e : Element) : Element :=
  match f.value? x with
  | none => e
  | some (.elements es) => e.pushAll es
  | some v =>
      if f.presence = .unless v.written then e
      else match f.role with
        | .asText => e.pushText v.written
        | _ => e.set f.target v.written

end Field

end Installer.Schema
