import Installer.Identifier.Allocator
import Installer.Schema.Attributes
import Installer.Schema.Field

/-!
# Schemas

A schema says how the entities of one type are written as elements: the fields in their order, then
the identifier before all other attributes, then the verbatim attributes over everything. An entity
that lacks a required field is not written, and no identifier is used up for it.
-/

namespace Installer

open Identifier Markup

/-- What the identifier of an entity is made from. -/
structure Schema.Identity where
  kind : Kind
  source : String
  explicit : Option String

/-- How the entities of a type are written. -/
structure Schema (α : Type) where
  element : String
  fields : List (Schema.Field α)
  attributes : α → Schema.Attributes
  identity : α → Option Schema.Identity := fun _ => none

namespace Schema

/-- A required field of an element has no value. -/
structure MissingValue where
  field : String
  element : String
deriving DecidableEq

def MissingValue.message (e : MissingValue) : String :=
  "required field `" ++ e.field ++ "` of " ++ e.element ++ " has no value"

/-- An entity's element, and what the entity asks of the component around it. -/
structure Written where
  element : Element
  componentAttributes : List (String × String)

variable {α : Type}

/-- The first required field without a value. -/
def missing? (s : Schema α) (x : α) : Option MissingValue :=
  (s.fields.find? (·.isMissing x)).map fun f => ⟨f.name, s.element⟩

/-- The element with the fields of an entity and nothing else. -/
def fieldsElement (s : Schema α) (x : α) : Element :=
  s.fields.foldl (fun e f => f.write x e) (Element.named s.element)

/-- An entity's slot before anything was generated for it. -/
def slot (s : Schema α) (x : α) : Slot :=
  Slot.ofExplicit ((s.identity x).bind (·.explicit))

/-- The identifier of an entity that has one. -/
def resolve (s : Schema α) (x : α) (slot : Slot) (ids : Allocator) :
    Option String × Slot × Allocator :=
  match s.identity x with
  | none => (none, slot, ids)
  | some i => let (id, slot, ids) := slot.resolve i.kind i.source ids; (some id, slot, ids)

/-- The element of an entity whose identifier is known. -/
def complete (s : Schema α) (x : α) (id : Option String) : Written :=
  let e := s.fieldsElement x
  let e := match id with
    | some id => e.setFirst "Id" id
    | none => e
  ⟨e.setAll (s.attributes x).own, (s.attributes x).component⟩

/-- An entity as an element. The identifier is taken last, so a failure leaves slot and allocator as
they were. -/
def write (s : Schema α) (x : α) (slot : Slot) (ids : Allocator) :
    Except MissingValue Written × Slot × Allocator :=
  match s.missing? x with
  | some e => (.error e, slot, ids)
  | none =>
      let (id, slot, ids) := s.resolve x slot ids
      (.ok (s.complete x id), slot, ids)

/-- A step that takes identifiers from an allocator and stops at a missing value. -/
abbrev Emit := StateT Allocator (Except MissingValue)

/-- An entity as an element, with an identifier from the allocator at hand. -/
def emit (s : Schema α) (x : α) : Emit Written := fun ids =>
  match s.write x (s.slot x) ids with
  | (.error e, _, _) => .error e
  | (.ok p, _, ids) => .ok (p, ids)

end Schema

end Installer
