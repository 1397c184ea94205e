import Installer.Json.Basic
import Installer.Schema.Attributes
import Installer.Text.Basic

/-!
# Taking values apart

A decoder takes the value it wants or nothing. Where arrays and objects may come, a number says how
deep they may still nest in what is read; what is passed over may nest as deep as it likes. A record
is read from an object, in which unknown names are passed over and known ones may come once, or from
an array of its fields in their order, which may end early.
-/

namespace Installer.Json

open Schema

/-- Takes a value of some type, or refuses. -/
abbrev Decoder (α : Type) := Json → Option α

namespace Decoder

def text : Decoder String
  | .string s => s
  | _ => none

def bool : Decoder Bool
  | .bool b => some b
  | _ => none

def between (lo hi : Int) : Decoder Int
  | .number n => n.integer?.filter fun i => lo ≤ i && i ≤ hi
  | _ => none

def int64 : Decoder Int :=
  between (-9223372036854775808) 9223372036854775807

def nat32 : Decoder Nat := fun j =>
  (between 0 4294967295 j).map Int.toNat

/-- Nothing for `null`, else a value. -/
def nullable {α : Type} (value : Decoder α) : Decoder (Option α)
  | .null => some none
  | j => (value j).map some

/-- A list of values, which nest one level deeper than the list. -/
def list {α : Type} (item : Nat → Decoder α) : Nat → Decoder (List α)
  | depth + 1, .array js => js.mapM (item depth)
  | _, _ => none

def texts : Nat → Decoder (List String) :=
  list fun _ => text

def textMember (m : Option String × Json) : Option (String × String) := do
  let name ← m.1
  let value ← text m.2
  return (name, value)

/-- A mapping of names to texts, of which the last of a name counts. -/
def mapping : Nat → Decoder Attributes
  | _ + 1, .object ms => (ms.mapM textMember).map Attributes.ofList
  | _, _ => none

/-- A word of a closed set, or an object that has the word as its one name and `null` under it.
Where asked for, an empty object may stand for the `null`. -/
def word {α : Type} [Text.Worded α] (emptyObject : Bool) : Nat → Decoder α
  | _, .string (some s) => Text.ofWord? s
  | _ + 1, .object [(some s, .null)] => Text.ofWord? s
  | _ + 1, .object [(some s, .object [])] => if emptyObject then Text.ofWord? s else none
  | _, _ => none

end Decoder

/-- The values under the names of a record. -/
abbrev Fields := List (String × Json)

namespace Fields

def get? (fs : Fields) (name : String) : Option Json :=
  (fs.find? (·.1 == name)).map (·.2)

def required {α : Type} (fs : Fields) (name : String) (d : Decoder α) : Option α :=
  (fs.get? name).bind d

def withDefault {α : Type} (fs : Fields) (name : String) (d : Decoder α) (absent : α) : Option α :=
  match fs.get? name with
  | none => some absent
  | some j => d j

/-- A field that may be missing or `null`. -/
def optional {α : Type} (fs : Fields) (name : String) (d : Decoder α) : Option (Option α) :=
  fs.withDefault name d.nullable none

end Fields

/-- The members of an object with known names. None is known twice, and every name is a text. -/
def knownMembers? (names : List String) (ms : List (Option String × Json)) : Option Fields := do
  let all ← ms.mapM fun m => m.1.map (·, m.2)
  let known := all.filter fun m => m.1 ∈ names
  if (known.map (·.1)).Nodup then return known else none

/-- The fields of a record with the given names. -/
def fields? (names : List String) : Json → Option Fields
  | .object ms => knownMembers? names ms
  | .array js => if js.length ≤ names.length then some (names.zip js) else none
  | _ => none

/-- A record with the given names. The fields nest one level deeper than the record. -/
def Decoder.record {α : Type} (names : List String) (build : Nat → Fields → Option α) :
    Nat → Decoder α
  | depth + 1, j => (fields? names j).bind (build depth)
  | _, _ => none

/-- A value that can be taken up before its meaning is known: no array or object nests too deep in
it, every string literal names a text, and every number is readable. -/
def isReadable : Nat → Json → Bool
  | _, .null => true
  | _, .bool _ => true
  | _, .number n => n.isReadable
  | _, .string s => s.isSome
  | 0, _ => false
  | depth + 1, .array js => readableItems depth js
  | depth + 1, .object ms => readableMembers depth ms
where
  readableItems (depth : Nat) : List Json → Bool
    | [] => true
    | j :: js => isReadable depth j && readableItems depth js
  readableMembers (depth : Nat) : List (Option String × Json) → Bool
    | [] => true
    | (name, j) :: ms => name.isSome && isReadable depth j && readableMembers depth ms

/-- An object of the members that are there. -/
def present (ms : List (String × Option Json)) : Json :=
  record (ms.filterMap fun m => m.2.map (m.1, ·))

def mapping (as : Attributes) : Json :=
  record (as.entries.map fun a => (a.1, text a.2))

def word {α : Type} [Text.Worded α] (a : α) : Json :=
  text (Text.Worded.word a)

end Installer.Json
