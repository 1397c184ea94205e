import Installer.Json.Token

/-!
# Reading a JSON text

Values are put together token by token. Arrays and objects that are still open wait on a stack, so a
text may nest as deep as it likes.
-/

namespace Installer.Json

/-- An array or an object with a value missing. What it has so far is held in reverse. -/
inductive Frame where
  | array (before : List Json)
  | object (before : List (Option String × Json)) (name : Option String)

/-- What has to come next: a value, a first value or the end of the array, a first name or the end
of the object, a name, a colon, or what may follow a value. -/
inductive Expectation where
  | value
  | firstValue
  | firstName
  | name (before : List (Option String × Json))
  | colon (before : List (Option String × Json)) (name : Option String)
  | afterValue (value : Json)

/-- A reading: what comes next, and what is still open, the innermost first. -/
structure Reading where
  expect : Expectation
  stack : List Frame

/-- The token in a place where a value must come. -/
def beginValue (t : Token) (stack : List Frame) : Option Reading :=
  match t with
  | .openArray => some ⟨.firstValue, stack⟩
  | .openObject => some ⟨.firstName, stack⟩
  | .null => some ⟨.afterValue .null, stack⟩
  | .bool b => some ⟨.afterValue (.bool b), stack⟩
  | .number n => some ⟨.afterValue (.number n), stack⟩
  | .string s => some ⟨.afterValue (.string s), stack⟩
  | _ => none

/-- The reading after one more token. -/
def Reading.step (r : Reading) (t : Token) : Option Reading :=
  match r.expect, t, r.stack with
  | .value, t, stack => beginValue t stack
  | .firstValue, .closeArray, stack => some ⟨.afterValue (.array []), stack⟩
  | .firstValue, t, stack => beginValue t (.array [] :: stack)
  | .firstName, .closeObject, stack => some ⟨.afterValue (.object []), stack⟩
  | .firstName, .string s, stack => some ⟨.colon [] s, stack⟩
  | .name before, .string s, stack => some ⟨.colon before s, stack⟩
  | .colon before name, .colon, stack => some ⟨.value, .object before name :: stack⟩
  | .afterValue j, .comma, .array before :: stack => some ⟨.value, .array (j :: before) :: stack⟩
  | .afterValue j, .closeArray, .array before :: stack =>
      some ⟨.afterValue (.array (j :: before).reverse), stack⟩
  | .afterValue j, .comma, .object before name :: stack => some ⟨.name ((name, j) :: before), stack⟩
  | .afterValue j, .closeObject, .object before name :: stack =>
      some ⟨.afterValue (.object ((name, j) :: before).reverse), stack⟩
  | _, _, _ => none

def Reading.run (r : Reading) : List Token → Option Reading
  | [] => some r
  | t :: ts => (r.step t).bind (·.run ts)

/-- The value of a finished reading. -/
def Reading.result? (r : Reading) : Option Json :=
  match r.expect, r.stack with
  | .afterValue j, [] => some j
  | _, _ => none

def ofTokens? (ts : List Token) : Option Json :=
  ((Reading.mk .value []).run ts).bind Reading.result?

def read? (s : String) : Option Json :=
  (tokens s.toList).bind ofTokens?

end Installer.Json
