import Installer.Text.Basic
import Installer.Text.Pieces

/-!
# Versions

A product version is one to four numbers below 2³² with dots between them. Versions are ordered by
the first number in which they differ; a version that another one continues is smaller.
-/

namespace Installer

/-- The numbers of a version, the most significant first. -/
structure Version where
  parts : List Nat
deriving DecidableEq

namespace Version

/-- The version of a product that states none. -/
def initial : Version :=
  ⟨[1, 0, 0, 0]⟩

/-- A text that is no version, as it was given. -/
structure Invalid where
  text : String
deriving DecidableEq

def Invalid.message (e : Invalid) : String :=
  "invalid version `" ++ e.text ++ "`: expected one to four dot separated numbers"

/-- The digits of a field, whose sign may be a plus. -/
def unsigned : List Char → List Char
  | '+' :: cs => cs
  | cs => cs

/-- Two to the power of thirty-two, which no field reaches. -/
def fieldLimit : Nat := 4294967296

/-- The number in a field, if it is below the limit. -/
def field? (cs : List Char) : Option Nat :=
  (Text.decimal? (unsigned cs)).filter (· < fieldLimit)

/-- The numbers between the dots, blanks around the whole left aside. -/
def fields? (cs : List Char) : Option (List Nat) :=
  (Text.splitAt (· == '.') (Text.strip Text.isBlank cs)).mapM field?

/-- The version that a text spells. -/
def parse (s : String) : Except Invalid Version :=
  match fields? s.toList with
  | some parts => if parts.length ≤ 4 then .ok ⟨parts⟩ else .error ⟨s⟩
  | none => .error ⟨s⟩

/-- The numbers with dots between them. -/
def text (v : Version) : String :=
  String.ofList (Text.joinWith ['.'] (v.parts.map Text.decimal))

def compareParts : List Nat → List Nat → Ordering
  | [], [] => .eq
  | [], _ :: _ => .lt
  | _ :: _, [] => .gt
  | a :: as, b :: bs => (compare a b).then (compareParts as bs)

def compare (v w : Version) : Ordering :=
  compareParts v.parts w.parts

end Version

end Installer
