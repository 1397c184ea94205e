/-!
# JSON values

A value keeps all that a JSON text says: every member of an object in its order, names that come
twice, and numbers by their digits. A string literal that escapes half of a surrogate pair is well
formed but names no text; it stands in a value as `none`.
-/

namespace Installer

/-- A number literal: its sign, the digits before and behind the point, and its exponent. -/
structure Json.Number where
  negative : Bool
  whole : Nat
  fraction : List Nat := []
  exponent : Option Int := none
deriving DecidableEq

/-- A JSON value. -/
inductive Json where
  | null
  | bool (b : Bool)
  | number (n : Json.Number)
  | string (s : Option String)
  | array (items : List Json)
  | object (members : List (Option String × Json))

namespace Json

/-- A string literal that names a text. -/
def text (s : String) : Json :=
  .string (some s)

def int (n : Int) : Json :=
  .number ⟨n < 0, n.natAbs, [], none⟩

def nat (n : Nat) : Json :=
  .number ⟨false, n, [], none⟩

/-- An object whose names are texts. -/
def record (members : List (String × Json)) : Json :=
  .object (members.map fun m => (some m.1, m.2))

def optionalText : Option String → Json
  | some s => text s
  | none => null

def texts (ss : List String) : Json :=
  .array (ss.map text)

namespace Number

/-- The integer that a literal without point and exponent writes. Minus zero writes none. -/
def integer? (n : Number) : Option Int :=
  if n.fraction.isEmpty && n.exponent.isNone && !(n.negative && n.whole == 0) then
    some (if n.negative then -Int.ofNat n.whole else Int.ofNat n.whole)
  else none

/-- A positive number rounded to fifty-three significant bits, a tie to the even neighbour. -/
def roundToDouble (n : Nat) : Nat :=
  let drop := n.log2 - 52
  let unit := 1 <<< drop
  let quotient := n / unit
  let rest := 2 * (n % unit)
  let up := unit < rest || (rest == unit && quotient % 2 == 1)
  (if up then quotient + 1 else quotient) * unit

/-- The least positive number that rounds to no double. -/
def doubleLimit : Nat :=
  (1 <<< 1024) - (1 <<< 970)

/-- The largest number that the significant digits of a literal are gathered in. -/
def maxSignificand : Nat :=
  18446744073709551615

/-- The significand and the decimal exponent gathered from the digits before the point: digits that
no longer fit only raise the exponent. -/
def gatherWhole : Nat × Int → List Nat → Nat × Int
  | acc, [] => acc
  | (m, e), d :: ds =>
      if 10 * m + d ≤ maxSignificand then gatherWhole (10 * m + d, e) ds
      else (m, e + 1 + ds.length)

/-- The significand and the decimal exponent with the digits behind the point: digits from the first
that no longer fits are left out. -/
def gatherFraction : Nat × Int → List Nat → Nat × Int
  | acc, [] => acc
  | (m, e), d :: ds =>
      if 10 * m + d ≤ maxSignificand then gatherFraction (10 * m + d, e - 1) ds else (m, e)

/-- The significand and the decimal exponent of a literal. -/
def scientific (n : Number) : Nat × Int :=
  let digits := (Nat.toDigits 10 n.whole).map fun c => c.toNat - 48
  let (m, e) := gatherFraction (gatherWhole (0, 0) digits) n.fraction
  (m, e + n.exponent.getD 0)

/-- A literal is readable as a double when its significand times its power of ten, each of them
rounded, stays below the limit. -/
def isReadable (n : Number) : Bool :=
  let (m, e) := n.scientific
  m == 0 || e < 0 ||
    (e ≤ 308 && roundToDouble m * roundToDouble (Nat.pow 10 e.toNat) < doubleLimit)

end Number

end Json

end Installer
