/-!
# Characters, digits and words

Windows names and identifiers are compared with the letters `A` to `Z` taken as `a` to `z`; all other
characters, accented letters among them, are compared as they are. Names, versions and conditions are
read without the white space around them, which means every character with the Unicode property
`White_Space`, not the six that the type `Char` knows. Numbers are written without leading zeros, and
hexadecimal digits in lower case unless a caller asks for capitals. Some types have a word for each of
their values, the same in manifests and in documents.
-/

namespace Installer.Text

def isLetter (c : Char) : Bool :=
  ('a' ≤ c && c ≤ 'z') || ('A' ≤ c && c ≤ 'Z')

def isDigit (c : Char) : Bool :=
  '0' ≤ c && c ≤ '9'

/-- The letters and digits of ASCII. -/
def isAlphanumeric (c : Char) : Bool :=
  isLetter c || isDigit c

/-- `A` to `Z` as `a` to `z`, all else as it is. -/
def lower (c : Char) : Char :=
  if 'A' ≤ c && c ≤ 'Z' then Char.ofNat (c.toNat + 32) else c

/-- The text with `A` to `Z` as `a` to `z`. -/
def fold (s : String) : String :=
  String.ofList (s.toList.map lower)

/-- Equality without regard to ASCII case. -/
def sameText (a b : String) : Bool :=
  fold a == fold b

theorem sameText_iff {a b : String} : sameText a b = true ↔ fold a = fold b := by
  simp [sameText]

/-- The characters with the Unicode property `White_Space`. -/
def isBlank (c : Char) : Bool :=
  let n := c.toNat
  (0x9 ≤ n && n ≤ 0xD) || n == 0x20 || n == 0x85 || n == 0xA0 || n == 0x1680 ||
    (0x2000 ≤ n && n ≤ 0x200A) || n == 0x2028 || n == 0x2029 || n == 0x202F || n == 0x205F ||
    n == 0x3000

/-- A list without the elements with property `p` at its end. -/
def dropTail (p : Char → Bool) (cs : List Char) : List Char :=
  (cs.reverse.dropWhile p).reverse

/-- A list without the elements with property `p` at either end. -/
def strip (p : Char → Bool) (cs : List Char) : List Char :=
  dropTail p (cs.dropWhile p)

/-- The text without the blanks at either end. -/
def trim (s : String) : String :=
  String.ofList (strip isBlank s.toList)

def digit? (c : Char) : Option Nat :=
  if '0' ≤ c && c ≤ '9' then some (c.toNat - 48) else none

def hexDigit? (c : Char) : Option Nat :=
  if '0' ≤ c && c ≤ '9' then some (c.toNat - 48)
  else if 'a' ≤ c && c ≤ 'f' then some (c.toNat - 87)
  else if 'A' ≤ c && c ≤ 'F' then some (c.toNat - 55)
  else none

/-- The number that the decimal digits write behind `n`, if they are all digits. -/
def decimalFrom : Nat → List Char → Option Nat
  | n, [] => some n
  | n, c :: cs =>
      match digit? c with
      | some d => decimalFrom (10 * n + d) cs
      | none => none

/-- The number that a nonempty row of decimal digits writes. -/
def decimal? : List Char → Option Nat
  | [] => none
  | cs => decimalFrom 0 cs

def decimal (n : Nat) : List Char :=
  Nat.toDigits 10 n

/-- A number in decimal digits, behind a minus sign when it is negative. -/
def integer : Int → List Char
  | .ofNat n => decimal n
  | .negSucc n => '-' :: decimal (n + 1)

/-- A number in hexadecimal digits of lower case. -/
def hex (n : Nat) : List Char :=
  Nat.toDigits 16 n

def hexDigit (n : Nat) : Char :=
  if n < 10 then Char.ofNat (48 + n) else Char.ofNat (87 + n)

def capitalHexDigit (n : Nat) : Char :=
  if n < 10 then Char.ofNat (48 + n) else Char.ofNat (55 + n)

def hexByte (b : UInt8) : List Char :=
  [hexDigit (b.toNat / 16), hexDigit (b.toNat % 16)]

def capitalHexByte (b : UInt8) : List Char :=
  [capitalHexDigit (b.toNat / 16), capitalHexDigit (b.toNat % 16)]

/-- A type whose values are listed and have words of their own. -/
class Worded (α : Type) where
  all : List α
  word : α → String

/-- The value that a word stands for, letter case included. -/
def ofWord? {α : Type} [Worded α] (s : String) : Option α :=
  Worded.all.find? fun a => Worded.word a == s

end Installer.Text
