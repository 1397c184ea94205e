import Installer.Digest.Sha
import Installer.Text.Basic
import Installer.Text.Casing

/-!
# Globally unique identifiers

A component keeps its identity across builds because its identifier is a function of a project seed
and of the component's name: the name-based identifiers of version 5. A seed that spells an
identifier is the namespace itself; any other seed names a namespace of its own.
-/

namespace Installer.Digest

/-- The sixteen bytes of a globally unique identifier. -/
structure Guid where
  bytes : List UInt8
deriving DecidableEq

namespace Guid

/-- The namespace of object identifiers, in which other namespaces are named. -/
def objectNamespace : Guid :=
  ⟨[0x6b, 0xa7, 0xb8, 0x12, 0x9d, 0xad, 0x11, 0xd1, 0x80, 0xb4, 0x00, 0xc0, 0x4f, 0xd4, 0x30, 0xc8]⟩

def readBytes : List Char → Option (List UInt8)
  | [] => some []
  | [_] => none
  | hi :: lo :: rest => do
      let h ← Text.hexDigit? hi
      let l ← Text.hexDigit? lo
      let bytes ← readBytes rest
      return UInt8.ofNat (16 * h + l) :: bytes

def readPlain (cs : List Char) : Option Guid :=
  if cs.length = 32 then (readBytes cs).map Guid.mk else none

/-- Groups of 8, 4, 4, 4 and 12 hexadecimal digits with hyphens between them. -/
def readHyphenated (cs : List Char) : Option Guid :=
  let hyphenAt (i : Nat) : Bool := cs[i]? == some '-'
  if cs.length = 36 && hyphenAt 8 && hyphenAt 13 && hyphenAt 18 && hyphenAt 23 then
    readPlain (cs.take 8 ++ (cs.drop 9).take 4 ++ (cs.drop 14).take 4 ++ (cs.drop 19).take 4 ++
      cs.drop 24)
  else none

/-- The letters of the resource name under which identifiers are registered. -/
def resourceName : List Char := ['u', 'r', 'n', ':', 'u', 'u', 'i', 'd', ':']

/-- The identifier that a text spells: plain, hyphenated, or hyphenated behind its resource name, in
any letter case. -/
def read (cs : List Char) : Option Guid :=
  if cs.length = 45 && (cs.take 9).map Text.lower == resourceName then readHyphenated (cs.drop 9)
  else (readPlain cs).or (readHyphenated cs)

/-- Sixteen bytes of a hash, with the version and the variant written into them. -/
def stamp (hash : List UInt8) : Guid :=
  ⟨((hash.take 16).modify 6 fun b => (b &&& 0x0f) ||| 0x50).modify 8 fun b => (b &&& 0x3f) ||| 0x80⟩

def named (space : Guid) (name : String) : Guid :=
  stamp (Sha1.hash (space.bytes ++ utf8 name))

/-- The hyphenated form in capital digits. -/
def text (g : Guid) : String :=
  let digits := g.bytes.flatMap Text.capitalHexByte
  String.ofList (digits.take 8 ++ '-' :: (digits.drop 8).take 4 ++ '-' :: (digits.drop 12).take 4 ++
    '-' :: (digits.drop 16).take 4 ++ '-' :: digits.drop 20)

/-- Braces around an identifier are not part of it. -/
def isBrace (c : Char) : Bool :=
  c == '\x7b' || c == '\x7d'

def ofSeed (seed : String) : Guid :=
  (read (Text.strip isBrace seed.toList)).getD (named objectNamespace (Text.lowercase seed))

/-- The identifier of `name` under a project seed, the same in every build. -/
def stable (seed name : String) : String :=
  (named (ofSeed seed) name).text

end Guid

end Installer.Digest
