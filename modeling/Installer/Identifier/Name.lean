import Installer.Identifier.Folder
import Installer.Text.Basic

/-!
# Identifiers from names

A generated identifier is made of the entity's name. It holds only letters, digits, `.` and `_`; it
begins with a letter or `_` and never ends in a digit, so that a counter can be put behind it.
-/

namespace Installer.Identifier

inductive Kind where
  | directory
  | file
  | fileCollection
  | component
  | feature
  | shortcut
  | property
  | registryValue
  | environmentVariable
  | closeApplication
  | media
deriving DecidableEq

/-- The name of a kind, from which a nameless entity takes its identifier. -/
def Kind.typeName : Kind → String
  | .directory => "Dir"
  | .file => "File"
  | .fileCollection => "Files"
  | .component => "Component"
  | .feature => "Feature"
  | .shortcut => "Shortcut"
  | .property => "Property"
  | .registryValue => "RegValue"
  | .environmentVariable => "EnvironmentVariable"
  | .closeApplication => "CloseApplication"
  | .media => "Media"

/-- The characters between which a path has its segments. -/
def isSeparator (c : Char) : Bool :=
  c == '\\' || c == '/'

def isRootedChars : List Char → Bool
  | c :: d :: _ => isSeparator c || (Text.isLetter c && d == ':')
  | [c] => isSeparator c
  | [] => false

/-- A path that begins with a separator or with a drive letter and a colon. -/
def isRooted (path : String) : Bool :=
  isRootedChars path.toList

def fileNameChars (path : List Char) : List Char :=
  (((Text.splitAt isSeparator path).filter (!·.isEmpty)).getLast?).getD []

/-- The last nonempty segment of a path, or the empty text. -/
def fileName (path : String) : String :=
  String.ofList (fileNameChars path.toList)

/-- A character that may stand in an identifier as it is. -/
def isPlain (c : Char) : Bool :=
  Text.isAlphanumeric c || c == '.' || c == '_'

/-- Characters that may not stand in an identifier, written as hexadecimal code points. -/
def escape (cs : List Char) : List Char :=
  cs.flatMap fun c => if isPlain c then [c] else Text.hex c.toNat

/-- `_` in front of a leading dot and, if asked for, of a leading digit. The dot gives way to the
underscore when digits are left alone. -/
def guardHead (guardDigit : Bool) : List Char → List Char
  | [] => []
  | c :: cs =>
      if guardDigit && (Text.isDigit c || c == '.') then '_' :: c :: cs
      else if c == '.' then '_' :: cs
      else c :: cs

def expandChars (guardDigit : Bool) (path : List Char) : List Char :=
  guardHead guardDigit (escape ((expandFolders path).map fun c => if c == '\\' then '.' else c))

/-- A path as part of an identifier: folders expanded, backslashes as dots, all else escaped. -/
def expand (guardDigit : Bool) (path : String) : String :=
  String.ofList (expandChars guardDigit path.toList)

/-- How many characters of a long name an identifier keeps. -/
def maxLength : Nat := 30

/-- A long name reduced to its last characters behind a mark of what was left out. -/
def shorten (cs : List Char) : List Char :=
  if cs.length > maxLength then '_' :: '.' :: '.' :: '.' :: cs.drop (cs.length - maxLength) else cs

/-- `_` behind a trailing digit. -/
def guardTail (cs : List Char) : List Char :=
  if cs.getLast?.any Text.isDigit then cs ++ ['_'] else cs

/-- The part of a name that identifies: a directory's whole path, else the last segment. -/
def essential (kind : Kind) (name : List Char) : List Char :=
  if kind != .directory || isRootedChars name then fileNameChars name else name

def candidateChars (kind : Kind) (raw : List Char) : List Char :=
  let name := essential kind (Text.strip Text.isBlank raw)
  let expanded := expandChars true (if name.isEmpty then kind.typeName.toList else name)
  guardTail (if kind == .directory then expanded else shorten expanded)

/-- The identifier that an entity of the given kind and name asks for. -/
def candidate (kind : Kind) (raw : String) : String :=
  String.ofList (candidateChars kind raw.toList)

end Installer.Identifier
