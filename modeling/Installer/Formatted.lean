import Installer.Identifier.Folder

/-!
# Formatted texts

A formatted text refers to installer properties by their names in brackets. Authors may write
`%NAME%` for such a reference. The value of a property ends in a separator, so a separator right
behind a reference is dropped.
-/

namespace Installer.Formatted

open Text Identifier

def isNameChar (c : Char) : Bool :=
  isAlphanumeric c || c == '_'

/-- The name of a placeholder whose opening percent sign stands right before `cs`. -/
def placeholderName? (cs : List Char) : Option (List Char) :=
  let name := cs.takeWhile isNameChar
  if !name.isEmpty && cs[name.length]? == some '%' then some name else none

/-- The reference that `%NAME%` stands for: a special folder by its identifier, else the name. -/
def reference (name : List Char) : List Char :=
  bracketed ((specialFolder? (String.ofList ('%' :: name ++ ['%']))).elim name String.toList)

/-- The text behind its first `skip` characters with every placeholder as a reference. -/
def referencesFrom : Nat → List Char → List Char
  | _, [] => []
  | skip + 1, _ :: cs => referencesFrom skip cs
  | 0, c :: cs =>
      if c == '%' then
        match placeholderName? cs with
        | some name => reference name ++ referencesFrom (name.length + 1) cs
        | none => c :: referencesFrom 0 cs
      else c :: referencesFrom 0 cs

/-- The text with placeholders as references and no separator right behind a reference. -/
def normalizeChars (cs : List Char) : List Char :=
  replaceAll [']', '/'] [']'] (replaceAll [']', '\\'] [']'] (referencesFrom 0 cs))

/-- The text with placeholders as references and no separator right behind a reference. -/
def normalize (s : String) : String :=
  String.ofList (normalizeChars s.toList)

end Installer.Formatted
