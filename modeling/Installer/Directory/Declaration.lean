import Installer.Dialog.Basic
import Installer.Payload.File
import Installer.Payload.Setting
import Installer.Product

/-!
# Declarations

What an author declares: directories with their content, and entities of the product. A directory
may hold directories, files, shortcuts and settings; all else belongs to the product.
-/

namespace Installer.Directory

open Schema

/-- An item of a declaration, over the type of directory declarations. -/
inductive ItemOf (Folder : Type) where
  | directory (d : Folder)
  | file (f : File)
  | files (s : FileSet)
  | shortcut (s : Shortcut)
  | setting (s : Setting)
  | feature (f : Feature)
  | property (p : Property)
  | media (m : Media)
  | dialog (d : Dialog.Definition)

/-- A directory with its content. The path may have several segments; the identifier, the mark of
the installation directory and the content are for the last of them. -/
structure Declaration where
  path : String
  id : Option String := none
  features : List String := []
  attributes : Attributes := .empty
  installDir : Bool := false
  items : List (ItemOf Declaration) := []

abbrev Item := ItemOf Declaration

/-- An item in a place where its type may not stand. -/
structure Misplaced where
  item : String
  container : String
deriving DecidableEq

def Misplaced.message (e : Misplaced) : String :=
  e.item ++ " is not expected to be a child of " ++ e.container

namespace ItemOf

variable {Folder : Type}

def typeName : ItemOf Folder → String
  | .directory _ => "Dir"
  | .file _ => "File"
  | .files _ => "Files"
  | .shortcut _ => "Shortcut"
  | .setting s => s.typeName
  | .feature _ => "Feature"
  | .property _ => "Property"
  | .media _ => "Media"
  | .dialog _ => "Dialog"

def fitsDirectory : ItemOf Folder → Bool
  | .directory _ => true
  | .file _ => true
  | .files _ => true
  | .shortcut _ => true
  | .setting _ => true
  | _ => false

end ItemOf

/-- The first item of a declaration, at any depth, that may not stand in a directory. -/
def Declaration.misplaced? : Declaration → Option Misplaced
  | ⟨_, _, _, _, _, items⟩ => misplacedAmong? items
where
  /-- The first misplaced item among the items of a directory. -/
  misplacedAmong? : List (ItemOf Declaration) → Option Misplaced
    | [] => none
    | .directory d :: items => d.misplaced?.or (misplacedAmong? items)
    | item :: items =>
        if item.fitsDirectory then misplacedAmong? items else some ⟨item.typeName, "Dir"⟩

/-- The first item of a row that may not stand in a directory. -/
abbrev misplacedAmong? : List Item → Option Misplaced :=
  Declaration.misplaced?.misplacedAmong?

end Installer.Directory
