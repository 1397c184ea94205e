import Installer.Text.Pieces

/-!
# Paths, files and folders

Paths of manifests and documents have segments between slashes. Segments that say nothing, empty ones
and single dots behind the first, are passed over where a path is taken apart, and a path otherwise
keeps its spelling. What can go wrong with reading and writing is found by following a path name by
name, so which of two faults is reported hangs on which stands first.
-/

namespace Installer.CommandLine

/-- A path without its last segment `name`, with the separator in front of it. -/
def splitName (path : List Char) : List Char × List Char :=
  let name := (path.reverse.takeWhile (· != '/')).reverse
  (path.take (path.length - name.length), name)

/-- A name up to the last dot. A dot at the beginning separates nothing. -/
def stem (name : List Char) : List Char :=
  let ending := name.reverse.takeWhile (· != '.')
  if ending.length + 1 < name.length then name.take (name.length - ending.length - 1) else name

/-- The path with another extension, or with one where it had none. A name of two dots and one
extension leaves the two dots when that extension is taken off; they name a folder, and a folder gets
no extension. -/
def withExtension (path extension : String) : String :=
  let (folder, name) := splitName path.toList
  if stem name = ['.'] then String.ofList (folder ++ ['.', '.'])
  else String.ofList (folder ++ stem name ++ '.' :: extension.toList)

/-- A path, in reverse, without the separators and single dots that say nothing at its end. -/
def dropIdle : List Char → List Char
  | '/' :: rest => if rest.isEmpty then ['/'] else dropIdle rest
  | '.' :: '/' :: rest => dropIdle ('/' :: rest)
  | cs => cs

/-- The path without its last segment, or nothing where there is no other segment. -/
def parentPath (path : String) : String :=
  let rest := (dropIdle path.toList.reverse).dropWhile (· != '/')
  String.ofList (dropIdle rest).reverse

/-- Why a file or a folder could not be read or written. -/
inductive FileError where
  | noEntry
  | exists
  | notFolder
  | isFolder
  | nameTooLong
  | other (text : String)
deriving DecidableEq

/-- The wording of a file error, with its number in the system. -/
def FileError.message : FileError → String
  | .noEntry => "No such file or directory (os error 2)"
  | .exists => "File exists (os error 17)"
  | .notFolder => "Not a directory (os error 20)"
  | .isFolder => "Is a directory (os error 21)"
  | .nameTooLong => "File name too long (os error 36)"
  | .other text => text

/-- Where a command reads and writes. -/
structure Host (m : Type → Type) where
  read : String → m (Except FileError String)
  createFolders : String → m (Except FileError Unit)
  write : String → String → m (Except FileError Unit)

/-- Files with their contents, and folders. Each is known by its full path, in which every name stands
behind a separator; the empty path is the root. Relative paths begin in the folder `start`. -/
structure Disk where
  files : List (String × String) := []
  folders : List String := []
  start : String := ""

/-- What a path leads to: a folder on the way that the path itself took, or a name in such a folder,
with or without something behind it. -/
inductive Place where
  | folder
  | entry (path name : String) (asFolder : Bool)
deriving DecidableEq

def pathNames (path : String) : List String :=
  ((Text.splitAt (· == '/') path.toList).filter (!·.isEmpty)).map String.ofList

/-- A full path with one more name. -/
def inFolder (folder name : String) : String :=
  folder ++ "/" ++ name

/-- The full path of the folder around a folder. The root is its own. -/
def outerFolder (folder : String) : String :=
  String.ofList ((folder.toList.reverse.dropWhile (· != '/')).drop 1).reverse

/-- The longest name that a file or a folder can have, in bytes. -/
def maxName : Nat := 255

/-- The longest path that is looked up, in bytes. -/
def maxPath : Nat := 4095

namespace Disk

def isFolder (d : Disk) (path : String) : Bool :=
  path.isEmpty || d.folders.contains path

def content? (d : Disk) (path : String) : Option String :=
  (d.files.find? (·.1 == path)).map (·.2)

/-- The folder in which a path begins. -/
def origin (d : Disk) (path : String) : String :=
  if path.toList.head? = some '/' then "" else d.start

/-- The folder to which names lead from a folder. -/
def walk (d : Disk) (here : String) : List String → Except FileError String
  | [] => .ok here
  | name :: rest =>
      if name == "." then d.walk here rest
      else if name == ".." then d.walk (outerFolder here) rest
      else if maxName < name.utf8ByteSize then .error .nameTooLong
      else if d.isFolder (inFolder here name) then d.walk (inFolder here name) rest
      else if (d.content? (inFolder here name)).isSome then .error .notFolder
      else .error .noEntry

/-- What a path leads to. The empty path leads nowhere. -/
def locate (d : Disk) (path : String) : Except FileError Place :=
  let names := pathNames path
  if path.isEmpty then .error .noEntry
  else if maxPath < path.utf8ByteSize then .error .nameTooLong
  else match names.getLast? with
    | none => .ok .folder
    | some name => do
        let here ← d.walk (d.origin path) names.dropLast
        if name == "." || name == ".." then return .folder
        else return .entry (inFolder here name) name (path.toList.getLast? == some '/')

/-- The content of the file at a path. A file is not read where the path asks for a folder. -/
def read (d : Disk) (path : String) : Except FileError String := do
  match ← d.locate path with
  | .folder => throw .isFolder
  | .entry full name asFolder =>
      if maxName < name.utf8ByteSize then throw .nameTooLong
      if d.isFolder full then throw .isFolder
      match d.content? full with
      | none => throw .noEntry
      | some content => if asFolder then throw .notFolder else return content

/-- The disk with all folders on a way that are missing. As long as nothing is missing, the way is
taken as a whole, and a file on it is no folder to go into. Behind a folder that was made each name is
made by itself, and a file of that name is there before it. What was made before a failure stays. -/
def createAlong (d : Disk) (made : Bool) (here : String) :
    List String → Except FileError Unit × Disk
  | [] => (.ok (), d)
  | name :: rest =>
      if name == ".." then d.createAlong made (outerFolder here) rest
      else if maxName < name.utf8ByteSize then (.error .nameTooLong, d)
      else
        let next := inFolder here name
        if d.isFolder next then d.createAlong made next rest
        else if (d.content? next).isSome then
          (.error (if made || rest.isEmpty then .exists else .notFolder), d)
        else createAlong { d with folders := next :: d.folders } true next rest

/-- The disk with all folders of a path. -/
def createFolders (d : Disk) (path : String) : Except FileError Unit × Disk :=
  if maxPath < path.utf8ByteSize then (.error .nameTooLong, d)
  else d.createAlong false (d.origin path) ((pathNames path).filter (· != "."))

/-- The disk with a file in the place of what was there under its full path. -/
def put (d : Disk) (full content : String) : Disk :=
  { d with files := d.files.filter (·.1 != full) ++ [(full, content)] }

/-- The disk with a file at a path. No file is made where the path asks for a folder. -/
def write (d : Disk) (path content : String) : Except FileError Disk := do
  match ← d.locate path with
  | .folder => throw .isFolder
  | .entry full name asFolder =>
      if asFolder then throw .isFolder
      if maxName < name.utf8ByteSize then throw .nameTooLong
      if d.isFolder full then throw .isFolder
      return d.put full content

/-- The disk as the place where a command reads and writes. -/
def host : Host (StateM Disk) where
  read path := do return (← get).read path
  createFolders path := modifyGet (·.createFolders path)
  write path content := do
    match (← get).write path content with
    | .ok d => set d; return .ok ()
    | .error e => return .error e

end Disk

end Installer.CommandLine
