import Installer.CommandLine.Run

/-!
# The command line program

The file system of the machine stands in for the disk. The system numbers its errors; some
operations report the number and some its negative.
-/

namespace Installer

open CommandLine

def errorNumber (code : UInt32) : Nat :=
  if code.toNat < 65536 then code.toNat else 4294967296 - code.toNat

/-- The file error of a system error. -/
def numberedError (code : UInt32) (text : String) : FileError :=
  match errorNumber code with
  | 2 => .noEntry
  | 17 => .exists
  | 20 => .notFolder
  | 21 => .isFolder
  | 36 => .nameTooLong
  | n => .other (text.capitalize ++ " (os error " ++ number n ++ ")")

/-- The cause of a failed operation on the file system. -/
def fileError : IO.Error → FileError
  | .noFileOrDirectory _ code text => numberedError code text
  | .alreadyExists _ code text => numberedError code text
  | .inappropriateType _ code text => numberedError code text
  | .invalidArgument _ code text => numberedError code text
  | .permissionDenied _ code text => numberedError code text
  | e => .other (toString e)

/-- The outcome of an operation on the file system. -/
def attempt {α : Type} (act : IO α) : IO (Except FileError α) := do
  match ← act.toBaseIO with
  | .ok a => return .ok a
  | .error e => return .error (fileError e)

/-- Makes a folder. A folder that is there will do. -/
def makeFolder (path : String) : IO (Except FileError Unit) := do
  match ← attempt (IO.FS.createDir path) with
  | .ok () => return .ok ()
  | .error .exists =>
      if ← (← IO.FS.realPath path).isDir then return .ok () else return .error .exists
  | .error e => return .error e

/-- Makes a folder, with all folders on the way to it that are missing. -/
partial def makeFolders (path : String) : IO (Except FileError Unit) := do
  match ← makeFolder path with
  | .error .noEntry =>
      let parent := parentPath path
      if parent.isEmpty then return .error .noEntry
      match ← makeFolders parent with
      | .ok () => makeFolder path
      | .error e => return .error e
  | outcome => return outcome

def machine : Host IO where
  read path := attempt (IO.FS.readFile path)
  createFolders path := makeFolders path
  write path content := attempt (IO.FS.writeFile path content)

end Installer

/-- Carries out a command line and prints the reply. -/
def main (args : List String) : IO UInt32 := do
  let reply ← Installer.CommandLine.run Installer.machine args
  IO.print reply.stdout
  IO.eprint reply.stderr
  return UInt32.ofNat reply.code
