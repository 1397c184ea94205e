import Installer.CommandLine.Arguments
import Installer.CommandLine.Disk
import Installer.CommandLine.Report

/-!
# Commands

A command reads its manifest, makes the project and the document, and only then writes or prints
anything. All commands accept the same manifests.
-/

namespace Installer.CommandLine

open Compile

/-- What a command leaves behind: its exit code and its two outputs. -/
structure Reply where
  code : Nat
  stdout : String := ""
  stderr : String := ""
deriving DecidableEq

inductive Failure where
  | unreadable (manifest : String) (e : FileError)
  | unparsable (manifest : String)
  | invalid (manifest : String) (e : Manifest.Fault)
  | incomplete (manifest : String) (e : Schema.MissingValue)
  | noFolder (folder : String) (e : FileError)
  | unwritable (document : String) (e : FileError)
deriving DecidableEq

def Failure.message : Failure → String
  | .unreadable manifest e =>
      "Failed to load manifest: " ++ manifest ++ ": failed to read manifest " ++ manifest ++ ": " ++
        e.message ++ ": " ++ e.message
  | .unparsable manifest => "Failed to load manifest: " ++ manifest ++ ": failed to parse manifest"
  | .invalid manifest e => "Invalid manifest: " ++ manifest ++ ": " ++ e.message
  | .incomplete manifest e => "Failed to compile: " ++ manifest ++ ": " ++ e.message
  | .noFolder folder e => "Failed to create directory: " ++ folder ++ ": " ++ e.message
  | .unwritable document e => "Failed to write document: " ++ document ++ ": " ++ e.message

/-- The reply to a command line that cannot be understood. -/
def usageReply : Reply :=
  ⟨2, "", ""⟩

def failureReply (e : Failure) : Reply :=
  ⟨1, "", lines [errorLine e.message]⟩

/-- A manifest with its project and its document, from the manifest's text. -/
def load (manifest content : String) : Except Failure Loaded := do
  let some m := Manifest.read? content
    | throw (.unparsable manifest)
  let project ← m.toProject.mapError (.invalid manifest)
  let compiled ← project.compile.mapError (.incomplete manifest)
  return ⟨m, project, compiled⟩

/-- The reply of `build` when the document was written. -/
def builtReply (l : Loaded) (json : Bool) (output document : String) : Reply :=
  if json then ⟨0, (l.builtJson output document).pretty ++ "\n", ""⟩
  else ⟨0, l.builtText output document, l.emptyWarning⟩

def inspectReply (l : Loaded) (verbose json : Bool) : Reply :=
  if json then ⟨0, l.inspectionJson.pretty ++ "\n", ""⟩ else ⟨0, l.inspectionText verbose, ""⟩

def idsReply (l : Loaded) (kind : Option String) (json : Bool) : Reply :=
  let ids := l.idsOfKind kind
  if json then ⟨0, (idsJson ids).pretty ++ "\n", ""⟩ else ⟨0, idsText ids, ""⟩

/-- Writes a document, with the folders on the way to it. -/
def writeDocument {m : Type → Type} [Monad m] (host : Host m) (output document : String) :
    m (Except Failure Unit) := do
  let folder := parentPath output
  let created ← if folder.isEmpty then pure (.ok ()) else host.createFolders folder
  match created with
  | .error e => return .error (.noFolder folder e)
  | .ok () => return (← host.write output document).mapError (.unwritable output)

def build {m : Type → Type} [Monad m] (host : Host m) (manifest : String) (l : Loaded)
    (output : Option String) (stdout json : Bool) : m Reply := do
  let document := l.compiled.text
  if stdout then return ⟨0, document, ""⟩
  let output := output.getD (withExtension manifest "wxs")
  match ← writeDocument host output document with
  | .error e => return failureReply e
  | .ok () => return builtReply l json output document

/-- A command on a manifest. -/
def execute {m : Type → Type} [Monad m] (host : Host m) (i : Invocation) : m Reply := do
  match (← host.read i.manifest).mapError (Failure.unreadable i.manifest) >>= load i.manifest with
  | .error e => return failureReply e
  | .ok l =>
      match i.command with
      | .build output stdout => build host i.manifest l output stdout i.json
      | .inspect => return inspectReply l i.verbose i.json
      | .ids kind => return idsReply l kind i.json

/-- What a command line does. -/
def run {m : Type → Type} [Monad m] (host : Host m) (args : List String) : m Reply :=
  match parse args with
  | some i => execute host i
  | none => return usageReply

end Installer.CommandLine
