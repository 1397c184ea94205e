import Installer.Compile.Ids
import Installer.Payload.Placement

/-!
# Directories in the document

Each directory becomes an element with a component for every item that it holds. A part of the
document carries along what it adds to the report, which components it made, and for which features.
-/

namespace Installer.Compile

open Identifier Directory Markup Schema

/-- A part of the document: its elements, the identifiers in it, and its components' features. -/
structure Part where
  elements : List Element := []
  assigned : List Assigned := []
  refs : List ComponentRef := []
  usesUtil : Bool := false

namespace Part

def append (a b : Part) : Part :=
  ⟨a.elements ++ b.elements, a.assigned ++ b.assigned, a.refs ++ b.refs, a.usesUtil || b.usesUtil⟩

def concat (ps : List Part) : Part :=
  ps.foldr append {}

/-- A component around elements, with its features. -/
def component (seed id : String) (features : List String) (attributes : List (String × String))
    (content : List Element) : Part where
  elements := [((Component.element seed id).setAll attributes).pushAll content]
  assigned := [⟨.component, id, id⟩]
  refs := [⟨id, features⟩]

end Part

/-- The first feature list that is not empty. -/
def nearest (levels : List (List String)) : List String :=
  (levels.find? (!·.isEmpty)).getD []

/-- A relative source below the base directory of all sources. -/
def sourceBelow (base source : String) : String :=
  String.ofList (Text.dropTail isSeparator base.toList) ++ "\\" ++ source

/-- A file in its component. -/
def filePart (p : Project) (f : File) (features : List String) : Emit Part := do
  let written ← File.schema.emit f
  let e := match p.sourceBaseDir with
    | some base =>
        if isRooted f.source then written.element
        else written.element.set "Source" (sourceBelow base f.source)
    | none => written.element
  let id := (e.get? "Id").getD ""
  let component :=
    Part.component p.seed (Component.idFor id) features written.componentAttributes [e]
  return { component with assigned := ⟨.file, id, f.source⟩ :: component.assigned }

/-- A shortcut in its component. A generated identifier stands behind that of the directory, and the
directory is where the target runs unless something else is said. -/
def shortcutPart (p : Project) (directory : String) (s : Shortcut) (features : List String) :
    Emit Part := do
  let written ← Shortcut.schema.emit s
  let e := written.element
  let id := (e.get? "Id").getD ""
  let (id, e) := match s.id with
    | some _ => (id, e)
    | none =>
        let full := directory ++ "." ++ id
        (full, e.setFirst "Id" full)
  let e := if (e.get? "WorkingDirectory").isSome then e
    else e.set "WorkingDirectory" (s.impliedDirectory?.getD directory)
  let component :=
    Part.component p.seed (Component.idFor id) features written.componentAttributes [e]
  return { component with assigned := ⟨.shortcut, id, s.name⟩ :: component.assigned }

/-- What placing settings produced, with features for the components that name none. The second
value holds the elements for the enclosing element. -/
def placedPart (placed : Placement) (features : List String) : Part × List Element :=
  ({ elements := placed.components
     assigned := placed.refs.map fun r => ⟨.component, r.id, r.id⟩
     refs := placed.refs.map fun r => ⟨r.id, nearest [r.features, features]⟩
     usesUtil := placed.usesUtil },
    placed.parentElements)

/-- The settings of a directory, with the elements for the directory itself behind the components. -/
def settingsPart (p : Project) (settings : List Setting) (features : List String) : Emit Part := do
  let placed ← ({} : Placement).processAll p.seed settings
  let (part, parents) := placedPart placed features
  return { part with elements := part.elements ++ parents }

/-- The component that keeps an empty directory alive. -/
def emptyPart (p : Project) (directory : String) (features : List String) : Part :=
  let remove := ((Element.named "RemoveFolder").set "Id" directory).set "On" "uninstall"
  Part.component p.seed (Component.idFor (directory ++ ".EmptyDirectory")) features []
    [Element.named "CreateFolder", remove]

/-- The verbatim attributes of a directory's element. Those of a declaration that made several nodes
are for all of them but the first. -/
def directoryAttributes (t : Tree) (i : Nat) (n : Node) : List (String × String) :=
  (if t.isContinued i then [] else n.attributes.own) ++
    ((((t.chainHead? i).bind t.node?).map (·.attributes.own)).getD []) ++
    n.ownAttributes.own

/-- A directory's element with nothing in it. -/
def directoryElement (t : Tree) (i : Nat) (n : Node) (id : String) : Element :=
  (((Element.named "Directory").set "Id" id).set "Name" ((specialFolder? n.name).getD n.name)).setAll
    (directoryAttributes t i n)

/-- What a directory holds, one part for each item: files, files of patterns, shortcuts, settings. -/
def contentPart (p : Project) (n : Node) (id : String) : Emit Part := do
  let files ← n.files.mapM fun f => filePart p f (nearest [f.features, n.features])
  let matched ← (n.fileSets.flatMap fun s => s.files.map (s, ·)).mapM fun (s, f) =>
    filePart p f (nearest [f.features, s.features, n.features])
  let shortcuts ← n.shortcuts.mapM fun s =>
    shortcutPart p id s (nearest [s.features, n.features])
  let settings ← settingsPart p n.settings n.features
  return Part.concat (files ++ matched ++ shortcuts ++ [settings])

/-- A directory with all that is in it and below it, or nothing where empty ones are left out. -/
def directoryPart (p : Project) (d : DirectoryIds) : Outline → Emit Part
  | ⟨i, children⟩ => do
      let t := p.directories
      let n := (t.node? i).getD { name := "" }
      if p.options.emptyDirectories = .elide &&
          !(Outline.mk i children).any t.holdsPayload then
        return {}
      let id := d.id i
      let content ← contentPart p n id
      let keeper :=
        if !n.hasPayload && children.isEmpty && p.options.emptyDirectories = .component then
          emptyPart p id n.features
        else {}
      let below ← directoryParts children
      let inside := (content.append keeper).append below
      return { inside with elements := [(directoryElement t i n id).pushAll inside.elements] }
where
  directoryParts : List Outline → Emit Part
    | [] => return {}
    | o :: os => do
        let part ← directoryPart p d o
        let parts ← directoryParts os
        return part.append parts

end Installer.Compile
