import Installer.Directory.Declaration
import Installer.Identifier.Name

/-!
# Directory trees

A path on the target system is a row of segments. A rooted path is one segment as a whole. Segments
name the same directory when they differ in letter case only, with special folders in any of their
spellings.

The directories of a project make a tree. Nodes are numbered in the order of their making, and a
node names its parent, which is an earlier node. Declarations whose paths overlap share the nodes of
what they have in common.
-/

namespace Installer.Directory

open Identifier Schema

/-- The segments of a path: the nonempty pieces between separators, or the whole of a rooted path. -/
def segments (path : String) : List String :=
  if isRooted path then [path]
  else ((Text.splitAt isSeparator path.toList).filter (!·.isEmpty)).map String.ofList

/-- Two segments name the same directory. -/
def sameName (a b : String) : Bool :=
  if isRooted a || isRooted b then Text.sameText a b
  else Text.sameText (expand false a) (expand false b)

/-- The paths of the first segment, of the first two, and so on, behind a path of earlier ones. -/
def pathsBehind (path : String) : List String → List String
  | [] => []
  | s :: ss => let next := path ++ "\\" ++ s; next :: pathsBehind next ss

/-- The paths of the first segment, of the first two, and so on to the whole path. -/
def pathPrefixes (path : String) : List String :=
  match segments path with
  | [] => []
  | s :: ss => s :: pathsBehind s ss

def joinPath (names : List String) : String :=
  String.ofList (Text.joinWith ['\\'] (names.map String.toList))

/-- A directory: one segment of a path, or a rooted path as a whole. A node that continues its
parent was made with it, for one path. -/
structure Node where
  name : String
  id : Option String := none
  parent : Option Nat := none
  continues : Bool := false
  files : List File := []
  fileSets : List FileSet := []
  shortcuts : List Shortcut := []
  settings : List Setting := []
  features : List String := []
  attributes : Attributes := .empty
  ownAttributes : Attributes := .empty
  installDir : Bool := false

namespace Node

def hasFiles (n : Node) : Bool :=
  !n.files.isEmpty || !n.fileSets.isEmpty || !n.shortcuts.isEmpty

/-- The node holds anything but directories. -/
def hasPayload (n : Node) : Bool :=
  n.hasFiles || !n.settings.isEmpty

def continued? (n : Node) : Option Nat :=
  if n.continues then n.parent else none

/-- The node with features that it does not have yet. -/
def addFeatures (n : Node) (features : List String) : Node :=
  { n with features := features.foldl (fun fs f => if f ∈ fs then fs else fs ++ [f]) n.features }

end Node

/-- The directories of a project in the order of their making. -/
structure Tree where
  nodes : List Node := []

namespace Tree

def empty : Tree := {}

def size (t : Tree) : Nat :=
  t.nodes.length

def isEmpty (t : Tree) : Bool :=
  t.nodes.isEmpty

def node? (t : Tree) (i : Nat) : Option Node :=
  t.nodes[i]?

/-- The numbers of the directories right below a node, or of the roots. -/
def level (t : Tree) (parent : Option Nat) : List Nat :=
  t.nodes.zipIdx.filterMap fun n => if n.1.parent = parent then some n.2 else none

def roots (t : Tree) : List Nat :=
  t.level none

def children (t : Tree) (i : Nat) : List Nat :=
  t.level (some i)

def modify (t : Tree) (i : Nat) (f : Node → Node) : Tree :=
  ⟨t.nodes.modify i f⟩

def push (t : Tree) (n : Node) : Tree :=
  ⟨t.nodes ++ [n]⟩

/-- The tree with a node below `cursor` for each segment, each continuing the one before it, and the
number of the last. -/
def extend (t : Tree) (cursor : Nat) (features : List String) : List String → Nat × Tree
  | [] => (cursor, t)
  | s :: ss =>
      (t.push { name := s, parent := some cursor, continues := true, features }).extend t.size
        features ss

/-- The tree with a chain of new nodes for segments, and the numbers of the first and the last. -/
def chain (t : Tree) (parent : Option Nat) (head : String) (rest features : List String) :
    Nat × Nat × Tree :=
  let (leaf, u) := (t.push { name := head, parent, features }).extend t.size features rest
  (t.size, leaf, u)

/-- The segments of the nodes that a path asks for. An empty path asks for a nameless one. -/
def chainSegments (path : String) : String × List String :=
  match segments path with
  | [] => (path, [])
  | s :: ss => (s, ss)

/-- The tree with new nodes for a whole path, whatever is there, and the number of the last. -/
def resolve (t : Tree) (parent : Option Nat) (path : String) (features : List String) :
    Nat × Tree :=
  let (head, rest) := chainSegments path
  (t.chain parent head rest features).2

/-- The first directory of a level that a segment names. -/
def child? (t : Tree) (parent : Option Nat) (segment : String) : Option Nat :=
  (t.level parent).find? fun i => (t.node? i).any fun n => sameName n.name segment

/-- The directory to which segments lead from a node. -/
def descend (t : Tree) (cursor : Nat) : List String → Option Nat
  | [] => some cursor
  | s :: ss => (t.child? (some cursor) s).bind (t.descend · ss)

/-- The directory of a path below a node, or from the roots. An empty path names nothing. -/
def find? (t : Tree) (parent : Option Nat) (path : String) : Option Nat :=
  match segments path with
  | [] => none
  | s :: ss => (t.child? parent s).bind (t.descend · ss)

/-- The directories of the leading parts of a path, as far as they are there. -/
def followed (t : Tree) (parent : Option Nat) (path : String) : List Nat :=
  ((pathPrefixes path).map (t.find? parent)).takeWhile (·.isSome) |>.filterMap id

/-- What came of a path: the first node that was made for it, if any, and the last of its nodes. -/
structure Overlay where
  head : Option Nat
  leaf : Nat
  tree : Tree

/-- The tree with the nodes of a path, of which those that are there are shared. -/
def overlay (t : Tree) (parent : Option Nat) (path : String) (features : List String) : Overlay :=
  let known := t.followed parent path
  match known.getLast?, (segments path).drop known.length with
  | none, _ =>
      let (head, rest) := chainSegments path
      let (first, leaf, u) := t.chain parent head rest features
      ⟨some first, leaf, u⟩
  | some last, [] => ⟨none, last, t.modify last (·.addFeatures features)⟩
  | some last, s :: ss =>
      let (first, leaf, u) := t.chain (some last) s ss features
      ⟨some first, leaf, u⟩

/-- The tree with the nodes of a path, of which those that are there are shared, and the number of
the last. -/
def merge (t : Tree) (parent : Option Nat) (path : String) (features : List String) : Nat × Tree :=
  let m := t.overlay parent path features
  (m.leaf, m.tree)

/-- The tree with a declaration's attributes: on the chain that it made, or else on its node. -/
def giveAttributes (m : Overlay) (attributes : Attributes) : Tree :=
  match m.head with
  | some head => m.tree.modify head fun n => { n with attributes := n.attributes.extend attributes }
  | none =>
      m.tree.modify m.leaf fun n => { n with ownAttributes := n.ownAttributes.extend attributes }

/-- The tree with what a declaration says of its own directory. -/
def mark (t : Tree) (i : Nat) (id : Option String) (installDir : Bool) : Tree :=
  t.modify i fun n => { n with id := id.or n.id, installDir := n.installDir || installDir }

/-- A node with one more item that is no directory. -/
def hold (n : Node) : Item → Node
  | .file f => { n with files := n.files ++ [f] }
  | .files s => { n with fileSets := n.fileSets ++ [s] }
  | .shortcut s => { n with shortcuts := n.shortcuts ++ [s] }
  | .setting s => { n with settings := n.settings ++ [s] }
  | _ => n

/-- The tree with a declaration whose items all fit, and the number of its directory. -/
def declare (t : Tree) (parent : Option Nat) : Declaration → Nat × Tree
  | ⟨path, id, features, attributes, installDir, items⟩ =>
      let m := t.overlay parent path features
      (m.leaf, declareItems ((giveAttributes m attributes).mark m.leaf id installDir) m.leaf items)
where
  declareItems (t : Tree) (i : Nat) : List (ItemOf Declaration) → Tree
    | [] => t
    | .directory d :: items => declareItems (declare t (some i) d).2 i items
    | item :: items => declareItems (t.modify i (hold · item)) i items

/-- The tree with a declaration. It is checked as a whole before anything is added. -/
def add (t : Tree) (parent : Option Nat) (d : Declaration) : Except Misplaced (Nat × Tree) :=
  match d.misplaced? with
  | some e => .error e
  | none => .ok (t.declare parent d)

/-- The tree with items in a directory. They are checked as a whole before anything is added. -/
def addItems (t : Tree) (i : Nat) (items : List Item) : Except Misplaced Tree :=
  match misplacedAmong? items with
  | some e => .error e
  | none => .ok (declare.declareItems t i items)

/-- The names on the way to each node, its own name last. -/
def trails (t : Tree) : List (List String) :=
  t.nodes.foldl
    (fun trails n => trails ++ [((n.parent.bind (trails[·]?)).getD []) ++ [n.name]])
    []

def pathOf (t : Tree) (i : Nat) : String :=
  joinPath ((t.trails[i]?).getD [])

/-- For each node that continues another one, the first of the chain that it belongs to. -/
def chainHeads (t : Tree) : List (Option Nat) :=
  t.nodes.foldl
    (fun heads n => heads ++ [n.continued?.map fun p => ((heads[p]?).join).getD p])
    []

/-- The first node of the chain that a node continues. -/
def chainHead? (t : Tree) (i : Nat) : Option Nat :=
  (t.chainHeads[i]?).join

def isContinued (t : Tree) (i : Nat) : Bool :=
  t.nodes.any fun n => n.continued? == some i

end Tree

end Installer.Directory
