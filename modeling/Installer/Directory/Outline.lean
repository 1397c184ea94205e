import Installer.Directory.Tree

/-!
# Outlines

The outline of a tree holds its directories each with those below it, so that a walk over a tree can
follow the outline's own structure.
-/

namespace Installer.Directory

/-- A directory by its number, with the directories below it. -/
structure Outline where
  index : Nat
  children : List Outline := []
deriving Inhabited

namespace Outline

/-- The outlines of nodes that are numbered from `i` on, each with the parent that it still has to
be put below. A node takes the later nodes that name it as their parent. -/
def gather (i : Nat) : List Node → List (Option Nat × Outline)
  | [] => []
  | n :: ns =>
      let later := gather (i + 1) ns
      (n.parent, ⟨i, (later.filter (·.1 == some i)).map (·.2)⟩) ::
        later.filter (·.1 != some i)

/-- The directories of an outline, each before those below it. -/
def walk : Outline → List Nat
  | ⟨i, children⟩ => i :: walkAll children
where
  walkAll : List Outline → List Nat
    | [] => []
    | o :: os => o.walk ++ walkAll os

theorem walkAll_eq_flatMap (os : List Outline) : walk.walkAll os = os.flatMap walk := by
  induction os with
  | nil => rfl
  | cons o os ih => rw [walk.walkAll, ih, List.flatMap_cons]

/-- The directories of an outline with their depths, each before those below it. -/
def walkDepth (depth : Nat) : Outline → List (Nat × Nat)
  | ⟨i, children⟩ => (i, depth) :: walkDepthAll (depth + 1) children
where
  walkDepthAll (depth : Nat) : List Outline → List (Nat × Nat)
    | [] => []
    | o :: os => walkDepth depth o ++ walkDepthAll depth os

def any (p : Nat → Bool) (o : Outline) : Bool :=
  o.walk.any p

/-- The first directory on the way down that holds files or does not lead to exactly one other. -/
def chainEnd (holds : Nat → Bool) : Outline → Nat
  | ⟨i, [o]⟩ => if holds i then i else o.chainEnd holds
  | ⟨i, _⟩ => i

end Outline

namespace Tree

def outlines (t : Tree) : List Outline :=
  (Outline.gather 0 t.nodes).map (·.2)

def outlineAt? (os : List Outline) (i : Nat) : Option Outline :=
  match os with
  | [] => none
  | ⟨j, children⟩ :: os =>
      if i = j then some ⟨j, children⟩ else (outlineAt? children i).or (outlineAt? os i)

def holdsFiles (t : Tree) (i : Nat) : Bool :=
  (t.node? i).any Node.hasFiles

/-- A directory of the tree holds anything but directories. -/
def holdsPayload (t : Tree) (i : Nat) : Bool :=
  (t.node? i).any Node.hasPayload

/-- A directory holds files or shortcuts, itself or anywhere below it. -/
def hasFilesBelow (t : Tree) (i : Nat) : Bool :=
  (outlineAt? t.outlines i).any (·.any t.holdsFiles)

/-- The installation directory: the first that is marked, else the end of the chain that begins at
the first root. -/
def installDir? (t : Tree) : Option Nat :=
  (t.nodes.findIdx? (·.installDir)).or (t.outlines.head?.map (·.chainEnd t.holdsFiles))

end Tree

end Installer.Directory
