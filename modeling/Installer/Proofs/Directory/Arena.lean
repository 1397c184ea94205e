import Installer.Proofs.Directory.Frames

/-!
# Trees with their links kept

A tree reads the children of a node off the parents of all nodes. An arena keeps them: every cell has
the row of its children and the cell that it continues beside what the node itself says, the arena
has the row of its roots, and whoever makes a node has to enter it everywhere. What follows links in
an arena is a loop that nothing bounds but the links themselves. A way with more steps than there
are cells goes round in a circle, so a loop is given as many steps as there are cells; its value is
`none` where it does not end within them or leaves the arena.

An arena stores a tree if it has the tree's nodes and its links are those that the tree reads off
them. The calls on a tree and those on an arena that stores it do the same.
-/
namespace Installer.Directory

open Schema

/-- A node with its links: the cell that it continues and its children. -/
structure Cell where
  node : Node
  continued : Option Nat := none
  children : List Nat := []

/-- Cells in the order of their making, and the numbers of those without a parent. -/
structure Arena where
  cells : List Cell := []
  roots : List Nat := []

namespace Arena

def empty : Arena := {}

def size (a : Arena) : Nat :=
  a.cells.length

def cell? (a : Arena) (i : Nat) : Option Cell :=
  a.cells[i]?

/-- The tree of the nodes without their links. -/
def tree (a : Arena) : Tree :=
  ⟨a.cells.map (·.node)⟩

/-- The kept row of the children of a node, or of the roots. -/
def level (a : Arena) : Option Nat → List Nat
  | none => a.roots
  | some i => ((a.cell? i).map (·.children)).getD []

def modify (a : Arena) (i : Nat) (f : Node → Node) : Arena :=
  { a with cells := a.cells.modify i fun c => { c with node := f c.node } }

/-- The arena with one more node that continues `continued`, entered among the children of its parent
or among the roots. -/
def push (a : Arena) (n : Node) (continued : Option Nat) : Arena :=
  match n.parent with
  | some p =>
      { a with
        cells := (a.cells.modify p fun c => { c with children := c.children ++ [a.size] }) ++
          [⟨n, continued, []⟩] }
  | none => { cells := a.cells ++ [⟨n, continued, []⟩], roots := a.roots ++ [a.size] }

/-- The arena with a node below `cursor` for each segment, each continuing the one before it, and the
number of the last. -/
def extend (a : Arena) (cursor : Nat) (features : List String) : List String → Nat × Arena
  | [] => (cursor, a)
  | s :: ss =>
      (a.push { name := s, parent := some cursor, continues := true, features }
        (some cursor)).extend a.size features ss

/-- The arena with new nodes for a whole path, whatever is there, and the number of the last. -/
def resolve (a : Arena) (parent : Option Nat) (path : String) (features : List String) :
    Nat × Arena :=
  let (head, rest) := Tree.chainSegments path
  (a.push { name := head, parent, features } none).extend a.size features rest

/-- The first of a kept row that a segment names. -/
def child? (a : Arena) (parent : Option Nat) (segment : String) : Option Nat :=
  (a.level parent).find? fun i => (a.cell? i).any fun c => sameName c.node.name segment

/-- Where segments lead, one kept row after the other. Without segments the walk stays. -/
def walk (a : Arena) (found : Option Nat) : List String → Option (Option Nat)
  | [] => some found
  | s :: ss => (a.child? found s).bind fun i => a.walk (some i) ss

/-- The directory of a path below a node, or from the roots. The starting point does not count. -/
def find? (a : Arena) (parent : Option Nat) (path : String) : Option Nat :=
  (a.walk parent (segments path)).bind fun found => if found = parent then none else found

/-- The cell at the end of the way from a cell to the one that it continues, and so on, if the way
has no more than the given number of cells. -/
def topWithin (a : Arena) : Nat → Nat → Option Nat
  | 0, _ => none
  | steps + 1, i => do
      let c ← a.cell? i
      match c.continued with
      | none => some i
      | some p => a.topWithin steps p

/-- The cell at the end of the way from a cell to the one that it continues, and so on. -/
def top (a : Arena) (i : Nat) : Option Nat :=
  a.topWithin a.size i

/-- The head of the chain of a cell that continues another one. -/
def chainHead? (a : Arena) (i : Nat) : Option (Option Nat) := do
  let c ← a.cell? i
  match c.continued with
  | none => some none
  | some p =>
      let head ← a.top p
      return some head

/-- The names from a node up to its root, if they are no more than the given number. -/
def namesWithin (a : Arena) : Nat → Nat → Option (List String)
  | 0, _ => none
  | steps + 1, i => do
      let c ← a.cell? i
      match c.node.parent with
      | none => return [c.node.name]
      | some p =>
          let above ← a.namesWithin steps p
          return c.node.name :: above

/-- The names from a node up to its root. -/
def names (a : Arena) (i : Nat) : Option (List String) :=
  a.namesWithin a.size i

def pathOf (a : Arena) (i : Nat) : Option String := do
  let ns ← a.names i
  return joinPath ns.reverse

/-- A directory holds files or shortcuts, itself or anywhere below it, where no way down has more
than the given number of directories. -/
def hasFilesWithin (a : Arena) : Nat → Nat → Option Bool
  | 0, _ => none
  | steps + 1, i => do
      let c ← a.cell? i
      if c.node.hasFiles then return true
      c.children.anyM (a.hasFilesWithin steps)

/-- A directory holds files or shortcuts, itself or anywhere below it. -/
def hasFilesBelow (a : Arena) (i : Nat) : Option Bool :=
  a.hasFilesWithin a.size i

/-- The first directory on the way down that holds files or has not exactly one child, if the way has
no more than the given number of directories. -/
def chainEndWithin (a : Arena) : Nat → Nat → Option Nat
  | 0, _ => none
  | steps + 1, i => do
      let c ← a.cell? i
      if c.node.hasFiles then return i
      match c.children with
      | [j] => a.chainEndWithin steps j
      | _ => return i

/-- The first directory on the way down that holds files or has not exactly one child. -/
def chainEnd (a : Arena) (i : Nat) : Option Nat :=
  a.chainEndWithin a.size i

/-- The installation directory: the first that is marked, else the end of the chain that begins at
the first root. -/
def installDir? (a : Arena) : Option (Option Nat) :=
  match a.cells.findIdx? (·.node.installDir) with
  | some i => some (some i)
  | none =>
      match a.roots with
      | [] => some none
      | i :: _ => do
          let last ← a.chainEnd i
          return some last

section within

variable {a : Arena} {i : Nat} {c : Cell} (hc : a.cell? i = some c) (steps : Nat)
include hc

theorem topWithin_succ : a.topWithin (steps + 1) i = match c.continued with
    | none => some i
    | some p => a.topWithin steps p := by
  rw [topWithin, hc]
  rfl

theorem namesWithin_succ : a.namesWithin (steps + 1) i = match c.node.parent with
    | none => some [c.node.name]
    | some p => (a.namesWithin steps p).map (c.node.name :: ·) := by
  rw [namesWithin, hc, Option.bind_eq_bind, Option.bind_some]
  cases c.node.parent with
  | none => rfl
  | some p => exact Option.map_eq_bind.symm

theorem hasFilesWithin_succ : a.hasFilesWithin (steps + 1) i =
    if c.node.hasFiles then some true else c.children.anyM (a.hasFilesWithin steps) := by
  rw [hasFilesWithin, hc]
  rfl

theorem chainEndWithin_succ : a.chainEndWithin (steps + 1) i =
    if c.node.hasFiles then some i else match c.children with
      | [j] => a.chainEndWithin steps j
      | _ => some i := by
  rw [chainEndWithin, hc]
  rfl

end within

/-- The first node that was made for a path, if any, the last of the path's nodes, and the arena. The
first node of a path that shares nothing is looked for from the last one. -/
def mergeChain (a : Arena) (parent : Option Nat) (path : String) (features : List String) :
    Option (Option Nat × Nat × Arena) :=
  let known := ((pathPrefixes path).map (a.find? parent)).takeWhile (·.isSome) |>.filterMap id
  match known.getLast?, (segments path).drop known.length with
  | none, _ => do
      let (leaf, b) := a.resolve parent path features
      let head ← b.chainHead? leaf
      return (some (head.getD leaf), leaf, b)
  | some last, [] => some (none, last, a.modify last (·.addFeatures features))
  | some last, s :: ss =>
      let (leaf, b) :=
        (a.push { name := s, parent := some last, features } none).extend a.size features ss
      some (some a.size, leaf, b)

/-- The arena with a declaration's attributes, if it has any: on the chain that it made, or else on
its node. -/
def give (a : Arena) (head : Option Nat) (leaf : Nat) (attributes : Attributes) : Arena :=
  if attributes.isEmpty then a
  else match head with
    | some head => a.modify head (·.given attributes)
    | none => a.modify leaf (·.givenOwn attributes)

/-- The arena with a declaration, and its node or the complaint about it. The items are checked
before anything is done, checked again when they are put into their directory, and looked at once
more one by one. -/
def add (a : Arena) (parent : Option Nat) : Declaration → Option (Except Misplaced Nat × Arena)
  | ⟨path, id, features, attributes, installDir, items⟩ =>
      match misplacedAmong? items with
      | some e => some (.error e, a)
      | none => do
          let (head, leaf, b) ← a.mergeChain parent path features
          let b := (b.give head leaf attributes).modify leaf (·.marked id installDir)
          match misplacedAmong? items with
          | some e => return (.error e, b)
          | none =>
              let (result, b) ← putItems b leaf items
              return (result.map fun _ => leaf, b)
where
  /-- The arena with items in a directory, one after the other up to the first that may not stand
  there. -/
  putItems (a : Arena) (i : Nat) :
      List (ItemOf Declaration) → Option (Except Misplaced Unit × Arena)
    | [] => some (.ok (), a)
    | .directory d :: items => do
        let (result, b) ← add a (some i) d
        match result with
        | .error e => return (.error e, b)
        | .ok _ => putItems b i items
    | item :: items =>
        if item.fitsDirectory then putItems (a.modify i (Tree.hold · item)) i items
        else some (.error ⟨item.typeName, "Dir"⟩, a)

/-- The arena with items in a directory, or the complaint about them. -/
def addItems (a : Arena) (i : Nat) (items : List Item) : Option (Except Misplaced Unit × Arena) :=
  match misplacedAmong? items with
  | some e => some (.error e, a)
  | none => add.putItems a i items

/-- An arena has the nodes of a tree, and its links are those that the tree reads off them. -/
structure Stores (a : Arena) (t : Tree) : Prop where
  tree : a.tree = t
  founded : t.Founded
  levels : ∀ parent, a.level parent = t.level parent
  continued : ∀ i c, a.cell? i = some c → c.continued = c.node.continued?

theorem node?_tree (a : Arena) (i : Nat) : a.tree.node? i = (a.cell? i).map (·.node) := by
  rw [tree, Tree.node?, List.getElem?_map]
  rfl

@[simp] theorem size_tree (a : Arena) : a.tree.size = a.size := by
  simp [tree, Tree.size, size]

theorem cell?_modify (a : Arena) (i : Nat) (f : Node → Node) (j : Nat) :
    (a.modify i f).cell? j =
      if i = j then (a.cell? j).map fun c => { c with node := f c.node } else a.cell? j := by
  rw [cell?, modify, List.getElem?_modify, cell?]
  split <;> simp

theorem tree_modify (a : Arena) (i : Nat) (f : Node → Node) :
    (a.modify i f).tree = a.tree.modify i f := by
  refine Tree.ext_node? fun j => ?_
  rw [node?_tree, cell?_modify, Tree.node?_modify, node?_tree]
  split
  · cases a.cell? j <;> rfl
  · rfl

theorem level_modify (a : Arena) (i : Nat) (f : Node → Node) (parent : Option Nat) :
    (a.modify i f).level parent = a.level parent := by
  cases parent with
  | none => rfl
  | some j =>
    rw [level, level, cell?_modify]
    split
    · cases a.cell? j <;> rfl
    · rfl

theorem cell?_push (a : Arena) (n : Node) (continued : Option Nat) (i : Nat) :
    (a.push n continued).cell? i =
      if i = a.size then some ⟨n, continued, []⟩
      else if n.parent = some i then
        (a.cell? i).map fun c => { c with children := c.children ++ [a.size] }
      else a.cell? i := by
  have hbehind : ∀ cells : List Cell, cells.length = a.size →
      (cells ++ [⟨n, continued, []⟩])[i]? =
        if i = a.size then some ⟨n, continued, []⟩ else cells[i]? := by
    intro cells hlength
    by_cases hi : i = a.size
    · rw [if_pos hi, List.getElem?_append_right (by omega), hlength, hi, Nat.sub_self]
      rfl
    · rw [if_neg hi]
      by_cases hlt : i < cells.length
      · exact List.getElem?_append_left hlt
      · rw [List.getElem?_eq_none (by simp; omega), List.getElem?_eq_none (by omega)]
  cases hp : n.parent with
  | none =>
    have hcells : (a.push n continued).cells = a.cells ++ [⟨n, continued, []⟩] := by
      rw [push, hp]
    rw [cell?, hcells, hbehind _ rfl, cell?]
    simp
  | some p =>
    have hcells : (a.push n continued).cells =
        (a.cells.modify p fun c => { c with children := c.children ++ [a.size] }) ++
          [⟨n, continued, []⟩] := by
      rw [push, hp]
    rw [cell?, hcells, hbehind _ (List.length_modify ..), cell?, List.getElem?_modify]
    by_cases hpi : p = i <;> simp [hpi]

theorem tree_push (a : Arena) (n : Node) (continued : Option Nat) :
    (a.push n continued).tree = a.tree.push n := by
  refine Tree.ext_node? fun i => ?_
  rw [node?_tree, cell?_push, Tree.node?_push, size_tree, node?_tree]
  split
  · rfl
  · split
    · cases a.cell? i <;> rfl
    · rfl

/-- A new node is entered behind the children of its parent. -/
theorem level_push (a : Arena) {n : Node} (continued : Option Nat)
    (hp : ∀ p, n.parent = some p → p < a.size) (parent : Option Nat) :
    (a.push n continued).level parent =
      a.level parent ++ if n.parent = parent then [a.size] else [] := by
  cases parent with
  | none => cases hn : n.parent <;> simp [level, push, hn]
  | some i =>
    rw [level, level, cell?_push]
    by_cases hi : i = a.size
    · have hne : n.parent ≠ some i := fun h => (hp i h).ne hi
      have hnone : a.cell? i = none := List.getElem?_eq_none hi.ge
      rw [if_pos hi, if_neg hne, hnone]
      rfl
    · rw [if_neg hi]
      by_cases hni : n.parent = some i
      · obtain ⟨c, hc⟩ : ∃ c, a.cell? i = some c := ⟨_, List.getElem?_eq_getElem (hp i hni)⟩
        simp [hni, hc]
      · simp [hni]

theorem stores_empty : Stores empty .empty where
  tree := rfl
  founded := Tree.founded_empty
  levels := fun parent => by cases parent <;> rfl
  continued := fun i c h => by simp [cell?, empty] at h

namespace Stores

variable {a : Arena} {t : Tree}

theorem size (h : Stores a t) : a.size = t.size := by
  rw [← h.tree, size_tree]

theorem cell (h : Stores a t) {i : Nat} {n : Node} (hn : t.node? i = some n) :
    ∃ c, a.cell? i = some c ∧ c.node = n ∧ c.continued = n.continued? ∧
      c.children = t.children i := by
  rw [← h.tree, node?_tree, Option.map_eq_some_iff] at hn
  obtain ⟨c, hc, rfl⟩ := hn
  refine ⟨c, hc, rfl, h.continued i c hc, ?_⟩
  rw [Tree.children, ← h.levels (some i), level, hc]
  rfl

/-- Nodes may be changed in their places. -/
theorem modify (h : Stores a t) (i : Nat) {f : Node → Node} (hname : ∀ n, (f n).name = n.name)
    (hparent : ∀ n, (f n).parent = n.parent) (hcontinues : ∀ n, (f n).continues = n.continues) :
    Stores (a.modify i f) (t.modify i f) where
  tree := by
    rw [tree_modify, h.tree]
  founded := h.founded.congr (Tree.skeleton_modify t i hname hparent)
  levels := by
    intro parent
    rw [level_modify, h.levels, Tree.level_congr (Tree.skeleton_modify t i hname hparent)]
  continued := by
    intro j c hc
    rw [cell?_modify] at hc
    by_cases hij : i = j
    · rw [if_pos hij, Option.map_eq_some_iff] at hc
      obtain ⟨b, hb, rfl⟩ := hc
      change b.continued = (f b.node).continued?
      rw [h.continued j b hb, Node.continued?, Node.continued?, hparent, hcontinues]
    · rw [if_neg hij] at hc
      exact h.continued j c hc

/-- A node may be added below a node that is there or at the roots. -/
theorem push (h : Stores a t) {n : Node} (hn : t.Holds n.parent) {continued : Option Nat}
    (hcontinued : continued = n.continued?) : Stores (a.push n continued) (t.push n) where
  tree := by
    rw [tree_push, h.tree]
  founded := h.founded.push hn
  levels := by
    intro parent
    have hsize : ∀ p, n.parent = some p → p < a.size := fun p hp => h.size ▸ hn p hp
    rw [level_push a continued hsize, h.levels, Tree.level_push, h.size]
  continued := by
    intro i c hc
    rw [cell?_push] at hc
    split at hc
    · obtain rfl := Option.some.inj hc
      exact hcontinued
    · split at hc
      · obtain ⟨b, hb, rfl⟩ := Option.map_eq_some_iff.1 hc
        exact h.continued i b hb
      · exact h.continued i c hc

/-- Each node of a row below `cursor` continues the one before it. -/
theorem extend (h : Stores a t) {cursor : Nat} (hcursor : cursor < t.size)
    (features ss : List String) :
    (a.extend cursor features ss).1 = (t.extend cursor features ss).1 ∧
      Stores (a.extend cursor features ss).2 (t.extend cursor features ss).2 := by
  induction ss generalizing a t cursor with
  | nil => exact ⟨rfl, h⟩
  | cons s ss ih =>
    have hnext := h.push (n := { name := s, parent := some cursor, continues := true, features })
      (Tree.holds_some_iff.2 hcursor) rfl
    rw [Arena.extend, Tree.extend, h.size]
    exact ih hnext (by simp [Tree.push, Tree.size])

/-- A chain of new nodes is made the same way in both. -/
theorem chain (h : Stores a t) {parent : Option Nat} (hp : t.Holds parent) (s : String)
    (ss features : List String) :
    ((a.push { name := s, parent, features } none).extend a.size features ss).1 =
        (t.chain parent s ss features).2.1 ∧
      Stores ((a.push { name := s, parent, features } none).extend a.size features ss).2
        (t.chain parent s ss features).2.2 := by
  rw [h.size]
  exact (h.push (n := { name := s, parent, features }) hp rfl).extend
    (by simp [Tree.push, Tree.size]) features ss

theorem resolve (h : Stores a t) {parent : Option Nat} (hp : t.Holds parent) (path : String)
    (features : List String) :
    (a.resolve parent path features).1 = (t.resolve parent path features).1 ∧
      Stores (a.resolve parent path features).2 (t.resolve parent path features).2 :=
  h.chain hp _ _ features

theorem child? (h : Stores a t) (parent : Option Nat) (s : String) :
    a.child? parent s = t.child? parent s := by
  rw [Arena.child?, Tree.child?, h.levels]
  congr 1
  funext i
  rw [← h.tree, node?_tree]
  cases a.cell? i <;> rfl

theorem walk_some (h : Stores a t) (i : Nat) (ss : List String) :
    a.walk (some i) ss = (t.descend i ss).map some := by
  induction ss generalizing i with
  | nil => rfl
  | cons s ss ih =>
    rw [walk, Tree.descend, h.child?]
    cases t.child? (some i) s with
    | none => rfl
    | some j => exact ih j

/-- The walk through the kept rows finds what the look-up finds; it never comes back to its start. -/
theorem find? (h : Stores a t) (parent : Option Nat) (path : String) :
    a.find? parent path = t.find? parent path := by
  cases hss : segments path with
  | nil => simp [Arena.find?, Tree.find?, hss, walk]
  | cons s ss =>
    have hlead : t.find? parent path = (t.child? parent s).bind (t.descend · ss) := by
      rw [Tree.find?, hss]
    have hwalk : a.walk parent (segments path) = (t.find? parent path).map some := by
      rw [hlead, hss, walk, h.child?]
      cases t.child? parent s with
      | none => rfl
      | some i => exact h.walk_some i ss
    rw [Arena.find?, hwalk]
    cases hfind : t.find? parent path with
    | none => rfl
    | some i =>
      have hne : (some i : Option Nat) ≠ parent := by
        rintro rfl
        exact (Tree.find?_gt h.founded hfind).false
      rw [Option.map_some, Option.bind_some, if_neg hne]

/-- The way from a cell to the one that it continues, and so on, ends at the head of the chain. -/
theorem topWithin (h : Stores a t) {steps i : Nat} (hi : i < t.size) (hsteps : i < steps) :
    a.topWithin steps i = some ((t.chainHead? i).getD i) := by
  induction steps generalizing i with
  | zero => exact absurd hsteps (Nat.not_lt_zero i)
  | succ steps ih =>
    obtain ⟨n, hn⟩ := Tree.exists_node? hi
    obtain ⟨c, hc, -, hcontinued, -⟩ := h.cell hn
    have hhead := Tree.chainHead?_eq (Tree.getElem?_continuations hn) fun p =>
      h.founded.continued?_lt hn
    rw [topWithin_succ hc, hcontinued, hhead]
    cases hp : n.continued? with
    | none => rfl
    | some p =>
      have hlt := h.founded.continued?_lt hn hp
      exact ih (by omega) (by omega)

theorem top (h : Stores a t) {i : Nat} (hi : i < t.size) :
    a.top i = some ((t.chainHead? i).getD i) :=
  h.topWithin hi (by rwa [h.size])

theorem chainHead? (h : Stores a t) {i : Nat} (hi : i < t.size) :
    a.chainHead? i = some (t.chainHead? i) := by
  obtain ⟨n, hn⟩ := Tree.exists_node? hi
  obtain ⟨c, hc, -, hcontinued, -⟩ := h.cell hn
  have hhead := Tree.chainHead?_eq (Tree.getElem?_continuations hn) fun p =>
    h.founded.continued?_lt hn
  rw [Arena.chainHead?, hc]
  change (match c.continued with
    | none => some none
    | some p => (a.top p).bind fun head => some (some head)) = _
  rw [hcontinued, hhead]
  cases hp : n.continued? with
  | none => rfl
  | some p =>
    have hlt := h.founded.continued?_lt hn hp
    change (a.top p).bind _ = _
    rw [h.top (by omega)]
    rfl

/-- A path is laid the same way in both, and the first of its new nodes is found from the last. -/
theorem mergeChain (h : Stores a t) {parent : Option Nat} (hp : t.Holds parent) (path : String)
    (features : List String) :
    ∃ b, a.mergeChain parent path features =
        some ((t.overlay parent path features).head, (t.overlay parent path features).leaf, b) ∧
      Stores b (t.overlay parent path features).tree := by
  have hknown : (((pathPrefixes path).map (a.find? parent)).takeWhile (·.isSome)).filterMap id =
      t.followed parent path := by
    rw [Tree.followed, funext (h.find? parent)]
  rw [Arena.mergeChain, hknown, Tree.overlay]
  cases hlast : (t.followed parent path).getLast? with
  | none =>
    obtain ⟨hleaf, hstores⟩ := h.resolve hp path features
    have hchain := Tree.chain_eq t parent (Tree.chainSegments path).1
      (Tree.chainSegments path).2 features
    have hresolve : t.resolve parent path features =
        (t.size + (Tree.chainSegments path).2.length,
          ⟨t.nodes ++ Tree.chainNodes t.size parent features (Tree.chainSegments path).1
            (Tree.chainSegments path).2⟩) :=
      congrArg Prod.snd hchain
    rw [hresolve] at hleaf hstores
    have hhead := hstores.chainHead? (i := t.size + (Tree.chainSegments path).2.length) (by
      rw [Tree.size_chain]
      exact Nat.lt_succ_self _)
    refine ⟨(a.resolve parent path features).2, ?_, ?_⟩
    · change ((a.resolve parent path features).2.chainHead? (a.resolve parent path features).1).bind
        (fun head => some (some (head.getD (a.resolve parent path features).1),
          (a.resolve parent path features).1, (a.resolve parent path features).2)) =
        some (some (t.chain parent _ _ features).1, (t.chain parent _ _ features).2.1, _)
      rw [hleaf, hhead, Option.bind_some, Tree.chainHead?_last, hchain]
    · change Stores _ (t.chain parent _ _ features).2.2
      rw [hchain]
      exact hstores
  | some last =>
    have hlt : last < t.size := Tree.lt_of_mem_followed (List.mem_of_getLast? hlast)
    cases (segments path).drop (t.followed parent path).length with
    | nil => exact ⟨_, rfl, h.modify last (fun _ => rfl) (fun _ => rfl) fun _ => rfl⟩
    | cons s ss =>
      obtain ⟨hleaf, hstores⟩ := h.chain (Tree.holds_some_iff.2 hlt) s ss features
      exact ⟨_, congrArg some (Prod.ext (congrArg some h.size) (Prod.ext hleaf rfl)), hstores⟩

/-- A declaration without attributes gives none, and giving none changes nothing. -/
theorem give {m : Tree.Overlay} (h : Stores a m.tree) (attributes : Attributes) :
    Stores (a.give m.head m.leaf attributes) (Tree.giveAttributes m attributes) := by
  unfold Arena.give
  by_cases hempty : attributes.isEmpty = true
  · have hsame : Tree.giveAttributes m attributes = m.tree := by
      have hextend : ∀ as : Attributes, as.extend attributes = as := fun as => by
        rw [Attributes.extend, List.isEmpty_iff.1 hempty]
        rfl
      unfold Tree.giveAttributes
      cases m.head with
      | none => exact Tree.modify_of_same _ _ fun n => by rw [hextend]
      | some head => exact Tree.modify_of_same _ _ fun n => by rw [hextend]
    rw [if_pos hempty, hsame]
    exact h
  · rw [if_neg hempty]
    unfold Tree.giveAttributes
    cases m.head with
    | none => exact h.modify m.leaf (fun _ => rfl) (fun _ => rfl) fun _ => rfl
    | some head => exact h.modify head (fun _ => rfl) (fun _ => rfl) fun _ => rfl

theorem hold (h : Stores a t) (i : Nat) (item : Item) :
    Stores (a.modify i (Tree.hold · item)) (t.modify i (Tree.hold · item)) :=
  h.modify i (fun n => (Node.Keeps.hold n item).name) (fun n => (Node.Keeps.hold n item).parent)
    fun n => (Node.Keeps.hold n item).continues

end Stores

theorem putItems_cons (a : Arena) (i : Nat) {item : ItemOf Declaration}
    (h : ∀ d, item ≠ .directory d) (items : List (ItemOf Declaration)) :
    add.putItems a i (item :: items) =
      if item.fitsDirectory then add.putItems (a.modify i (Tree.hold · item)) i items
      else some (.error ⟨item.typeName, "Dir"⟩, a) := by
  cases item with
  | directory d => exact absurd rfl (h d)
  | _ => rfl

theorem misplacedAmong?_cons {item : ItemOf Declaration} (h : ∀ d, item ≠ .directory d)
    (items : List (ItemOf Declaration)) : misplacedAmong? (item :: items) =
      if item.fitsDirectory then misplacedAmong? items else some ⟨item.typeName, "Dir"⟩ := by
  cases item with
  | directory d => exact absurd rfl (h d)
  | _ => rfl

/-- Where no item is misplaced, declarations and items are added the same way in both. -/
theorem stores_add_and_putItems :
    (∀ (d : Declaration) (a : Arena) (t : Tree) (parent : Option Nat), Stores a t →
        t.Holds parent → d.misplaced? = none →
        ∃ b, a.add parent d = some (.ok (t.declare parent d).1, b) ∧
          Stores b (t.declare parent d).2) ∧
      ∀ (items : List (ItemOf Declaration)) (a : Arena) (t : Tree) (i : Nat), Stores a t →
        i < t.size → misplacedAmong? items = none →
        ∃ b, add.putItems a i items = some (.ok (), b) ∧
          Stores b (Tree.declare.declareItems t i items) := by
  refine Declaration.induction ?declaration ?nil ?directory ?other
  case declaration =>
    intro path id features attributes installDir items ih a t parent h hp hfits
    have hfits : misplacedAmong? items = none := hfits
    obtain ⟨b, hmerge, hb⟩ := h.mergeChain hp path features
    have hlt := Tree.leaf_overlay_lt hp path features
    let m := t.overlay parent path features
    have hmarked : Stores ((b.give m.head m.leaf attributes).modify m.leaf (·.marked id installDir))
        ((Tree.giveAttributes m attributes).mark m.leaf id installDir) :=
      (hb.give attributes).modify m.leaf (fun _ => rfl) (fun _ => rfl) fun _ => rfl
    have hsize : ((Tree.giveAttributes m attributes).mark m.leaf id installDir).size =
        m.tree.size := by
      simpa using congrArg List.length ((Tree.skeleton_mark _ m.leaf id installDir).trans
        (Tree.skeleton_giveAttributes m attributes))
    obtain ⟨c, hput, hc⟩ := ih _ _ m.leaf hmarked (hsize ▸ hlt) hfits
    refine ⟨c, ?_, hc⟩
    rw [add, hfits]
    change (a.mergeChain parent path features).bind _ = _
    rw [hmerge]
    change (add.putItems _ m.leaf items).bind _ = _
    rw [hput]
    rfl
  case nil =>
    intro a t i h _ _
    exact ⟨a, rfl, h⟩
  case directory =>
    intro d items hd hitems a t i h hi hfits
    obtain ⟨hdfits, hfits⟩ : d.misplaced? = none ∧ misplacedAmong? items = none :=
      Option.or_eq_none_iff.1 hfits
    obtain ⟨b, hadd, hb⟩ := hd a t (some i) h (Tree.holds_some_iff.2 hi) hdfits
    have hsize := (Tree.keeps_declare_and_items.1 d t (some i) h.founded
      (Tree.holds_some_iff.2 hi)).size_le
    obtain ⟨c, hput, hc⟩ := hitems b _ i hb (by omega) hfits
    refine ⟨c, ?_, hc⟩
    change (a.add (some i) d).bind _ = _
    rw [hadd]
    exact hput
  case other =>
    intro item items hitem ih a t i h hi hfits
    rw [misplacedAmong?_cons hitem] at hfits
    have hfit : item.fitsDirectory = true := by
      by_contra hunfit
      rw [if_neg hunfit] at hfits
      cases hfits
    rw [if_pos hfit] at hfits
    rw [putItems_cons a i hitem, if_pos hfit, Tree.declareItems_cons hitem]
    exact ih _ _ i (h.hold i item) (by rwa [Tree.size_modify]) hfits

end Arena

end Installer.Directory
