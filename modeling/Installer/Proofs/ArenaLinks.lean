import Installer.Proofs.Directory.Arena
import Installer.Proofs.Directory.Outlines
import Installer.Proofs.Directory.Trails

/-!
# Links of an arena

Directories are made by four calls in several ways, and each of them has to keep the parents, the
rows of children and the chains of an arena in step. All loops that follow links end because of
that, and find what a tree reads off its nodes.
-/
namespace Installer.Directory

namespace Arena

/-- Parents come first, every cell is entered once, in the row of its parent or among the roots, the
rows are in the order of the making, and what a cell continues is its parent. -/
structure WellFormed (a : Arena) : Prop where
  parent_lt : ∀ i c p, a.cell? i = some c → c.node.parent = some p → p < i
  entered : ∀ i c, a.cell? i = some c → i ∈ a.level c.node.parent
  once : (a.roots ++ a.cells.flatMap (·.children)).Perm (List.range a.size)
  roots_lt : a.roots.Pairwise (· < ·)
  children_lt : ∀ c ∈ a.cells, c.children.Pairwise (· < ·)
  continued : ∀ c ∈ a.cells, ∀ p, c.continued = some p → c.node.parent = some p

namespace Stores

variable {a : Arena} {t : Tree}

theorem node (h : Stores a t) {i : Nat} {c : Cell} (hc : a.cell? i = some c) :
    t.node? i = some c.node := by
  rw [← h.tree, node?_tree, hc]
  rfl

theorem map_children (h : Stores a t) :
    a.cells.map (·.children) = (List.range t.size).map t.children := by
  refine List.ext_getElem? fun i => ?_
  rw [List.getElem?_map, List.getElem?_map]
  by_cases hi : i < t.size
  · obtain ⟨n, hn⟩ := Tree.exists_node? hi
    obtain ⟨c, hc, -, -, hchildren⟩ := h.cell hn
    have hc : a.cells[i]? = some c := hc
    rw [hc, List.getElem?_range hi, Option.map_some, Option.map_some, hchildren]
  · have hnone : a.cells[i]? = none := List.getElem?_eq_none (by
      have := h.size
      rw [Arena.size] at this
      omega)
    rw [hnone, List.getElem?_eq_none (by simpa using hi)]
    rfl

theorem wellFormed (h : Stores a t) : a.WellFormed where
  parent_lt := by
    intro i c p hc hp
    exact h.founded i p c.node.name (hp ▸ Tree.getElem?_skeleton (h.node hc))
  entered := by
    intro i c hc
    rw [h.levels]
    exact Tree.mem_level_iff.2 ⟨c.node.name, Tree.getElem?_skeleton (h.node hc)⟩
  once := by
    have hroots : a.roots = t.roots := h.levels none
    rw [List.flatMap_def, h.map_children, ← List.flatMap_def, hroots, h.size]
    exact Tree.levels_perm h.founded
  roots_lt := by
    have hroots : a.roots = t.roots := h.levels none
    rw [hroots]
    exact t.pairwise_level none
  children_lt := by
    intro c hc
    obtain ⟨i, hi⟩ := List.mem_iff_getElem?.1 hc
    obtain ⟨d, hd, -, -, hchildren⟩ := h.cell (h.node hi)
    obtain rfl : c = d := Option.some.inj (hi.symm.trans hd)
    rw [hchildren]
    exact t.pairwise_level (some i)
  continued := by
    intro c hc p hp
    obtain ⟨i, hi⟩ := List.mem_iff_getElem?.1 hc
    rw [h.continued i c hi] at hp
    unfold Node.continued? at hp
    split at hp
    · exact hp
    · cases hp

/-- The way up from a node ends at its root. -/
theorem namesWithin (h : Stores a t) {steps i : Nat} (hi : i < t.size) (hsteps : i < steps) :
    a.namesWithin steps i = some (t.trail i).reverse := by
  induction steps generalizing i with
  | zero => exact absurd hsteps (Nat.not_lt_zero i)
  | succ steps ih =>
    obtain ⟨n, hn⟩ := Tree.exists_node? hi
    obtain ⟨c, hc, rfl, -, -⟩ := h.cell hn
    have htrail := Tree.trail_eq h.founded (Tree.getElem?_skeleton hn)
    rw [namesWithin_succ hc, htrail]
    cases hp : c.node.parent with
    | none => rfl
    | some p =>
      have hlt := h.founded i p c.node.name (hp ▸ Tree.getElem?_skeleton hn)
      have habove : a.namesWithin steps p = some (t.trail p).reverse := ih (by omega) (by omega)
      change (a.namesWithin steps p).map (c.node.name :: ·) = _
      rw [habove, Tree.way_some, List.reverse_append]
      rfl

theorem names (h : Stores a t) {i : Nat} (hi : i < t.size) :
    a.names i = some (t.trail i).reverse :=
  h.namesWithin hi (by rwa [h.size])

theorem pathOf (h : Stores a t) {i : Nat} (hi : i < t.size) :
    a.pathOf i = some (t.pathOf i) := by
  rw [Arena.pathOf, h.names hi]
  change some (joinPath (t.trail i).reverse.reverse) = _
  rw [List.reverse_reverse]
  rfl

/-- Down from a node there are no more steps than nodes behind it, since children come later. -/
theorem steps_below (h : Stores a t) {i : Nat} {o : Outline} (ho : o.index ∈ t.children i)
    {steps : Nat} (hsteps : t.size ≤ i + (steps + 1)) :
    o.index < t.size ∧ t.size ≤ o.index + steps := by
  obtain ⟨name, hindex⟩ := Tree.mem_level_iff.1 ho
  have hlt := h.founded o.index i name hindex
  exact ⟨Tree.lt_of_mem_level ho, by omega⟩

/-- The search below a node ends, since the outline at the node does. -/
theorem hasFilesWithin_index (h : Stores a t) :
    (∀ o : Outline, ∀ steps, o.Complete t.children → o.index < t.size →
        t.size ≤ o.index + steps →
        a.hasFilesWithin steps o.index = some (o.any t.holdsFiles)) ∧
      ∀ os : List Outline, ∀ steps, (∀ o ∈ os, o.Complete t.children ∧ o.index < t.size ∧
        t.size ≤ o.index + steps) →
        (os.map (·.index)).anyM (a.hasFilesWithin steps) =
          some (os.any (·.any t.holdsFiles)) := by
  refine Outline.induction ?node ?nil ?cons
  case node =>
    intro i children ih steps hcomplete hi hsteps
    obtain ⟨n, hn⟩ := Tree.exists_node? hi
    obtain ⟨c, hc, rfl, -, hchildren⟩ := h.cell hn
    cases steps with
    | zero => omega
    | succ steps =>
      have hbelow : c.children.anyM (a.hasFilesWithin steps) =
          some (children.any (·.any t.holdsFiles)) := by
        rw [hchildren, ← hcomplete.1]
        refine ih steps fun o ho => ⟨Outline.completeAll_iff.1 hcomplete.2 o ho, ?_⟩
        exact h.steps_below (hcomplete.1 ▸ List.mem_map_of_mem ho) hsteps
      have hany : (Outline.mk i children).any t.holdsFiles =
          (c.node.hasFiles || children.any (·.any t.holdsFiles)) := by
        rw [Outline.any, Outline.walk_eq, List.any_cons, List.any_flatMap, Tree.holdsFiles, hn]
        rfl
      rw [hasFilesWithin_succ hc, hany, hbelow]
      cases c.node.hasFiles <;> rfl
  case nil =>
    intro _ _
    rfl
  case cons =>
    intro o os ho hos steps hall
    obtain ⟨⟨hcomplete, hlt, hsteps⟩, hrest⟩ := List.forall_mem_cons.1 hall
    rw [List.map_cons, List.anyM_cons, ho steps hcomplete hlt hsteps, hos steps hrest,
      List.any_cons]
    cases o.any t.holdsFiles <;> rfl

theorem hasFilesBelow (h : Stores a t) {i : Nat} (hi : i < t.size) :
    a.hasFilesBelow i = some (t.hasFilesBelow i) := by
  obtain ⟨o, ho, rfl, hcomplete⟩ := Tree.exists_outlineAt? h.founded hi
  rw [Arena.hasFilesBelow, h.hasFilesWithin_index.1 o a.size hcomplete hi (by rw [h.size]; omega),
    Tree.hasFilesBelow, ho]
  rfl

/-- The way down from a node ends, since the outline at the node does. -/
theorem chainEndWithin_index (h : Stores a t) :
    (∀ o : Outline, ∀ steps, o.Complete t.children → o.index < t.size →
        t.size ≤ o.index + steps →
        a.chainEndWithin steps o.index = some (o.chainEnd t.holdsFiles)) ∧
      ∀ os : List Outline, ∀ o ∈ os, ∀ steps, o.Complete t.children → o.index < t.size →
        t.size ≤ o.index + steps →
        a.chainEndWithin steps o.index = some (o.chainEnd t.holdsFiles) := by
  refine Outline.induction ?node ?nil ?cons
  case node =>
    intro i children ih steps hcomplete hi hsteps
    obtain ⟨n, hn⟩ := Tree.exists_node? hi
    obtain ⟨c, hc, rfl, -, hchildren⟩ := h.cell hn
    cases steps with
    | zero => omega
    | succ steps =>
      have hholds : t.holdsFiles i = c.node.hasFiles := by
        rw [Tree.holdsFiles, hn]
        rfl
      rw [chainEndWithin_succ hc, hchildren, ← hcomplete.1, ← hholds]
      cases children with
      | nil => cases t.holdsFiles i <;> rfl
      | cons o os =>
        cases os with
        | nil =>
          obtain ⟨hlt, hless⟩ := h.steps_below (o := o) (hcomplete.1 ▸ by simp) hsteps
          have hend := ih o (by simp) steps hcomplete.2.1 hlt hless
          rw [Outline.chainEnd]
          cases t.holdsFiles i
          · exact hend
          · rfl
        | cons u os => cases t.holdsFiles i <;> rfl
  case nil => simp
  case cons =>
    intro o os ho hos u hu
    rcases List.mem_cons.1 hu with rfl | hu
    · exact ho
    · exact hos u hu

theorem installDir? (h : Stores a t) : a.installDir? = some t.installDir? := by
  have hmarked : a.cells.findIdx? (·.node.installDir) = t.nodes.findIdx? (·.installDir) := by
    rw [← h.tree, Arena.tree, List.findIdx?_map]
    rfl
  have hroots : a.roots = t.outlines.map (·.index) := by
    rw [Tree.map_index_outlines h.founded]
    exact h.levels none
  rw [Arena.installDir?, Tree.installDir?, hmarked, hroots]
  cases t.nodes.findIdx? (·.installDir) with
  | some i => rfl
  | none =>
    cases houtlines : t.outlines with
    | nil => rfl
    | cons o os =>
      have hmem : o ∈ t.outlines := by simp [houtlines]
      have hlt : o.index < t.size := by
        have hindex : o.index ∈ t.outlines.map (·.index) := List.mem_map_of_mem hmem
        rw [Tree.map_index_outlines h.founded] at hindex
        exact Tree.lt_of_mem_level hindex
      have hend := h.chainEndWithin_index.1 o a.size (Tree.complete_of_mem_outlines h.founded hmem)
        hlt (by rw [h.size]; omega)
      change (a.chainEndWithin a.size o.index).bind _ = _
      rw [hend]
      rfl

end Stores

end Arena

/-- Only a tree without directories has no installation directory. -/
theorem Tree.installDir?_eq_none {t : Tree} : t.installDir? = none ↔ t.size = 0 := by
  have houtlines : t.outlines = [] ↔ t.size = 0 := by
    constructor
    · intro h
      have hperm := t.walk_outlines_perm
      rw [h] at hperm
      simpa using hperm.length_eq.symm
    · intro h
      have hnodes : t.nodes = [] := List.length_eq_zero_iff.1 h
      rw [outlines, hnodes]
      rfl
  rw [installDir?, Option.or_eq_none_iff, Option.map_eq_none_iff, List.head?_eq_none_iff, houtlines,
    and_iff_right_iff_imp]
  intro h
  rw [List.length_eq_zero_iff.1 h]
  rfl

/-- A call that may make directories: below a node or at the roots, or in a node. -/
inductive Operation where
  | resolve (parent : Option Nat) (path : String) (features : List String)
  | merge (parent : Option Nat) (path : String) (features : List String)
  | add (parent : Option Nat) (d : Declaration)
  | addItems (i : Nat) (items : List Item)

namespace Operation

/-- The call is about a node that is there. -/
def Valid (size : Nat) : Operation → Prop
  | .resolve parent _ _ => ∀ p, parent = some p → p < size
  | .merge parent _ _ => ∀ p, parent = some p → p < size
  | .add parent _ => ∀ p, parent = some p → p < size
  | .addItems i _ => i < size

/-- The tree after a call. A declaration or items that are refused leave it alone. -/
def onTree (t : Tree) : Operation → Tree
  | .resolve parent path features => (t.resolve parent path features).2
  | .merge parent path features => (t.merge parent path features).2
  | .add parent d =>
      match t.add parent d with
      | .ok (_, u) => u
      | .error _ => t
  | .addItems i items =>
      match t.addItems i items with
      | .ok u => u
      | .error _ => t

/-- The arena after a call, if the call ends. -/
def onArena (a : Arena) : Operation → Option Arena
  | .resolve parent path features => some (a.resolve parent path features).2
  | .merge parent path features => (a.mergeChain parent path features).map (·.2.2)
  | .add parent d => (a.add parent d).map (·.2)
  | .addItems i items => (a.addItems i items).map (·.2)

end Operation

namespace Arena

/-- Every call on a node that is there ends, and does to an arena what it does to the tree. -/
theorem Stores.step {a : Arena} {t : Tree} (h : Stores a t) {o : Operation}
    (ho : o.Valid t.size) : ∃ b, o.onArena a = some b ∧ Stores b (o.onTree t) := by
  cases o with
  | resolve parent path features =>
    exact ⟨_, rfl, (h.resolve ho path features).2⟩
  | merge parent path features =>
    obtain ⟨b, hmerge, hb⟩ := h.mergeChain ho path features
    exact ⟨b, by rw [Operation.onArena, hmerge]; rfl, hb⟩
  | add parent d =>
    rw [Operation.onArena, Operation.onTree, Tree.add]
    cases hfits : d.misplaced? with
    | some e =>
      have hrefused : a.add parent d = some (.error e, a) := by
        cases d with
        | mk path id features attributes installDir items =>
          have hfits : misplacedAmong? items = some e := hfits
          rw [Arena.add, hfits]
      exact ⟨a, by rw [hrefused]; rfl, h⟩
    | none =>
      obtain ⟨b, hadd, hb⟩ := stores_add_and_putItems.1 d a t parent h ho hfits
      exact ⟨b, by rw [hadd]; rfl, hb⟩
  | addItems i items =>
    rw [Operation.onArena, Operation.onTree, Tree.addItems, Arena.addItems]
    cases hfits : misplacedAmong? items with
    | some e => exact ⟨a, rfl, h⟩
    | none =>
      obtain ⟨b, hput, hb⟩ := stores_add_and_putItems.2 items a t i h ho hfits
      exact ⟨b, by rw [hput]; rfl, hb⟩

/-- The arenas that calls make, each about a node that is there. -/
inductive Reached : Arena → Prop
  | empty : Reached .empty
  | step {a b : Arena} {o : Operation} (ha : Reached a) (ho : o.Valid a.size)
      (h : o.onArena a = some b) : Reached b

theorem Reached.stores {a : Arena} (h : Reached a) : Stores a a.tree := by
  induction h with
  | empty => exact stores_empty
  | @step a b o _ ho hstep ih =>
    obtain ⟨c, hc, hstores⟩ := ih.step (by rwa [size_tree])
    obtain rfl : b = c := Option.some.inj (hstep.symm.trans hc)
    rwa [hstores.tree]

/-- Whatever calls are made on nodes that are there, with whatever paths, each of them ends and the
arena stays well formed. So all loops that follow its links end, on every node, and find what the
tree of the nodes has; and there is an installation directory as soon as there is any directory. -/
theorem arena_stays_well_formed :
    (∀ a, Reached a → ∀ o : Operation, o.Valid a.size →
      ∃ b, o.onArena a = some b ∧ b.tree = o.onTree a.tree) ∧
    ∀ a, Reached a →
      a.WellFormed ∧
      (∀ i < a.size, a.pathOf i = some (a.tree.pathOf i) ∧
        a.chainHead? i = some (a.tree.chainHead? i) ∧
        a.hasFilesBelow i = some (a.tree.hasFilesBelow i)) ∧
      a.installDir? = some a.tree.installDir? ∧
      (a.installDir? = some none ↔ a.size = 0) := by
  refine ⟨?calls, ?links⟩
  case calls =>
    intro a ha o ho
    obtain ⟨b, hb, hstores⟩ := ha.stores.step (o := o) (by rwa [size_tree])
    exact ⟨b, hb, hstores.tree⟩
  case links =>
    intro a ha
    have h := ha.stores
    refine ⟨h.wellFormed, fun i hi => ?_, h.installDir?, ?_⟩
    · rw [← size_tree] at hi
      exact ⟨h.pathOf hi, h.chainHead? hi, h.hasFilesBelow hi⟩
    · rw [h.installDir?, Option.some_inj, Tree.installDir?_eq_none, size_tree]

/-- Two directories that were made whatever was there, one for each segment. -/
def twoSegments : Arena :=
  (empty.resolve none "Acme\\App" []).2

/-- A declaration for the second of the segments, with a file and an empty path in it. -/
def emptyInside : Declaration where
  path := "App"
  items := [.file { source := "a.txt" }, .directory { path := "" }]

theorem arena_stays_well_formed_empty_path :
    twoSegments.Reached ∧ (Operation.add (some 0) emptyInside).Valid twoSegments.size ∧
      ∃ b, (Operation.add (some 0) emptyInside).onArena twoSegments = some b ∧ b.Reached ∧
        b.WellFormed ∧ b.size = 3 ∧ b.pathOf 2 = some "Acme\\App\\" ∧
        b.chainHead? 1 = some (some 0) ∧ (b.hasFilesBelow 0).isSome ∧
        b.installDir? = some (some 1) := by
  obtain ⟨hcalls, hlinks⟩ := arena_stays_well_formed
  have htwo : twoSegments.Reached :=
    .step (o := .resolve none "Acme\\App" []) .empty (by simp [Operation.Valid]) rfl
  have hvalid : (Operation.add (some 0) emptyInside).Valid twoSegments.size := by
    rintro p ⟨⟩
    rw [← size_tree]
    decide +kernel
  obtain ⟨b, hb, htree⟩ := hcalls _ htwo _ hvalid
  have hreached : b.Reached := .step htwo hvalid hb
  obtain ⟨hwell, hloops, hinstall, -⟩ := hlinks b hreached
  have hsize : b.size = 3 := by
    rw [← size_tree, htree]
    decide +kernel
  refine ⟨htwo, hvalid, b, hb, hreached, hwell, hsize, ?_, ?_, ?_, ?_⟩
  · rw [(hloops 2 (by omega)).1, htree]
    decide +kernel
  · rw [(hloops 1 (by omega)).2.1, htree]
    decide +kernel
  · rw [(hloops 0 (by omega)).2.2]
    rfl
  · rw [hinstall, htree]
    decide +kernel

end Arena

end Installer.Directory
