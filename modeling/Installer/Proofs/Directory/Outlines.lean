import Installer.Directory.Outline
import Installer.Proofs.Directory.Levels
import Mathlib.Data.List.Perm.Basic

/-!
# Outlines of trees

The outlines of a tree hold every node once, and where every parent is an earlier node each node
stands right below its parent, beside all other children of the parent.
-/
namespace Installer.Directory

namespace Outline

/-- Outlines and rows of outlines, by what they are made of. -/
theorem induction {motive : Outline → Prop} {row : List Outline → Prop}
    (node : ∀ i children, row children → motive ⟨i, children⟩) (nil : row [])
    (cons : ∀ o os, motive o → row os → row (o :: os)) :
    (∀ o, motive o) ∧ ∀ os, row os := by
  have ho : ∀ o, motive o := @Outline.rec motive row node nil cons
  refine ⟨ho, fun os => ?_⟩
  induction os with
  | nil => exact nil
  | cons o os ih => exact cons o os (ho o) ih

theorem walk_eq (i : Nat) (children : List Outline) :
    walk ⟨i, children⟩ = i :: children.flatMap walk := by
  rw [walk, walkAll_eq_flatMap]

/-- Gathering loses no node and doubles none. -/
theorem walk_gather_perm (i : Nat) (ns : List Node) :
    ((gather i ns).flatMap (·.2.walk)).Perm (List.range' i ns.length) := by
  induction ns generalizing i with
  | nil => exact .nil
  | cons n ns ih =>
    have hsplit : (((gather (i + 1) ns).filter (·.1 == some i)).flatMap (·.2.walk) ++
        ((gather (i + 1) ns).filter (·.1 != some i)).flatMap (·.2.walk)).Perm
        ((gather (i + 1) ns).flatMap (·.2.walk)) := by
      rw [← List.flatMap_append]
      exact (List.filter_append_perm _ _).flatMap_right _
    rw [gather, List.flatMap_cons, walk_eq, List.flatMap_map, List.cons_append,
      List.length_cons, List.range'_succ]
    exact (hsplit.trans (ih (i + 1))).cons i

/-- A node that is put below no other has no parent among the nodes between. -/
theorem parent_of_mem_gather {i : Nat} {ns : List Node} {x : Option Nat × Outline}
    (hx : x ∈ gather i ns) {p : Nat} (hp : x.1 = some p) : p < i ∨ x.2.index ≤ p := by
  induction ns generalizing i with
  | nil => simp [gather] at hx
  | cons n ns ih =>
    rcases List.mem_cons.1 hx with rfl | hx
    · change p < i ∨ i ≤ p
      omega
    · obtain ⟨hx, hne⟩ := List.mem_filter.1 hx
      have hpi : p ≠ i := by
        rintro rfl
        simp [hp] at hne
      have := ih hx
      omega

/-- Each node of the outline has its parent right above it, the first of them `parent`. -/
def Fits (parentOf : Nat → Option (Option Nat)) (parent : Option Nat) : Outline → Prop
  | ⟨i, children⟩ => parentOf i = some parent ∧ fitAll (some i) children
where
  fitAll (parent : Option Nat) : List Outline → Prop
    | [] => True
    | o :: os => Fits parentOf parent o ∧ fitAll parent os

theorem fitAll_iff {parentOf : Nat → Option (Option Nat)} {parent : Option Nat}
    {os : List Outline} : Fits.fitAll parentOf parent os ↔ ∀ o ∈ os, Fits parentOf parent o := by
  induction os with
  | nil => simp [Fits.fitAll]
  | cons o os ih => simp [Fits.fitAll, ih]

/-- Every gathered outline fits below the parent that it names. -/
theorem fits_gather {parentOf : Nat → Option (Option Nat)} {i : Nat} {ns : List Node}
    (h : ∀ k n, ns[k]? = some n → parentOf (i + k) = some n.parent) {x : Option Nat × Outline}
    (hx : x ∈ gather i ns) : Fits parentOf x.1 x.2 := by
  induction ns generalizing i x with
  | nil => simp [gather] at hx
  | cons n ns ih =>
    have hrest : ∀ y ∈ gather (i + 1) ns, Fits parentOf y.1 y.2 := fun y hy =>
      ih (fun k m hm => by
        rw [show i + 1 + k = i + (k + 1) by omega]
        exact h (k + 1) m (by simpa using hm)) hy
    rcases List.mem_cons.1 hx with rfl | hx
    · refine ⟨by simpa using h 0 n rfl, fitAll_iff.2 fun o ho => ?_⟩
      obtain ⟨y, hy, rfl⟩ := List.mem_map.1 ho
      obtain ⟨hy, hyi⟩ := List.mem_filter.1 hy
      have hyi : y.1 = some i := by simpa using hyi
      exact hyi ▸ hrest y hy
    · exact hrest x (List.mem_filter.1 hx).1

/-- Below each node of the outline stand all its children, in their order. -/
def Complete (childrenOf : Nat → List Nat) : Outline → Prop
  | ⟨i, children⟩ => children.map (·.index) = childrenOf i ∧ completeAll children
where
  completeAll : List Outline → Prop
    | [] => True
    | o :: os => Complete childrenOf o ∧ completeAll os

theorem completeAll_iff {childrenOf : Nat → List Nat} {os : List Outline} :
    Complete.completeAll childrenOf os ↔ ∀ o ∈ os, Complete childrenOf o := by
  induction os with
  | nil => simp [Complete.completeAll]
  | cons o os ih => simp [Complete.completeAll, ih]

/-- What is gathered for a parent before all nodes are the nodes that name it. -/
theorem map_index_gather (ns : List Node) (i : Nat) {q : Option Nat}
    (hq : ∀ p, q = some p → p < i) :
    ((gather i ns).filter (·.1 == q)).map (·.2.index) =
      Tree.levelFrom q i (Tree.skeleton ⟨ns⟩) := by
  induction ns generalizing i with
  | nil => rfl
  | cons n ns ih =>
    have hqi : q ≠ some i := fun h => (hq i h).false
    have hrest : ((gather (i + 1) ns).filter (·.1 != some i)).filter (·.1 == q) =
        (gather (i + 1) ns).filter (·.1 == q) := by
      rw [List.filter_filter]
      refine List.filter_congr fun x _ => ?_
      by_cases hx : x.1 = q
      · simp [hx, hqi]
      · simp [hx]
    have hlevel : Tree.levelFrom q i (Tree.skeleton ⟨n :: ns⟩) =
        (if n.parent = q then [i] else []) ++ Tree.levelFrom q (i + 1) (Tree.skeleton ⟨ns⟩) := by
      rw [show Tree.skeleton ⟨n :: ns⟩ = [(n.name, n.parent)] ++ Tree.skeleton ⟨ns⟩ from rfl,
        Tree.levelFrom_append]
      congr 1
      by_cases hn : n.parent = q <;> simp [Tree.levelFrom, hn]
    have hlater := ih (i + 1) fun p hp => (hq p hp).trans (Nat.lt_succ_self i)
    rw [gather, List.filter_cons, hrest, hlevel, ← hlater]
    by_cases hn : n.parent = q <;> simp [hn]

/-- Gathering puts all later nodes that name a node below it. -/
theorem complete_gather {childrenOf : Nat → List Nat} {i : Nat} {ns : List Node}
    (h : ∀ k < ns.length, childrenOf (i + k) =
      Tree.levelFrom (some (i + k)) (i + k + 1) (Tree.skeleton ⟨ns.drop (k + 1)⟩))
    {x : Option Nat × Outline} (hx : x ∈ gather i ns) : Complete childrenOf x.2 := by
  induction ns generalizing i x with
  | nil => simp [gather] at hx
  | cons n ns ih =>
    have hrest : ∀ y ∈ gather (i + 1) ns, Complete childrenOf y.2 := fun y hy =>
      ih (fun k hk => by
        rw [show i + 1 + k = i + (k + 1) by omega]
        exact h (k + 1) (by simpa using hk)) hy
    rcases List.mem_cons.1 hx with rfl | hx
    · refine ⟨?_, completeAll_iff.2 fun o ho => ?_⟩
      · rw [List.map_map]
        exact (map_index_gather ns (i + 1) (by simp)).trans (h 0 (by simp)).symm
      · obtain ⟨y, hy, rfl⟩ := List.mem_map.1 ho
        exact hrest y (List.mem_filter.1 hy).1
    · exact hrest x (List.mem_filter.1 hx).1

end Outline

namespace Tree

def parentOf (t : Tree) (i : Nat) : Option (Option Nat) :=
  (t.node? i).map (·.parent)

theorem walk_outlines_perm (t : Tree) :
    (t.outlines.flatMap Outline.walk).Perm (List.range t.size) := by
  rw [outlines, List.flatMap_map, List.range_eq_range']
  exact Outline.walk_gather_perm 0 t.nodes

theorem nodup_walk_outlines (t : Tree) : (t.outlines.flatMap Outline.walk).Nodup :=
  t.walk_outlines_perm.nodup_iff.2 List.nodup_range

/-- Nothing that was gathered for a whole tree is left below a parent. -/
theorem parent_of_mem_gather {t : Tree} (ht : Founded t) {x : Option Nat × Outline}
    (hx : x ∈ Outline.gather 0 t.nodes) : x.1 = none ∧ x.2.Fits t.parentOf none := by
  have hfits : x.2.Fits t.parentOf x.1 :=
    Outline.fits_gather (fun k n hn => by simp [parentOf, node?, hn]) hx
  cases hparent : x.1 with
  | none => exact ⟨rfl, hparent ▸ hfits⟩
  | some p =>
    have hnode : t.parentOf x.2.index = some (some p) := by
      rw [← hparent]
      cases hx2 : x.2 with
      | mk i children =>
        rw [hx2] at hfits
        exact hfits.1
    obtain ⟨n, hn, hnp⟩ := Option.map_eq_some_iff.1 hnode
    have hlt : p < x.2.index := ht x.2.index p n.name (hnp ▸ getElem?_skeleton hn)
    have := Outline.parent_of_mem_gather hx hparent
    omega

/-- The outlines of a tree are those of its roots. -/
theorem fits_of_mem_outlines {t : Tree} (ht : Founded t) {o : Outline} (ho : o ∈ t.outlines) :
    o.Fits t.parentOf none := by
  obtain ⟨x, hx, rfl⟩ := List.mem_map.1 ho
  exact (parent_of_mem_gather ht hx).2

theorem map_index_outlines {t : Tree} (ht : Founded t) :
    t.outlines.map (·.index) = t.roots := by
  have hall : (Outline.gather 0 t.nodes).filter (·.1 == none) = Outline.gather 0 t.nodes :=
    List.filter_eq_self.2 fun x hx => by rw [(parent_of_mem_gather ht hx).1]; rfl
  rw [roots, level_eq_levelFrom, outlines, List.map_map]
  exact (congrArg _ hall.symm).trans (Outline.map_index_gather t.nodes 0 (by simp))

/-- The outlines of a tree hold all children of all nodes. -/
theorem complete_of_mem_outlines {t : Tree} (ht : Founded t) {o : Outline} (ho : o ∈ t.outlines) :
    o.Complete t.children := by
  obtain ⟨x, hx, rfl⟩ := List.mem_map.1 ho
  refine Outline.complete_gather (fun k hk => ?_) hx
  have hsplit : t.skeleton = t.skeleton.take (k + 1) ++ skeleton ⟨t.nodes.drop (k + 1)⟩ := by
    rw [skeleton, skeleton, List.map_drop, List.take_append_drop]
  have hlength : (t.skeleton.take (k + 1)).length = k + 1 := by
    rw [List.length_take, length_skeleton]
    exact Nat.min_eq_left hk
  -- A child of the node comes after it.
  have hnone : levelFrom (some k) 0 (t.skeleton.take (k + 1)) = [] := by
    rw [List.eq_nil_iff_forall_not_mem]
    intro i hi
    have hlevel : i ∈ t.level (some k) := by
      rw [level_eq_levelFrom, hsplit, levelFrom_append]
      exact List.mem_append_left _ hi
    obtain ⟨name, hname⟩ := mem_level_iff.1 hlevel
    have hlt := List.mem_range'_1.1 ((levelFrom_sublist (some k) 0 _).mem hi)
    have := ht i k name hname
    omega
  rw [Nat.zero_add, children, level_eq_levelFrom, hsplit, levelFrom_append, hnone, hlength,
    Nat.zero_add]
  rfl

/-- The outline at a node is one of the node, and complete among complete ones. -/
theorem outlineAt?_eq_some (childrenOf : Nat → List Nat) (i : Nat) :
    (∀ o : Outline, ∀ u, outlineAt? o.children i = some u →
        u.index = i ∧ (o.Complete childrenOf → u.Complete childrenOf)) ∧
      ∀ os : List Outline, ∀ u, outlineAt? os i = some u →
        u.index = i ∧ ((∀ o ∈ os, o.Complete childrenOf) → u.Complete childrenOf) := by
  refine Outline.induction ?node ?nil ?cons
  case node =>
    intro j children ih u hu
    exact ⟨(ih u hu).1, fun h => (ih u hu).2 (Outline.completeAll_iff.1 h.2)⟩
  case nil =>
    intro u hu
    simp [outlineAt?] at hu
  case cons =>
    rintro ⟨j, children⟩ os ho hos u hu
    rw [outlineAt?] at hu
    by_cases hij : i = j
    · rw [if_pos hij] at hu
      obtain rfl := Option.some.inj hu
      exact ⟨hij.symm, fun h => h _ (by simp)⟩
    · rw [if_neg hij, Option.or_eq_some_iff] at hu
      rcases hu with hu | ⟨-, hu⟩
      · exact ⟨(ho u hu).1, fun h => (ho u hu).2 (h _ (by simp))⟩
      · exact ⟨(hos u hu).1, fun h => (hos u hu).2 fun o hmem => h o (by simp [hmem])⟩

theorem isSome_outlineAt? (i : Nat) :
    (∀ o : Outline, i ∈ o.walk → i = o.index ∨ (outlineAt? o.children i).isSome) ∧
      ∀ os : List Outline, i ∈ os.flatMap Outline.walk → (outlineAt? os i).isSome := by
  refine Outline.induction ?node ?nil ?cons
  case node =>
    intro j children ih hi
    rw [Outline.walk_eq] at hi
    exact (List.mem_cons.1 hi).imp id ih
  case nil => simp
  case cons =>
    rintro ⟨j, children⟩ os ho hos hi
    rw [List.flatMap_cons] at hi
    rw [outlineAt?]
    by_cases hij : i = j
    · simp [hij]
    · rw [if_neg hij, Option.isSome_or, Bool.or_eq_true]
      rcases List.mem_append.1 hi with hi | hi
      · exact Or.inl ((ho hi).resolve_left hij)
      · exact Or.inr (hos hi)

theorem outlineAt?_singleton (j : Nat) (children : List Outline) (i : Nat) :
    outlineAt? [⟨j, children⟩] i = if i = j then some ⟨j, children⟩ else outlineAt? children i := by
  rw [outlineAt?, outlineAt?, Option.or_none]

theorem outlineAt?_cons (o : Outline) (os : List Outline) (i : Nat) :
    outlineAt? (o :: os) i = (outlineAt? [o] i).or (outlineAt? os i) := by
  obtain ⟨j, children⟩ := o
  rw [outlineAt?, outlineAt?, outlineAt?, Option.or_none]
  split <;> rfl

/-- What is found in a row of outlines is within them. -/
theorem walk_subset_of_outlineAt? {i : Nat} :
    (∀ o u, outlineAt? [o] i = some u → i ∈ u.walk ∧ u.walk ⊆ o.walk) ∧
      ∀ os u, outlineAt? os i = some u → i ∈ u.walk ∧ u.walk ⊆ os.flatMap Outline.walk := by
  refine Outline.induction ?node ?nil ?cons
  case node =>
    intro j children ih u hu
    rw [outlineAt?_singleton] at hu
    rw [Outline.walk_eq j]
    split at hu
    · next hij =>
      obtain rfl := Option.some.inj hu
      rw [Outline.walk_eq]
      exact ⟨hij ▸ List.mem_cons_self, List.Subset.refl _⟩
    · obtain ⟨hi, hsubset⟩ := ih u hu
      exact ⟨hi, List.Subset.trans hsubset (List.subset_cons_self _ _)⟩
  case nil => simp [outlineAt?]
  case cons =>
    intro o os ho hos u hu
    rw [outlineAt?_cons, Option.or_eq_some_iff] at hu
    rw [List.flatMap_cons]
    rcases hu with hu | ⟨-, hu⟩
    · exact ⟨(ho u hu).1, List.Subset.trans (ho u hu).2 (List.subset_append_left _ _)⟩
    · exact ⟨(hos u hu).1, List.Subset.trans (hos u hu).2 (List.subset_append_right _ _)⟩

/-- Every node of a tree has an outline with all that is below it. -/
theorem exists_outlineAt? {t : Tree} (ht : Founded t) {i : Nat} (hi : i < t.size) :
    ∃ o, outlineAt? t.outlines i = some o ∧ o.index = i ∧ o.Complete t.children := by
  have hmem : i ∈ t.outlines.flatMap Outline.walk :=
    t.walk_outlines_perm.mem_iff.2 (List.mem_range.2 hi)
  obtain ⟨o, ho⟩ := Option.isSome_iff_exists.1 ((isSome_outlineAt? i).2 _ hmem)
  obtain ⟨hindex, hcomplete⟩ := (outlineAt?_eq_some t.children i).2 _ o ho
  exact ⟨o, ho, hindex, hcomplete fun u hu => complete_of_mem_outlines ht hu⟩

end Tree

end Installer.Directory
