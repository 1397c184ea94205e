import Installer.Proofs.Compile.DocumentParts

/-!
# Where the features of components come from

A declaration names features for its directory and for each of its items. They go to nodes and to
what nodes hold, from there to the components, and no other names get in on the way.
-/
namespace Installer
open Identifier Schema

namespace Directory

/-- The features that an item names for itself or for a file in it. -/
def ItemOf.mentioned {Folder : Type} : ItemOf Folder → List String
  | .file f => f.features
  | .files s => s.features ++ s.files.flatMap (·.features)
  | .shortcut s => s.features
  | .setting s => s.features
  | _ => []

/-- The features that a declaration and all within it name. -/
def Declaration.mentioned : Declaration → List String
  | ⟨_, _, features, _, _, items⟩ => features ++ mentionedAmong items
where
  mentionedAmong : List (ItemOf Declaration) → List String
    | [] => []
    | .directory d :: items => d.mentioned ++ mentionedAmong items
    | item :: items => item.mentioned ++ mentionedAmong items

theorem Declaration.mentionedAmong_cons {item : ItemOf Declaration}
    (h : ∀ d, item ≠ .directory d) (items : List (ItemOf Declaration)) :
    mentioned.mentionedAmong (item :: items) =
      item.mentioned ++ mentioned.mentionedAmong items := by
  cases item with
  | directory d => exact absurd rfl (h d)
  | _ => rfl

/-- The features that a node names, for itself and for what it holds. -/
def Node.mentioned (n : Node) : List String :=
  n.features ++ n.files.flatMap (·.features) ++
    n.fileSets.flatMap (fun s => s.features ++ s.files.flatMap (·.features)) ++
    n.shortcuts.flatMap (·.features) ++ n.settings.flatMap (·.features)

theorem mentioned_addFeatures (n : Node) (features : List String) :
    (n.addFeatures features).mentioned ⊆ n.mentioned ++ features := by
  intro f hf
  simp only [Node.mentioned, List.mem_append, Tree.mem_features_addFeatures] at hf ⊢
  rcases hf with ((((hf | hf) | hf) | hf) | hf) | hf
  · simp [hf]
  · simp [hf]
  -- What the directory holds is as it was.
  all_goals
    rw [Node.addFeatures] at hf
    simp [hf]

theorem mentioned_hold (n : Node) (item : Item) :
    (Tree.hold n item).mentioned ⊆ n.mentioned ++ item.mentioned := by
  intro f hf
  cases item with
  | directory | feature | property | media | dialog => exact List.mem_append_left _ hf
  | file | files | shortcut | setting =>
    simp only [Tree.hold, Node.mentioned, ItemOf.mentioned, List.flatMap_append, List.mem_append,
      List.flatMap_cons, List.flatMap_nil, List.append_nil] at hf ⊢
    tauto

namespace Tree

/-- The features that the nodes of a tree name. -/
def mentioned (t : Tree) : List String :=
  t.nodes.flatMap (·.mentioned)

theorem mentioned_modify (t : Tree) (i : Nat) {f : Node → Node} {fs : List String}
    (hf : ∀ n, (f n).mentioned ⊆ n.mentioned ++ fs) :
    (t.modify i f).mentioned ⊆ t.mentioned ++ fs := by
  intro x hx
  obtain ⟨n, hn, hx⟩ := List.mem_flatMap.1 hx
  obtain ⟨j, hj⟩ := List.getElem?_of_mem hn
  rw [modify, List.getElem?_modify] at hj
  obtain ⟨m, hm, rfl⟩ := Option.map_eq_some_iff.1 hj
  have hmem : m ∈ t.nodes := List.mem_of_getElem? hm
  by_cases hij : i = j
  · rw [if_pos hij] at hx
    rcases List.mem_append.1 (hf m hx) with hx | hx
    · exact List.mem_append_left _ (List.mem_flatMap.2 ⟨m, hmem, hx⟩)
    · exact List.mem_append_right _ hx
  · rw [if_neg hij] at hx
    exact List.mem_append_left _ (List.mem_flatMap.2 ⟨m, hmem, hx⟩)

theorem mentioned_modify_of_eq (t : Tree) (i : Nat) {f : Node → Node}
    (hf : ∀ n, (f n).mentioned = n.mentioned) : (t.modify i f).mentioned ⊆ t.mentioned := by
  have hsubset : (t.modify i f).mentioned ⊆ t.mentioned ++ [] :=
    mentioned_modify t i fun n => by simp [hf n]
  simpa using hsubset

/-- A chain names the features that it was made with. -/
theorem mentioned_chain (t : Tree) (parent : Option Nat) (s : String)
    (ss features : List String) :
    (t.chain parent s ss features).2.2.mentioned ⊆ t.mentioned ++ features := by
  rw [chain_eq]
  intro x hx
  obtain ⟨n, hn, hx⟩ := List.mem_flatMap.1 hx
  rcases List.mem_append.1 hn with hn | hn
  · exact List.mem_append_left _ (List.mem_flatMap.2 ⟨n, hn, hx⟩)
  · obtain ⟨name, above, continues, rfl⟩ := mem_chainNodes hn
    have hfeatures : x ∈ features := by simpa [Node.mentioned] using hx
    exact List.mem_append_right _ hfeatures

theorem mentioned_overlay (t : Tree) (parent : Option Nat) (path : String)
    (features : List String) :
    (t.overlay parent path features).tree.mentioned ⊆ t.mentioned ++ features := by
  simp only [overlay]
  split
  · exact mentioned_chain t parent _ _ features
  · exact mentioned_modify t _ fun n => mentioned_addFeatures n features
  · exact mentioned_chain t _ _ _ features

theorem mentioned_giveAttributes (m : Overlay) (attributes : Attributes) :
    (giveAttributes m attributes).mentioned ⊆ m.tree.mentioned := by
  unfold giveAttributes
  cases m.head with
  | none => exact mentioned_modify_of_eq _ _ fun _ => rfl
  | some head => exact mentioned_modify_of_eq _ _ fun _ => rfl

theorem mentioned_mark (t : Tree) (i : Nat) (id : Option String) (installDir : Bool) :
    (t.mark i id installDir).mentioned ⊆ t.mentioned :=
  mentioned_modify_of_eq _ _ fun _ => rfl

/-- A tree with a declaration names no features but those of both. -/
theorem mentioned_declare_and_items :
    (∀ d : Declaration, ∀ (t : Tree) (parent : Option Nat),
      (t.declare parent d).2.mentioned ⊆ t.mentioned ++ d.mentioned) ∧
    ∀ items : List (ItemOf Declaration), ∀ (t : Tree) (i : Nat),
      (declare.declareItems t i items).mentioned ⊆
        t.mentioned ++ Declaration.mentioned.mentionedAmong items := by
  refine Declaration.induction ?declaration ?nil ?directory ?other
  case declaration =>
    intro path id features attributes installDir items ih t parent x hx
    let m := t.overlay parent path features
    rcases List.mem_append.1 (ih _ m.leaf hx) with hx | hx
    · have hgiven := mentioned_mark (giveAttributes m attributes) m.leaf id installDir hx
      have hlaid := mentioned_overlay t parent path features (mentioned_giveAttributes m _ hgiven)
      rcases List.mem_append.1 hlaid with hx | hx
      · exact List.mem_append_left _ hx
      · exact List.mem_append_right _ (List.mem_append_left _ hx)
    · exact List.mem_append_right _ (List.mem_append_right _ hx)
  case nil =>
    intro t i
    exact List.subset_append_left _ _
  case directory =>
    intro d items hd hitems t i x hx
    rw [Declaration.mentioned.mentionedAmong, ← List.append_assoc]
    rcases List.mem_append.1 (hitems _ i hx) with hx | hx
    · exact List.mem_append_left _ (hd t (some i) hx)
    · exact List.mem_append_right _ hx
  case other =>
    intro item items hitem ih t i x hx
    rw [declareItems_cons hitem] at hx
    rw [Declaration.mentionedAmong_cons hitem, ← List.append_assoc]
    rcases List.mem_append.1 (ih _ i hx) with hx | hx
    · exact List.mem_append_left _ (mentioned_modify t i (fun n => mentioned_hold n item) hx)
    · exact List.mem_append_right _ hx

end Tree

end Directory

open Directory

/-- The features that a project names for its directories and items. -/
def Project.mentioned (p : Project) : List String :=
  p.directories.mentioned ++ p.settings.flatMap (·.features)

namespace Compile

theorem mem_of_mem_nearest {name : String} {levels : List (List String)}
    (h : name ∈ nearest levels) : ∃ level ∈ levels, name ∈ level := by
  unfold nearest at h
  cases hfind : levels.find? (!·.isEmpty) with
  | none => simp [hfind] at h
  | some level =>
    rw [hfind] at h
    exact ⟨level, List.mem_of_find?_eq_some hfind, h⟩

theorem mem_of_mem_settingTasks {name : String} {features : List String} {ss : List Setting}
    {t : Payload × List String} (ht : t ∈ settingTasks features ss) (hname : name ∈ t.2) :
    name ∈ features ∨ name ∈ ss.flatMap (·.features) := by
  obtain ⟨s, hs, rfl⟩ := List.mem_map.1 ht
  obtain ⟨level, hlevel, hmem⟩ := mem_of_mem_nearest hname
  rcases List.mem_pair.1 hlevel with rfl | rfl
  · exact Or.inr (List.mem_flatMap.2 ⟨s, hs, hmem⟩)
  · exact Or.inl hmem

/-- What a directory holds is for features that its node names. -/
theorem mem_of_mem_tasksOf {n : Node} {name : String} {t : Payload × List String}
    (ht : t ∈ tasksOf n) (hname : name ∈ t.2) : name ∈ n.mentioned := by
  simp only [tasksOf, List.mem_append, or_assoc] at ht
  simp only [Node.mentioned, List.mem_append, or_assoc]
  rcases ht with ht | ht | ht | ht
  · obtain ⟨f, hf, rfl⟩ := List.mem_map.1 ht
    obtain ⟨level, hlevel, hmem⟩ := mem_of_mem_nearest hname
    rcases List.mem_pair.1 hlevel with rfl | rfl
    · exact Or.inr (Or.inl (List.mem_flatMap.2 ⟨f, hf, hmem⟩))
    · exact Or.inl hmem
  · obtain ⟨⟨s, f⟩, hpair, rfl⟩ := List.mem_map.1 ht
    obtain ⟨s', hs, hrow⟩ := List.mem_flatMap.1 hpair
    obtain ⟨f', hfile, heq⟩ := List.mem_map.1 hrow
    obtain ⟨rfl, rfl⟩ := Prod.mk.inj heq
    obtain ⟨level, hlevel, hmem⟩ := mem_of_mem_nearest hname
    have hset : level ⊆ s'.features ++ s'.files.flatMap (·.features) ∨ level = n.features := by
      rcases List.mem_cons.1 hlevel with rfl | hlevel
      · exact Or.inl fun g hg => List.mem_append_right _ (List.mem_flatMap.2 ⟨f', hfile, hg⟩)
      · rcases List.mem_pair.1 hlevel with rfl | rfl
        · exact Or.inl (List.subset_append_left _ _)
        · exact Or.inr rfl
    rcases hset with hset | hown
    · exact Or.inr (Or.inr (Or.inl (List.mem_flatMap.2 ⟨s', hs, hset hmem⟩)))
    · exact Or.inl (hown ▸ hmem)
  · obtain ⟨s, hs, rfl⟩ := List.mem_map.1 ht
    obtain ⟨level, hlevel, hmem⟩ := mem_of_mem_nearest hname
    rcases List.mem_pair.1 hlevel with rfl | rfl
    · exact Or.inr (Or.inr (Or.inr (Or.inl (List.mem_flatMap.2 ⟨s, hs, hmem⟩))))
    · exact Or.inl hmem
  · rcases mem_of_mem_settingTasks ht hname with hown | hsettings
    · exact Or.inl hown
    · exact Or.inr (Or.inr (Or.inr (Or.inr hsettings)))

theorem mentioned_nodeAt (p : Project) (i : Nat) :
    (nodeAt p i).mentioned ⊆ p.directories.mentioned := by
  intro name hname
  unfold nodeAt at hname
  cases hn : p.directories.node? i with
  | none => simp [hn, Node.mentioned] at hname
  | some n =>
    rw [hn, Option.getD_some] at hname
    exact List.mem_flatMap.2 ⟨n, List.mem_of_getElem? hn, hname⟩

theorem mem_house {p : Project} {a : Allocator} {os : List Outline} {r : Room}
    (hr : r ∈ (house p a os).1) :
    ∃ b, r.pieces = (furnish b (tasksOf (nodeAt p r.outline.index))).1 := by
  induction os generalizing a with
  | nil => simp [house] at hr
  | cons o os ih =>
    rcases List.mem_cons.1 hr with rfl | hr
    · exact ⟨a, rfl⟩
    · exact ih hr

/-- The components of pieces are for the features of their tasks. -/
theorem mem_task_of_mem_boxes {p : Project} {directory : String} {a : Allocator}
    {ts : List (Payload × List String)} {b : Box} (hb : b ∈ boxes p directory (furnish a ts).1) :
    ∃ t ∈ ts, b.features = t.2 := by
  obtain ⟨x, hx, hbox⟩ := List.mem_filterMap.1 hb
  have hfeatures : b.features = x.features := by
    unfold Piece.box? at hbox
    split at hbox
    · simp at hbox
    · rw [← Option.some.inj hbox]
      rfl
  have hmem : x.features ∈ (furnish a ts).1.map (·.features) := List.mem_map_of_mem hx
  rw [map_features_furnish] at hmem
  obtain ⟨t, ht, htx⟩ := List.mem_map.1 hmem
  exact ⟨t, ht, hfeatures.trans htx.symm⟩

/-- Every component is for features that the project names. -/
theorem features_of_mem_allBoxes {p : Project} {b : Box} (hb : b ∈ allBoxes p) :
    b.features ⊆ p.mentioned := by
  intro name hname
  rcases List.mem_append.1 hb with hb | hb
  · obtain ⟨r, hr, hb⟩ := List.mem_flatMap.1 hb
    refine List.mem_append_left _ (mentioned_nodeAt p r.outline.index ?_)
    rcases List.mem_append.1 hb with hb | hb
    · obtain ⟨c, hpieces⟩ := mem_house hr
      rw [hpieces] at hb
      obtain ⟨t, ht, hfeatures⟩ := mem_task_of_mem_boxes hb
      exact mem_of_mem_tasksOf ht (hfeatures ▸ hname)
    · unfold keepers at hb
      split at hb
      · rw [List.mem_singleton.1 hb] at hname
        have hown : name ∈ (nodeAt p r.outline.index).features := hname
        simp [Node.mentioned, hown]
      · simp at hb
  · obtain ⟨t, ht, hfeatures⟩ := mem_task_of_mem_boxes hb
    rw [hfeatures] at hname
    rcases mem_of_mem_settingTasks ht hname with hname | hname
    · simp at hname
    · exact List.mem_append_right _ hname

end Compile

end Installer
