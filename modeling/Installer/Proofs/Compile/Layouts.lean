import Installer.Proofs.Compile.Rooms

/-!
# Layouts

The layout of a directory has what is written for the items in it and the layouts of the directories
below. Layouts can be left out where nothing is held, and keepers can be put where a directory has
nothing in it at all. Either is about the directories alone and touches no content that is there.
-/
namespace Installer.Compile
open Directory Markup

/-- A part without its elements. -/
def Part.tally (x : Part) : Part :=
  { x with elements := [] }

theorem Part.append_empty (x : Part) : x.append {} = x := by
  simp [Part.append]

theorem Part.refs_concat (xs : List Part) : (Part.concat xs).refs = xs.flatMap (·.refs) := by
  induction xs with
  | nil => rfl
  | cons x xs ih => rw [List.flatMap_cons, ← ih]; rfl

theorem Part.usesUtil_concat (xs : List Part) :
    (Part.concat xs).usesUtil = xs.any (·.usesUtil) := by
  induction xs with
  | nil => rfl
  | cons x xs ih => rw [List.any_cons, ← ih]; rfl

/-- A directory with the part for the items that it holds itself and the layouts below it. -/
structure Layout where
  index : Nat
  content : Part
  children : List Layout

namespace Layout

/-- Layouts and rows of layouts, by what they are made of. -/
theorem induction {motive : Layout → Prop} {row : List Layout → Prop}
    (node : ∀ i content children, row children → motive ⟨i, content, children⟩)
    (nil : row []) (cons : ∀ l ls, motive l → row ls → row (l :: ls)) :
    (∀ l, motive l) ∧ ∀ ls, row ls := by
  have hl : ∀ l, motive l := @Layout.rec motive row node nil cons
  refine ⟨hl, fun ls => ?_⟩
  induction ls with
  | nil => exact nil
  | cons l ls ih => exact cons l ls (hl l) ih

/-- The directories of a layout without what they hold. -/
def outline : Layout → Outline
  | ⟨i, _, children⟩ => ⟨i, outlines children⟩
where
  outlines : List Layout → List Outline
    | [] => []
    | l :: ls => l.outline :: outlines ls

/-- A layout and all below it, each before those below it. -/
def walk : Layout → List Layout
  | ⟨i, content, children⟩ => ⟨i, content, children⟩ :: walkAll children
where
  walkAll : List Layout → List Layout
    | [] => []
    | l :: ls => l.walk ++ walkAll ls

/-- The element of a layout, where `shell` gives each directory's own element. -/
def element (shell : Nat → Element) : Layout → Element
  | ⟨i, content, children⟩ => (shell i).pushAll (content.elements ++ elements children)
where
  elements : List Layout → List Element
    | [] => []
    | l :: ls => l.element shell :: elements ls

/-- The layout without those in which no directory holds anything: nothing, if it is one of them. -/
def pruned (holds : Nat → Bool) : Layout → List Layout
  | ⟨i, content, children⟩ =>
      if (outline ⟨i, content, children⟩).any holds then [⟨i, content, prunedAll children⟩] else []
where
  prunedAll : List Layout → List Layout
    | [] => []
    | l :: ls => l.pruned holds ++ prunedAll ls

/-- The layout with a keeper in every directory that holds nothing and has none below it. -/
def withKeepers (holds : Nat → Bool) (keeper : Nat → Part) : Layout → Layout
  | ⟨i, content, children⟩ =>
      ⟨i, if !holds i && children.isEmpty then content.append (keeper i) else content,
        withKeepersAll children⟩
where
  withKeepersAll : List Layout → List Layout
    | [] => []
    | l :: ls => l.withKeepers holds keeper :: withKeepersAll ls

/-- The part of a document that a layout is without any policy. -/
def part (shell : Nat → Element) : Layout → Part
  | ⟨i, content, children⟩ =>
      let inside := content.append (parts children)
      { inside with elements := [(shell i).pushAll inside.elements] }
where
  parts : List Layout → Part
    | [] => {}
    | l :: ls => (l.part shell).append (parts ls)

theorem outlines_eq_map (ls : List Layout) : outline.outlines ls = ls.map outline := by
  induction ls with
  | nil => rfl
  | cons l ls ih => rw [outline.outlines, ih, List.map_cons]

theorem walkAll_eq_flatMap (ls : List Layout) : walk.walkAll ls = ls.flatMap walk := by
  induction ls with
  | nil => rfl
  | cons l ls ih => rw [walk.walkAll, ih, List.flatMap_cons]

theorem elements_eq_map (shell : Nat → Element) (ls : List Layout) :
    element.elements shell ls = ls.map (element shell) := by
  induction ls with
  | nil => rfl
  | cons l ls ih => rw [element.elements, ih, List.map_cons]

theorem prunedAll_eq_flatMap (holds : Nat → Bool) (ls : List Layout) :
    pruned.prunedAll holds ls = ls.flatMap (pruned holds) := by
  induction ls with
  | nil => rfl
  | cons l ls ih => rw [pruned.prunedAll, ih, List.flatMap_cons]

theorem withKeepersAll_eq_map (holds : Nat → Bool) (keeper : Nat → Part) (ls : List Layout) :
    withKeepers.withKeepersAll holds keeper ls = ls.map (withKeepers holds keeper) := by
  induction ls with
  | nil => rfl
  | cons l ls ih => rw [withKeepers.withKeepersAll, ih, List.map_cons]

theorem parts_append (shell : Nat → Element) (ls ms : List Layout) :
    part.parts shell (ls ++ ms) = (part.parts shell ls).append (part.parts shell ms) := by
  induction ls with
  | nil => rfl
  | cons l ls ih => rw [List.cons_append, part.parts, ih, part.parts, Part.append_assoc]

section equations

variable (i : Nat) (content : Part) (children : List Layout)

theorem outline_eq : outline ⟨i, content, children⟩ = ⟨i, children.map outline⟩ := by
  rw [outline, outlines_eq_map]

theorem walk_eq : walk ⟨i, content, children⟩ = ⟨i, content, children⟩ :: children.flatMap walk := by
  rw [walk, walkAll_eq_flatMap]

theorem element_eq (shell : Nat → Element) : element shell ⟨i, content, children⟩ =
    (shell i).pushAll (content.elements ++ children.map (element shell)) := by
  rw [element, elements_eq_map]

theorem pruned_eq (holds : Nat → Bool) : pruned holds ⟨i, content, children⟩ =
    if (outline ⟨i, content, children⟩).any holds then
      [⟨i, content, children.flatMap (pruned holds)⟩] else [] := by
  rw [pruned, prunedAll_eq_flatMap]

theorem withKeepers_eq (holds : Nat → Bool) (keeper : Nat → Part) :
    withKeepers holds keeper ⟨i, content, children⟩ =
      ⟨i, if !holds i && children.isEmpty then content.append (keeper i) else content,
        children.map (withKeepers holds keeper)⟩ := by
  rw [withKeepers, withKeepersAll_eq_map]

end equations

/-- The directories of a layout's outline are those in the layout. -/
theorem walk_outline :
    (∀ l : Layout, l.outline.walk = l.walk.map (·.index)) ∧
      ∀ ls : List Layout, (ls.map outline).flatMap Outline.walk =
        (ls.flatMap walk).map (·.index) := by
  refine induction ?node ?nil ?cons
  case node =>
    intro i content children ih
    rw [outline_eq, Outline.walk_eq, walk_eq, List.map_cons, ih]
  case nil => rfl
  case cons =>
    intro l ls hl hls
    rw [List.map_cons, List.flatMap_cons, List.flatMap_cons, List.map_append, hl, hls]

theorem mem_walk_self (l : Layout) : l ∈ l.walk := by
  obtain ⟨i, content, children⟩ := l
  rw [walk_eq]
  exact List.mem_cons_self

/-- What is below a layout that is below another is below that one. -/
theorem walk_subset :
    (∀ l : Layout, ∀ m ∈ l.walk, m.walk ⊆ l.walk) ∧
      ∀ ls : List Layout, ∀ m ∈ ls.flatMap walk, m.walk ⊆ ls.flatMap walk := by
  refine induction ?node ?nil ?cons
  case node =>
    intro i content children ih m hm
    rw [walk_eq] at hm
    rcases List.mem_cons.1 hm with rfl | hm
    · exact List.Subset.refl _
    · rw [walk_eq]
      exact List.Subset.trans (ih m hm) (List.subset_cons_self _ _)
  case nil => simp
  case cons =>
    intro l ls hl hls m hm
    rw [List.flatMap_cons] at hm ⊢
    rcases List.mem_append.1 hm with hm | hm
    · exact List.Subset.trans (hl m hm) (List.subset_append_left _ _)
    · exact List.Subset.trans (hls m hm) (List.subset_append_right _ _)

/-- Every layout ends in one with nothing below it. -/
theorem exists_leaf :
    (∀ l : Layout, ∃ m ∈ l.walk, m.children = []) ∧
      ∀ ls : List Layout, ls ≠ [] → ∃ m ∈ ls.flatMap walk, m.children = [] := by
  refine induction ?node ?nil ?cons
  case node =>
    intro i content children ih
    rw [walk_eq]
    by_cases hchildren : children = []
    · exact ⟨_, List.mem_cons_self, hchildren⟩
    · obtain ⟨m, hm, hleaf⟩ := ih hchildren
      exact ⟨m, List.mem_cons_of_mem _ hm, hleaf⟩
  case nil => exact fun h => absurd rfl h
  case cons =>
    intro l ls hl _ _
    obtain ⟨m, hm, hleaf⟩ := hl
    exact ⟨m, List.mem_append_left _ hm, hleaf⟩

/-- The elements of a part are those of its layouts. -/
theorem elements_part (shell : Nat → Element) :
    (∀ l : Layout, (l.part shell).elements = [l.element shell]) ∧
      ∀ ls : List Layout, (part.parts shell ls).elements = ls.map (element shell) := by
  refine induction ?node ?nil ?cons
  case node =>
    intro i content children ih
    rw [element_eq, ← ih]
    rfl
  case nil => rfl
  case cons =>
    intro l ls hl hls
    rw [List.map_cons, part.parts, Part.append, hl, hls]
    rfl

/-- A part adds up what is reported of the contents of its layouts. -/
theorem tally_part (shell : Nat → Element) :
    (∀ l : Layout, (l.part shell).tally = (Part.concat (l.walk.map (·.content))).tally) ∧
      ∀ ls : List Layout, (part.parts shell ls).tally =
        (Part.concat ((ls.flatMap walk).map (·.content))).tally := by
  have happend : ∀ x y : Part, (x.append y).tally = x.tally.append y.tally := fun _ _ => rfl
  refine induction ?node ?nil ?cons
  case node =>
    intro i content children ih
    rw [walk_eq, List.map_cons, ← List.singleton_append, Part.concat_append, Part.concat_singleton,
      happend, ← ih]
    rfl
  case nil => rfl
  case cons =>
    intro l ls hl hls
    rw [part.parts, happend, hl, hls, List.flatMap_cons, List.map_append, Part.concat_append,
      happend]

theorem refs_parts (shell : Nat → Element) (ls : List Layout) : (part.parts shell ls).refs =
    ((ls.flatMap walk).map (·.content)).flatMap (·.refs) := by
  have htally := congrArg Part.refs ((tally_part shell).2 ls)
  exact htally.trans (Part.refs_concat _)

theorem usesUtil_parts (shell : Nat → Element) (ls : List Layout) :
    (part.parts shell ls).usesUtil = ((ls.flatMap walk).map (·.content)).any (·.usesUtil) := by
  have htally := congrArg Part.usesUtil ((tally_part shell).2 ls)
  exact htally.trans (Part.usesUtil_concat _)

/-- The elements of a name other than a directory's stand in the contents of a layout. -/
theorem allNamed_elements {shell : Nat → Element} (hshell : ∀ i, (shell i).name = "Directory" ∧
    (shell i).elements = []) {name : String} (hname : name ≠ "Directory") :
    (∀ l : Layout, Element.allNamed name [l.element shell] =
        l.walk.flatMap fun m => Element.allNamed name m.content.elements) ∧
      ∀ ls : List Layout, Element.allNamed name (ls.map (element shell)) =
        (ls.flatMap walk).flatMap fun m => Element.allNamed name m.content.elements := by
  refine induction ?node ?nil ?cons
  case node =>
    intro i content children ih
    have hother : ¬ (element shell ⟨i, content, children⟩).name = name := by
      rw [element_eq, Element.pushAll_name, (hshell i).1]
      exact hname.symm
    rw [Element.allNamed_cons, if_neg hother, walk_eq, List.flatMap_cons, ← ih, element_eq,
      Element.elements_pushAll, (hshell i).2]
    simp
  case nil => rfl
  case cons =>
    intro l ls hl hls
    rw [List.map_cons, ← List.singleton_append, Element.allNamed_append, hl, hls,
      List.flatMap_cons, List.flatMap_append]

/-- The directories in the elements of layouts are those elements, if the contents have none. -/
theorem allNamed_directory {shell : Nat → Element} (hshell : ∀ i, (shell i).name = "Directory" ∧
    (shell i).elements = []) :
    (∀ l : Layout, (∀ m ∈ l.walk, Element.allNamed "Directory" m.content.elements = []) →
        Element.allNamed "Directory" [l.element shell] = l.walk.map (element shell)) ∧
      ∀ ls : List Layout,
        (∀ m ∈ ls.flatMap walk, Element.allNamed "Directory" m.content.elements = []) →
        Element.allNamed "Directory" (ls.map (element shell)) =
          (ls.flatMap walk).map (element shell) := by
  refine induction ?node ?nil ?cons
  case node =>
    intro i content children ih h
    rw [walk_eq] at h
    obtain ⟨hcontent, hchildren⟩ := List.forall_mem_cons.1 h
    have hself : (element shell ⟨i, content, children⟩).name = "Directory" := by
      rw [element_eq, Element.pushAll_name, (hshell i).1]
    rw [Element.allNamed_cons, if_pos hself, walk_eq, List.map_cons, ← ih hchildren, element_eq,
      Element.elements_pushAll, (hshell i).2, List.nil_append, Element.allNamed_append, hcontent]
    simp
  case nil => exact fun _ => rfl
  case cons =>
    intro l ls hl hls h
    rw [List.flatMap_cons] at h
    obtain ⟨hfirst, hrest⟩ := List.forall_mem_append.1 h
    rw [List.map_cons, ← List.singleton_append, Element.allNamed_append, hl hfirst, hls hrest,
      List.flatMap_cons, List.map_append]

section pruned

variable {holds : Nat → Bool}

theorem any_of_mem {i : Nat} {content : Part} {children : List Layout} {l : Layout}
    (hl : l ∈ children) (h : l.outline.any holds = true) :
    (outline ⟨i, content, children⟩).any holds = true := by
  obtain ⟨k, hk, hholds⟩ := List.any_eq_true.1 h
  refine List.any_eq_true.2 ⟨k, ?_, hholds⟩
  rw [outline_eq, Outline.walk_eq]
  exact List.mem_cons_of_mem _ (List.mem_flatMap.2 ⟨_, List.mem_map_of_mem hl, hk⟩)

/-- What is left of a layout and all below it is what is left of the layouts, one by one. -/
theorem flatMap_walk_pruned :
    (∀ l : Layout, (l.pruned holds).flatMap walk = l.walk.flatMap (pruned holds)) ∧
      ∀ ls : List Layout, (ls.flatMap (pruned holds)).flatMap walk =
        (ls.flatMap walk).flatMap (pruned holds) := by
  refine induction ?node ?nil ?cons
  case node =>
    intro i content children ih
    rw [walk_eq, List.flatMap_cons, ← ih, pruned_eq]
    by_cases hany : (outline ⟨i, content, children⟩).any holds = true
    · rw [if_pos hany, List.flatMap_singleton, walk_eq, List.singleton_append]
    · -- A directory below one with nothing in it holds nothing either.
      have hnone : children.flatMap (pruned holds) = [] := by
        rw [List.flatMap_eq_nil_iff]
        rintro ⟨j, below, more⟩ hl
        rw [pruned_eq, if_neg fun hsome => hany (any_of_mem hl hsome)]
      rw [if_neg hany, hnone]
      rfl
  case nil => rfl
  case cons =>
    intro l ls hl hls
    rw [List.flatMap_cons, List.flatMap_append, hl, hls, List.flatMap_cons, List.flatMap_append]

/-- What is left of a layout is that layout without those left out below it. -/
theorem mem_pruned {l m : Layout} (h : m ∈ l.pruned holds) :
    m.index = l.index ∧ m.content = l.content ∧ m.walk = l.walk.flatMap (pruned holds) := by
  have hwalk : (l.pruned holds).flatMap walk = l.walk.flatMap (pruned holds) :=
    flatMap_walk_pruned.1 l
  obtain ⟨i, content, children⟩ := l
  rw [pruned_eq] at h hwalk
  split at h
  case isTrue hany =>
    obtain rfl := List.mem_singleton.1 h
    rw [if_pos hany, List.flatMap_singleton] at hwalk
    exact ⟨rfl, rfl, hwalk⟩
  case isFalse => simp at h

theorem exists_mem_pruned_iff {l : Layout} :
    (∃ m, m ∈ l.pruned holds) ↔ ∃ m ∈ l.walk, holds m.index = true := by
  have hany : l.outline.any holds = true ↔ ∃ m ∈ l.walk, holds m.index = true := by
    rw [Outline.any, walk_outline.1, List.any_map, List.any_eq_true]
    rfl
  rw [← hany]
  obtain ⟨i, content, children⟩ := l
  rw [pruned_eq]
  split <;> simp_all

/-- Left out are the directories in which, themselves or anywhere below, nothing is held. The others
keep their contents. -/
theorem walk_pruned (ls : List Layout) :
    ((ls.flatMap (pruned holds)).flatMap walk).map (fun m => (m.index, m.content)) =
      ((ls.flatMap walk).filter fun m => m.outline.any holds).map fun m => (m.index, m.content) := by
  rw [flatMap_walk_pruned.2]
  induction ls.flatMap walk with
  | nil => rfl
  | cons m ms ih =>
    obtain ⟨i, content, children⟩ := m
    rw [List.flatMap_cons, List.map_append, ih, List.filter_cons, pruned_eq]
    split <;> rfl

theorem mem_walk_pruned {ls : List Layout} {m : Layout}
    (hm : m ∈ (ls.flatMap (pruned holds)).flatMap walk) :
    ∃ n ∈ ls.flatMap walk, n.index = m.index ∧ n.content = m.content := by
  have hpair := List.mem_map_of_mem (f := fun m : Layout => (m.index, m.content)) hm
  rw [walk_pruned] at hpair
  obtain ⟨n, hn, heq⟩ := List.mem_map.1 hpair
  exact ⟨n, (List.mem_filter.1 hn).1, Prod.mk.inj heq⟩

/-- What holds nothing and is left out adds nothing to a part. -/
theorem tally_pruned (shell : Nat → Element) {ls : List Layout}
    (h : ∀ m ∈ ls.flatMap walk, holds m.index = false → m.content = {}) :
    (part.parts shell (ls.flatMap (pruned holds))).tally = (part.parts shell ls).tally := by
  have hfilter : ∀ ms : List Layout, (∀ m ∈ ms, holds m.index = false → m.content = {}) →
      Part.concat ((ms.filter fun m => m.outline.any holds).map (·.content)) =
        Part.concat (ms.map (·.content)) := by
    intro ms hms
    induction ms with
    | nil => rfl
    | cons m ms ih =>
      obtain ⟨hm, hrest⟩ := List.forall_mem_cons.1 hms
      rw [List.filter_cons]
      split
      case isTrue => exact congrArg (Part.append m.content) (ih hrest)
      case isFalse hany =>
        have hnone : holds m.index = false := by
          obtain ⟨i, content, children⟩ := m
          rw [Outline.any, outline_eq, Outline.walk_eq, List.any_cons, Bool.or_eq_true,
            not_or] at hany
          exact Bool.eq_false_iff.2 hany.1
        rw [ih hrest, List.map_cons, hm hnone]
        rfl
  have hcontents : ((ls.flatMap (pruned holds)).flatMap walk).map (·.content) =
      ((ls.flatMap walk).filter fun m => m.outline.any holds).map (·.content) := by
    have hpairs := congrArg (List.map Prod.snd) (@walk_pruned holds ls)
    rwa [List.map_map, List.map_map] at hpairs
  rw [(tally_part shell).2, (tally_part shell).2, hcontents, hfilter _ h]

end pruned

section keepers

variable {holds : Nat → Bool} {keeper : Nat → Part}

theorem walk_withKeepers :
    (∀ l : Layout, (l.withKeepers holds keeper).walk = l.walk.map (withKeepers holds keeper)) ∧
      ∀ ls : List Layout, (ls.map (withKeepers holds keeper)).flatMap walk =
        (ls.flatMap walk).map (withKeepers holds keeper) := by
  refine induction ?node ?nil ?cons
  case node =>
    intro i content children ih
    rw [withKeepers_eq, walk_eq, walk_eq, List.map_cons, ih, withKeepers_eq]
  case nil => rfl
  case cons =>
    intro l ls hl hls
    rw [List.map_cons, List.flatMap_cons, hl, hls, List.flatMap_cons, List.map_append]

theorem content_withKeepers (l : Layout) : (l.withKeepers holds keeper).content =
    if !holds l.index && l.children.isEmpty then l.content.append (keeper l.index)
    else l.content := by
  obtain ⟨i, content, children⟩ := l
  rw [withKeepers_eq]

/-- Keepers change nothing of which there is nothing in them. -/
theorem allNamed_withKeepers {name : String}
    (h : ∀ i, Element.allNamed name (keeper i).elements = []) (l : Layout) :
    Element.allNamed name (l.withKeepers holds keeper).content.elements =
      Element.allNamed name l.content.elements := by
  rw [content_withKeepers]
  split
  · rw [Part.append, Element.allNamed_append, h, List.append_nil]
  · rfl

/-- With keepers there are all components that there are without, and perhaps more. -/
theorem refs_withKeepers (shell : Nat → Element) (ls : List Layout) :
    (part.parts shell ls).refs ⊆ (part.parts shell (ls.map (withKeepers holds keeper))).refs := by
  rw [refs_parts, refs_parts, walk_withKeepers.2]
  intro r hr
  simp only [List.mem_flatMap, List.mem_map] at hr ⊢
  obtain ⟨_, ⟨m, hm, rfl⟩, hr⟩ := hr
  refine ⟨_, ⟨_, ⟨m, hm, rfl⟩, rfl⟩, ?_⟩
  rw [content_withKeepers]
  split
  · exact List.mem_append_left _ hr
  · exact hr

theorem usesUtil_withKeepers (shell : Nat → Element)
    (h : ∀ i, (keeper i).usesUtil = false) (ls : List Layout) :
    (part.parts shell (ls.map (withKeepers holds keeper))).usesUtil =
      (part.parts shell ls).usesUtil := by
  rw [usesUtil_parts, usesUtil_parts, walk_withKeepers.2, List.any_map, List.any_map, List.any_map]
  congr 1
  funext m
  simp only [Function.comp_apply, content_withKeepers]
  split
  · rw [Part.append, h, Bool.or_false]
  · rfl

end keepers

end Layout

end Installer.Compile
