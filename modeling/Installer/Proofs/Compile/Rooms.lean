import Installer.Proofs.Compile.Contents
import Installer.Proofs.Directory.Outlines
import Mathlib.Data.List.Forall2

/-!
# Rooms

A directory that the document holds is a room: its outline with the pieces of what it holds. Writing
a row of directories furnishes their rooms one after the other, and the document shows each room as
an element with the room's own elements before those of the directories below.
-/
namespace Installer.Compile
open Identifier Directory Markup Schema

/-- The directories of an outline that the document holds, each before those below it. -/
def kept (p : Project) : Outline → List Outline
  | ⟨i, children⟩ =>
      if p.options.emptyDirectories = .elide &&
          !(Outline.mk i children).any p.directories.holdsPayload then []
      else ⟨i, children⟩ :: keptAll children
where
  keptAll : List Outline → List Outline
    | [] => []
    | o :: os => kept p o ++ keptAll os

/-- A directory with the pieces of what it holds. -/
structure Room where
  outline : Outline
  pieces : List Piece

def nodeAt (p : Project) (i : Nat) : Node :=
  (p.directories.node? i).getD { name := "" }

theorem nodeAt_of_node? {p : Project} {i : Nat} {n : Node} (h : p.directories.node? i = some n) :
    nodeAt p i = n := by
  rw [nodeAt, h]
  rfl

/-- The component that keeps an empty directory alive. -/
def emptyBox (directory : String) (features : List String) : Box where
  id := Component.idFor (directory ++ ".EmptyDirectory")
  features
  attributes := []
  content := [Element.named "CreateFolder",
    ((Element.named "RemoveFolder").set "Id" directory).set "On" "uninstall"]

/-- The directory holds nothing, and a component has to keep it alive. -/
def needsKeeper (p : Project) (o : Outline) : Bool :=
  !(nodeAt p o.index).hasPayload && o.children.isEmpty && p.options.emptyDirectories = .component

/-- The component that keeps a directory alive, where one is needed. -/
def keepers (p : Project) (d : DirectoryIds) (o : Outline) : List Box :=
  if needsKeeper p o then [emptyBox (d.id o.index) (nodeAt p o.index).features] else []

namespace Room

def boxes (p : Project) (d : DirectoryIds) (r : Room) : List Box :=
  Compile.boxes p (d.id r.outline.index) r.pieces ++ keepers p d r.outline

/-- The elements of a room that are no directories. -/
def elements (p : Project) (d : DirectoryIds) (r : Room) : List Element :=
  pieceElements p (d.id r.outline.index) r.pieces ++
    (keepers p d r.outline).map (·.element p.seed)

/-- The element shows the room, with directories behind the room's own elements. -/
def Depicts (p : Project) (d : DirectoryIds) (r : Room) (e : Element) : Prop :=
  ∃ below, (∀ b ∈ below, b.name = "Directory") ∧
    e = (directoryElement p.directories r.outline.index (nodeAt p r.outline.index)
      (d.id r.outline.index)).pushAll (r.elements p d ++ below)

end Room

/-- Rooms for directories, furnished one after the other. -/
def house (p : Project) (a : Allocator) : List Outline → List Room × Allocator
  | [] => ([], a)
  | o :: os =>
      let pieces := furnish a (tasksOf (nodeAt p o.index))
      let rest := house p pieces.2 os
      (⟨o, pieces.1⟩ :: rest.1, rest.2)

theorem house_append (p : Project) (a : Allocator) (os us : List Outline) :
    house p a (os ++ us) =
      ((house p a os).1 ++ (house p (house p a os).2 us).1, (house p (house p a os).2 us).2) := by
  induction os generalizing a with
  | nil => rfl
  | cons o os ih => simp [house, ih]

theorem map_outline_house (p : Project) (a : Allocator) (os : List Outline) :
    (house p a os).1.map (·.outline) = os := by
  induction os generalizing a with
  | nil => rfl
  | cons o os ih => simp [house, ih]

/-- The part of a document that shows the rooms of some directories. -/
structure Houses (p : Project) (d : DirectoryIds) (a : Allocator) (os : List Outline) (part : Part)
    (b : Allocator) : Prop where
  ids : (house p a os).2 = b
  refs : part.refs = (house p a os).1.flatMap fun r => (r.boxes p d).map (·.ref)
  entries : part.assigned.filter (·.kind = .component) =
    (house p a os).1.flatMap fun r => (r.boxes p d).map (·.entry)
  directories : ∀ e ∈ part.elements, e.name = "Directory"
  others : (Element.within part.elements).filter (·.name != "Directory") =
    (house p a os).1.flatMap fun r => Element.within (r.elements p d)
  depicts : List.Forall₂ (Room.Depicts p d) (house p a os).1
    (Element.allNamed "Directory" part.elements)

namespace Houses

variable {p : Project} {d : DirectoryIds} {a b c : Allocator} {os us : List Outline}
  {part other : Part}

theorem nil (p : Project) (d : DirectoryIds) (a : Allocator) : Houses p d a [] {} a :=
  ⟨rfl, rfl, rfl, by simp, rfl, .nil⟩

theorem append (h : Houses p d a os part b) (h' : Houses p d b us other c) :
    Houses p d a (os ++ us) (part.append other) c := by
  have hhouse :
      house p a (os ++ us) = ((house p a os).1 ++ (house p b us).1, (house p b us).2) := by
    rw [house_append, h.ids]
  constructor
  · rw [hhouse]
    exact h'.ids
  · rw [hhouse, List.flatMap_append, ← h.refs, ← h'.refs]
    rfl
  · rw [hhouse, List.flatMap_append, ← h.entries, ← h'.entries, ← List.filter_append]
    rfl
  · exact List.forall_mem_append.2 ⟨h.directories, h'.directories⟩
  · rw [hhouse, List.flatMap_append, ← h.others, ← h'.others, ← List.filter_append,
      ← Element.within_append]
    rfl
  · rw [hhouse]
    have hnamed : Element.allNamed "Directory" (part.append other).elements =
        Element.allNamed "Directory" part.elements ++ Element.allNamed "Directory" other.elements :=
      Element.allNamed_append _ _ _
    rw [hnamed]
    exact List.rel_append h.depicts h'.depicts

end Houses

theorem keptAll_eq_flatMap (p : Project) (os : List Outline) :
    kept.keptAll p os = os.flatMap (kept p) := by
  induction os with
  | nil => rfl
  | cons o os ih => rw [kept.keptAll, ih, List.flatMap_cons]

theorem name_of_mem_within_room {p : Project} {d : DirectoryIds} {r : Room} {e : Element}
    (he : e ∈ Element.within (r.elements p d)) : e.name ∈ itemNames := by
  rw [Room.elements, Element.within_append] at he
  rcases List.mem_append.1 he with he | he
  · exact name_of_mem_within_pieces p _ he
  · unfold keepers at he
    split at he
    · rw [List.map_singleton, Box.within_element] at he
      have hcontent : e.name = "Component" ∨ e.name = "CreateFolder" ∨ e.name = "RemoveFolder" := by
        rcases List.mem_cons.1 he with rfl | he
        · exact Or.inl (box_element_name p _)
        · simp [emptyBox, Element.within_cons] at he
          rcases he with rfl | rfl <;> simp
      rcases hcontent with h | h | h <;> rw [h] <;> decide
    · simp at he

/-- The components within a room are the room's. -/
theorem allNamed_component_room (p : Project) (d : DirectoryIds) (r : Room) :
    Element.allNamed "Component" (r.elements p d) = (r.boxes p d).map (·.element p.seed) := by
  rw [Room.elements, Room.boxes, Element.allNamed_append, allNamed_component_pieces,
    List.map_append]
  congr 1
  unfold keepers
  split
  · rw [List.map_singleton, Element.allNamed, Box.within_element, List.filter_cons,
      box_element_name]
    simp [emptyBox, Element.within_cons]
  · rfl

/-- The elements with the name of a payload within a room are those of its pieces. -/
theorem filter_isName_room (p : Project) (d : DirectoryIds) (r : Room) :
    ((Element.within (r.elements p d)).filter (Payload.isName ·.name)).Perm
      (r.pieces.map (·.element p (d.id r.outline.index))) := by
  have hkeepers : (Element.within ((keepers p d r.outline).map (·.element p.seed))).filter
      (Payload.isName ·.name) = [] := by
    unfold keepers
    split
    · rw [List.map_singleton, Box.within_element, List.filter_cons, box_element_name]
      simp [emptyBox, Element.within_cons, Payload.isName]
    · rfl
  rw [Room.elements, Element.within_append, List.filter_append, hkeepers, List.append_nil]
  exact filter_isName_pieces p _ r.pieces

theorem directoryElement_spec (t : Tree) (i : Nat) (n : Node) (id : String) :
    (directoryElement t i n id).name = "Directory" ∧ (directoryElement t i n id).elements = [] := by
  simp [directoryElement]

/-- The elements of a room are no directories. -/
theorem filter_not_directory_room (p : Project) (d : DirectoryIds) (r : Room) :
    (Element.within (r.elements p d)).filter (·.name != "Directory") =
      Element.within (r.elements p d) := by
  rw [List.filter_eq_self]
  intro e he
  have hname := name_of_mem_within_room he
  rw [bne_iff_ne]
  intro heq
  rw [heq] at hname
  exact absurd hname (by decide)

/-- The part for a directory that needs a keeper holds it, and other directories have none. -/
theorem keeper_spec (p : Project) (d : DirectoryIds) (o : Outline) :
    let keeper : Part :=
      if needsKeeper p o then emptyPart p (d.id o.index) (nodeAt p o.index).features else {}
    keeper.elements = (keepers p d o).map (·.element p.seed) ∧
      keeper.refs = (keepers p d o).map (·.ref) ∧
      keeper.assigned.filter (·.kind = .component) = (keepers p d o).map (·.entry) := by
  intro keeper
  simp only [keeper, keepers]
  split
  · exact ⟨rfl, rfl, rfl⟩
  · exact ⟨rfl, rfl, rfl⟩

/-- A room with directories below it, shown in a part. -/
theorem houses_room {p : Project} {d : DirectoryIds} {a b c : Allocator} {o : Outline}
    {os : List Outline} {content below : Part}
    (hcontent : Furnishes p (d.id o.index) a (tasksOf (nodeAt p o.index)) content b)
    (hbelow : Houses p d b os below c) :
    let keeper : Part :=
      if needsKeeper p o then emptyPart p (d.id o.index) (nodeAt p o.index).features else {}
    let inside := (content.append keeper).append below
    Houses p d a (o :: os)
      { inside with elements := [(directoryElement p.directories o.index (nodeAt p o.index)
        (d.id o.index)).pushAll inside.elements] } c := by
  intro keeper inside
  let r : Room := ⟨o, (furnish a (tasksOf (nodeAt p o.index))).1⟩
  have hhouse : house p a (o :: os) = (r :: (house p b os).1, (house p b os).2) := by
    rw [house, hcontent.ids]
  obtain ⟨hkept, hkeptRefs, hkeptEntries⟩ := keeper_spec p d o
  have hinside : inside.elements = r.elements p d ++ below.elements := by
    change (content.elements ++ keeper.elements) ++ below.elements = _
    rw [hcontent.elements, hkept]
    rfl
  let e := (directoryElement p.directories o.index (nodeAt p o.index) (d.id o.index)).pushAll
    inside.elements
  have hname : e.name = "Directory" := (directoryElement_spec _ _ _ _).1
  have helements : e.elements = r.elements p d ++ below.elements := by
    rw [Element.elements_pushAll, (directoryElement_spec _ _ _ _).2, hinside]
    rfl
  constructor
  · rw [hhouse]
    exact hbelow.ids
  · rw [hhouse, List.flatMap_cons, ← hbelow.refs, Room.boxes, List.map_append, ← hkeptRefs]
    change (content.refs ++ keeper.refs) ++ below.refs = _
    rw [hcontent.refs]
  · rw [hhouse, List.flatMap_cons, ← hbelow.entries, Room.boxes, List.map_append, ← hkeptEntries]
    change ((content.assigned ++ keeper.assigned) ++ below.assigned).filter _ = _
    rw [List.filter_append, List.filter_append, hcontent.entries]
  · exact fun x hx => (List.mem_singleton.1 hx) ▸ hname
  · rw [hhouse, List.flatMap_cons, ← hbelow.others]
    change (Element.within [e]).filter _ = _
    rw [Element.within_cons, Element.within_nil, List.append_nil, helements, List.filter_cons,
      Element.within_append, List.filter_append]
    simp [hname, filter_not_directory_room]
  · rw [hhouse]
    have hnone : Element.allNamed "Directory" (r.elements p d) = [] :=
      Element.allNamed_eq_nil_of_names (fun _ => name_of_mem_within_room) (by decide)
    have hnamed : Element.allNamed "Directory" [e] =
        e :: Element.allNamed "Directory" below.elements := by
      rw [Element.allNamed_cons, if_pos hname, helements, Element.allNamed_append, hnone]
      simp
    change List.Forall₂ _ _ (Element.allNamed "Directory" [e])
    rw [hnamed]
    refine .cons ⟨below.elements, hbelow.directories, ?_⟩ hbelow.depicts
    rw [← hinside]

/-- The directories of a row of outlines are written as the rooms of those that are kept. -/
theorem houses_directoryPart (p : Project) (d : DirectoryIds) :
    (∀ o a part b, directoryPart p d o a = .ok (part, b) → Houses p d a (kept p o) part b) ∧
      ∀ os a part b, directoryPart.directoryParts p d os a = .ok (part, b) →
        Houses p d a (os.flatMap (kept p)) part b := by
  refine Outline.induction ?node ?nil ?cons
  case node =>
    intro i children ih a part b h
    rw [directoryPart] at h
    rw [kept, keptAll_eq_flatMap]
    by_cases helided : (p.options.emptyDirectories = .elide &&
        !(Outline.mk i children).any p.directories.holdsPayload) = true
    · simp only [helided, if_true] at h ⊢
      obtain ⟨rfl, rfl⟩ := Emit.pure_eq_ok.1 h
      exact .nil p d a
    · simp only [helided, Bool.false_eq_true, if_false] at h ⊢
      obtain ⟨content, c, hcontent, h⟩ := Emit.bind_eq_ok.1 h
      obtain ⟨below, e, hbelow, h⟩ := Emit.bind_eq_ok.1 h
      obtain ⟨rfl, rfl⟩ := Emit.pure_eq_ok.1 h
      exact houses_room (o := ⟨i, children⟩) (furnishes_contentPart hcontent)
        (ih c below _ hbelow)
  case nil =>
    intro a part b h
    obtain ⟨rfl, rfl⟩ := Emit.pure_eq_ok.1 h
    exact .nil p d a
  case cons =>
    intro o os ho hos a part b h
    rw [directoryPart.directoryParts] at h
    obtain ⟨first, c, hfirst, h⟩ := Emit.bind_eq_ok.1 h
    obtain ⟨rest, e, hrest, h⟩ := Emit.bind_eq_ok.1 h
    obtain ⟨rfl, rfl⟩ := Emit.pure_eq_ok.1 h
    rw [List.flatMap_cons]
    exact (ho a first c hfirst).append (hos c rest e hrest)

end Installer.Compile
