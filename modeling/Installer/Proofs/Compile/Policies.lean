import Installer.Proofs.Compile.Layouts

/-!
# Policies on empty directories

What becomes of empty directories is decided after all else. Whatever the policy, directories are
laid out with what is written for the items in them, and this takes all identifiers that are taken.
A policy then only leaves layouts out or adds to them what keeps a directory alive, and looks at the
tree alone for that.
-/
namespace Installer
open Identifier Directory Markup Schema

/-- The project with another policy on empty directories. -/
def Project.withPolicy (p : Project) (policy : EmptyDirectoryPolicy) : Project :=
  { p with options.emptyDirectories := policy }

namespace Compile

/-- The layout of a directory, whatever becomes of empty ones. -/
def layout (p : Project) (d : DirectoryIds) : Outline → Emit Layout
  | ⟨i, children⟩ => do
      let content ← contentPart p (nodeAt p i) (d.id i)
      let below ← layouts children
      return ⟨i, content, below⟩
where
  layouts : List Outline → Emit (List Layout)
    | [] => return []
    | o :: os => do
        let l ← layout p d o
        let ls ← layouts os
        return l :: ls

/-- A directory's own element. -/
def shellOf (p : Project) (d : DirectoryIds) (i : Nat) : Element :=
  directoryElement p.directories i (nodeAt p i) (d.id i)

def keeperPart (p : Project) (d : DirectoryIds) (i : Nat) : Part :=
  emptyPart p (d.id i) (nodeAt p i).features

/-- The layouts that a policy makes of a layout: all but the empty ones, or all, with keepers or
without. -/
def Layout.under (p : Project) (d : DirectoryIds) : EmptyDirectoryPolicy → Layout → List Layout
  | .component, l => [l.withKeepers p.directories.holdsPayload (keeperPart p d)]
  | .elide, l => l.pruned p.directories.holdsPayload
  | .keep, l => [l]

theorem hasPayload_nodeAt (p : Project) (i : Nat) :
    (nodeAt p i).hasPayload = p.directories.holdsPayload i := by
  rw [nodeAt, Tree.holdsPayload]
  cases p.directories.node? i <;> rfl

section under

variable (p : Project) (d : DirectoryIds)

/-- Only the policy of leaving out empty directories leaves out layouts. -/
theorem Layout.under_of_elided {i : Nat} {content : Part} {children : List Layout}
    (h : (outline ⟨i, content, children⟩).any p.directories.holdsPayload = false) :
    under p d .elide ⟨i, content, children⟩ = [] := by
  rw [under, pruned_eq, if_neg (by simp [h])]

/-- A layout that is not left out stays where it is, with a keeper where the policy wants one. -/
theorem Layout.under_of_kept (policy : EmptyDirectoryPolicy) {i : Nat} {content : Part}
    {children : List Layout} (h : policy = .elide →
      (outline ⟨i, content, children⟩).any p.directories.holdsPayload = true) :
    under p d policy ⟨i, content, children⟩ =
      [⟨i, content.append (if !(nodeAt p i).hasPayload && children.isEmpty && policy = .component
          then keeperPart p d i else {}), children.flatMap (under p d policy)⟩] := by
  cases policy with
  | component =>
    rw [under, withKeepers_eq, hasPayload_nodeAt]
    have hall : children.flatMap (under p d .component) =
        children.map (withKeepers p.directories.holdsPayload (keeperPart p d)) :=
      List.map_eq_flatMap.symm
    rw [hall]
    cases !p.directories.holdsPayload i && children.isEmpty <;> simp [Part.append_empty]
  | elide =>
    rw [under, pruned_eq, if_pos (h rfl)]
    simp only [Bool.and_eq_true, decide_eq_true_eq, reduceCtorEq, and_false, if_false,
      Part.append_empty]
    rfl
  | keep =>
    have hall : children.flatMap (under p d .keep) = children := List.flatMap_singleton' _
    rw [under, hall]
    simp [Part.append_empty]

end under

/-- A node without payloads has no content and takes no identifiers. -/
theorem contentPart_eq_pure {n : Node} (h : n.hasPayload = false) (p : Project)
    (directory : String) : contentPart p n directory = pure {} := by
  simp only [Node.hasPayload, Node.hasFiles, Bool.or_eq_false_iff, Bool.not_eq_false',
    List.isEmpty_iff] at h
  obtain ⟨⟨⟨hfiles, hsets⟩, hshortcuts⟩, hsettings⟩ := h
  rw [contentPart, hfiles, hsets, hshortcuts, hsettings]
  rfl

/-- The layout of a directory has been written from its node. -/
structure Layout.Fits (p : Project) (d : DirectoryIds) (l : Layout) : Prop where
  furnishes : ∃ a b, Furnishes p (d.id l.index) a (tasksOf (nodeAt p l.index)) l.content b
  bare : p.directories.holdsPayload l.index = false → l.content = {}

/-- Laying out follows the outline and fits every node. -/
theorem fits_layout (p : Project) (d : DirectoryIds) :
    (∀ o a l b, layout p d o a = .ok (l, b) → l.outline = o ∧ ∀ m ∈ l.walk, m.Fits p d) ∧
      ∀ os a ls b, layout.layouts p d os a = .ok (ls, b) →
        ls.map Layout.outline = os ∧ ∀ m ∈ ls.flatMap Layout.walk, m.Fits p d := by
  refine Outline.induction ?node ?nil ?cons
  case node =>
    intro i children ih a l b h
    rw [layout] at h
    obtain ⟨content, c, hcontent, h⟩ := Emit.bind_eq_ok.1 h
    obtain ⟨below, e, hbelow, h⟩ := Emit.bind_eq_ok.1 h
    obtain ⟨rfl, rfl⟩ := Emit.pure_eq_ok.1 h
    obtain ⟨houtlines, hfits⟩ := ih c below e hbelow
    rw [Layout.outline_eq, houtlines, Layout.walk_eq]
    refine ⟨rfl, List.forall_mem_cons.2 ⟨⟨⟨a, c, furnishes_contentPart hcontent⟩, ?_⟩, hfits⟩⟩
    intro hnone
    rw [← hasPayload_nodeAt] at hnone
    rw [contentPart_eq_pure hnone] at hcontent
    exact (Emit.pure_eq_ok.1 hcontent).1.symm
  case nil =>
    intro a ls b h
    obtain ⟨rfl, rfl⟩ := Emit.pure_eq_ok.1 h
    exact ⟨rfl, by simp⟩
  case cons =>
    intro o os ho hos a ls b h
    rw [layout.layouts] at h
    obtain ⟨l, c, hl, h⟩ := Emit.bind_eq_ok.1 h
    obtain ⟨rest, e, hrest, h⟩ := Emit.bind_eq_ok.1 h
    obtain ⟨rfl, rfl⟩ := Emit.pure_eq_ok.1 h
    obtain ⟨houtline, hfits⟩ := ho a l c hl
    obtain ⟨houtlines, hfitsRest⟩ := hos c rest e hrest
    rw [List.map_cons, houtline, houtlines, List.flatMap_cons]
    exact ⟨rfl, List.forall_mem_append.2 ⟨hfits, hfitsRest⟩⟩

/-- An outline in which no node holds payloads is laid out without fail and without identifiers. -/
theorem layout_of_empty (p : Project) (d : DirectoryIds) :
    (∀ o : Outline, (∀ i ∈ o.walk, p.directories.holdsPayload i = false) →
        ∃ l, layout p d o = pure l) ∧
      ∀ os : List Outline, (∀ i ∈ os.flatMap Outline.walk, p.directories.holdsPayload i = false) →
        ∃ ls, layout.layouts p d os = pure ls := by
  refine Outline.induction ?node ?nil ?cons
  case node =>
    intro i children ih h
    rw [Outline.walk_eq] at h
    obtain ⟨hi, hchildren⟩ := List.forall_mem_cons.1 h
    obtain ⟨below, hbelow⟩ := ih hchildren
    rw [← hasPayload_nodeAt] at hi
    exact ⟨⟨i, {}, below⟩, by rw [layout, contentPart_eq_pure hi, hbelow]; rfl⟩
  case nil => exact fun _ => ⟨[], rfl⟩
  case cons =>
    intro o os ho hos h
    rw [List.flatMap_cons] at h
    obtain ⟨ho', hos'⟩ := List.forall_mem_append.1 h
    obtain ⟨l, hl⟩ := ho ho'
    obtain ⟨ls, hls⟩ := hos hos'
    exact ⟨l :: ls, by rw [layout.layouts, hl, hls]; rfl⟩

/-- What is written for a directory under a policy. -/
theorem directoryPart_withPolicy (p : Project) (d : DirectoryIds) (policy : EmptyDirectoryPolicy)
    (i : Nat) (children : List Outline) :
    directoryPart (p.withPolicy policy) d ⟨i, children⟩ =
      if policy = .elide && !(Outline.mk i children).any p.directories.holdsPayload then pure {}
      else contentPart p (nodeAt p i) (d.id i) >>= fun content =>
        directoryPart.directoryParts (p.withPolicy policy) d children >>= fun below =>
          let keeper := if !(nodeAt p i).hasPayload && children.isEmpty && policy = .component
            then keeperPart p d i else {}
          let inside := (content.append keeper).append below
          pure { inside with elements := [(shellOf p d i).pushAll inside.elements] } := by
  rw [directoryPart]
  rfl

section node

variable {p : Project} (d : DirectoryIds) {i : Nat} {children : List Outline}

/-- Where a directory is left out, so is its layout. -/
theorem directoryPart_of_elided
    (hnone : (Outline.mk i children).any p.directories.holdsPayload = false) (a : Allocator) :
    directoryPart (p.withPolicy .elide) d ⟨i, children⟩ a =
      (layout p d ⟨i, children⟩ a).map fun r =>
        (Layout.part.parts (shellOf p d) (r.1.under p d .elide), r.2) := by
  obtain ⟨l, hl⟩ := (layout_of_empty p d).1 ⟨i, children⟩ (by
    simpa [Outline.any, List.any_eq_false] using hnone)
  have houtline := ((fits_layout p d).1 _ a l a (by rw [hl]; rfl)).1
  have hunder : Layout.under p d .elide l = [] := by
    obtain ⟨j, content, below⟩ := l
    exact Layout.under_of_elided p d (by rw [houtline, hnone])
  rw [directoryPart_withPolicy, if_pos (by simpa using hnone), hl]
  change _ = Except.ok (Layout.part.parts (shellOf p d) (Layout.under p d .elide l), a)
  rw [hunder]
  rfl

/-- A directory that stays is written with what the policy makes of the layouts below it. -/
theorem part_under_of_kept {policy : EmptyDirectoryPolicy} {content : Part} {below : List Layout}
    (hchildren : below.map Layout.outline = children)
    (hkept : policy = .elide → (Outline.mk i children).any p.directories.holdsPayload = true) :
    let keeper := if !(nodeAt p i).hasPayload && children.isEmpty && policy = .component
      then keeperPart p d i else {}
    let inside := (content.append keeper).append
      (Layout.part.parts (shellOf p d) (below.flatMap (·.under p d policy)))
    Layout.part.parts (shellOf p d) (Layout.under p d policy ⟨i, content, below⟩) =
      { inside with elements := [(shellOf p d i).pushAll inside.elements] } := by
  subst hchildren
  have hempty : (below.map Layout.outline).isEmpty = below.isEmpty := by
    cases below <;> rfl
  rw [Layout.under_of_kept p d policy (by rwa [Layout.outline_eq]), hempty]
  exact Part.append_empty _

/-- Where a directory stays, it is written as its layout under the policy. -/
theorem directoryPart_of_kept {policy : EmptyDirectoryPolicy}
    (hkept : policy = .elide → (Outline.mk i children).any p.directories.holdsPayload = true)
    (hbelow : ∀ a, directoryPart.directoryParts (p.withPolicy policy) d children a =
      (layout.layouts p d children a).map fun r =>
        (Layout.part.parts (shellOf p d) (r.1.flatMap (·.under p d policy)), r.2))
    (a : Allocator) :
    directoryPart (p.withPolicy policy) d ⟨i, children⟩ a =
      (layout p d ⟨i, children⟩ a).map fun r =>
        (Layout.part.parts (shellOf p d) (r.1.under p d policy), r.2) := by
  rw [directoryPart_withPolicy, if_neg (by simpa using hkept), layout]
  let written (l : Layout) := Layout.part.parts (shellOf p d) (l.under p d policy)
  let row (ls : List Layout) := Layout.part.parts (shellOf p d) (ls.flatMap (·.under p d policy))
  have hcontent : contentPart p (nodeAt p i) (d.id i) a =
      (contentPart p (nodeAt p i) (d.id i) a).map fun r => (id r.1, r.2) := by
    cases contentPart p (nodeAt p i) (d.id i) a <;> rfl
  refine Emit.bind_eq_map id written hcontent fun content b _ => ?_
  refine Emit.bind_eq_map row written (hbelow b) fun below c hlayouts => ?_
  have houtlines := ((fits_layout p d).2 children b below c hlayouts).1
  exact congrArg (fun part => Except.ok (part, c)) (part_under_of_kept d houtlines hkept).symm

end node

/-- Writing directories is laying them out and then doing with the layouts what the policy says. -/
theorem directoryPart_eq_layout (p : Project) (d : DirectoryIds) (policy : EmptyDirectoryPolicy) :
    (∀ o a, directoryPart (p.withPolicy policy) d o a = (layout p d o a).map fun r =>
        (Layout.part.parts (shellOf p d) (r.1.under p d policy), r.2)) ∧
      ∀ os a, directoryPart.directoryParts (p.withPolicy policy) d os a =
        (layout.layouts p d os a).map fun r =>
          (Layout.part.parts (shellOf p d) (r.1.flatMap (·.under p d policy)), r.2) := by
  refine Outline.induction ?node ?nil ?cons
  case node =>
    intro i children ih a
    by_cases hkept : policy = .elide →
        (Outline.mk i children).any p.directories.holdsPayload = true
    · exact directoryPart_of_kept d hkept ih a
    · obtain ⟨rfl, hnone⟩ : policy = .elide ∧
          (Outline.mk i children).any p.directories.holdsPayload = false := by simpa using hkept
      exact directoryPart_of_elided d hnone a
  case nil => exact fun _ => rfl
  case cons =>
    intro o os ho hos a
    rw [directoryPart.directoryParts, layout.layouts]
    let written (l : Layout) := Layout.part.parts (shellOf p d) (l.under p d policy)
    let row (ls : List Layout) := Layout.part.parts (shellOf p d) (ls.flatMap (·.under p d policy))
    refine Emit.bind_eq_map written row (ho a) fun l b _ => ?_
    refine Emit.bind_eq_map row row (hos b) fun ls c _ => ?_
    change Except.ok ((Layout.part.parts _ _).append (Layout.part.parts _ _), c) =
      .ok (Layout.part.parts _ (List.flatMap _ (l :: ls)), c)
    rw [List.flatMap_cons, Layout.parts_append]

end Compile

end Installer
