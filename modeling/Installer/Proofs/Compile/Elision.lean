import Installer.Proofs.Compile.DocumentParts

/-!
# Leaving out empty directories

Where empty directories are left out, an outline is left out only if no directory in it holds a
payload. So the rooms of a project hold the payloads of its tree, all of them and each once, and the
directories of a document are those that are kept, in their order.
-/
namespace Installer

namespace Directory

theorem Node.payloads_eq_nil {n : Node} (h : n.hasPayload = false) : n.payloads = [] := by
  simp only [Node.hasPayload, Node.hasFiles, Bool.or_eq_false_iff, Bool.not_eq_false',
    List.isEmpty_iff] at h
  obtain ⟨⟨⟨hfiles, hsets⟩, hshortcuts⟩, hsettings⟩ := h
  simp [Node.payloads, hfiles, hsets, hshortcuts, hsettings]

theorem Tree.map_snd_payloads (t : Tree) :
    t.payloads.map (·.2) = t.nodes.flatMap Node.payloads := by
  have hfrom : ∀ (ns : List Node) (k : Nat),
      (payloadsFrom k ns).map (·.2) = ns.flatMap Node.payloads := by
    intro ns
    induction ns with
    | nil => intro k; rfl
    | cons n ns ih =>
      intro k
      rw [payloadsFrom, List.map_append, ih, List.map_map, List.flatMap_cons]
      exact congrArg (· ++ _) (List.map_id _)
  exact hfrom t.nodes 0

/-- The payloads of a node, each with the node's number. -/
def Tree.payloadsAt (t : Tree) (i : Nat) : List (Option Nat × Payload) :=
  ((t.node? i).getD { name := "" }).payloads.map (some i, ·)

theorem Tree.payloads_eq_flatMap (t : Tree) :
    t.payloads = (List.range t.size).flatMap t.payloadsAt := by
  have hfrom : ∀ (ns : List Node) (k : Nat), (∀ j < ns.length, t.node? (k + j) = ns[j]?) →
      payloadsFrom k ns = (List.range' k ns.length).flatMap t.payloadsAt := by
    intro ns
    induction ns with
    | nil => intro k _; rfl
    | cons n ns ih =>
      intro k h
      have hn : t.node? k = some n := by simpa using h 0 (by simp)
      have hrest :
          payloadsFrom (k + 1) ns = (List.range' (k + 1) ns.length).flatMap t.payloadsAt := by
        refine ih (k + 1) fun j hj => ?_
        have hj := h (j + 1) (by simpa using hj)
        rwa [show k + (j + 1) = k + 1 + j by omega, List.getElem?_cons_succ] at hj
      rw [payloadsFrom, hrest, List.length_cons, List.range'_succ, List.flatMap_cons, payloadsAt,
        hn, Option.getD_some]
  rw [payloads, hfrom t.nodes 0 fun j _ => by rw [Nat.zero_add]; rfl, List.range_eq_range']
  rfl

end Directory

namespace Compile
open Directory Identifier Markup

/-- What no directory without payloads has, the kept directories have as all directories have. -/
theorem flatMap_kept {α : Type} (p : Project) (f : Nat → List α)
    (hf : ∀ i, p.directories.holdsPayload i = false → f i = []) :
    (∀ o, (kept p o).flatMap (fun u => f u.index) = o.walk.flatMap f) ∧
      ∀ os : List Outline, (os.flatMap (kept p)).flatMap (fun u => f u.index) =
        (os.flatMap Outline.walk).flatMap f := by
  refine Outline.induction ?node ?nil ?cons
  case node =>
    intro i children ih
    rw [kept, keptAll_eq_flatMap]
    by_cases helided : (p.options.emptyDirectories = .elide &&
        !(Outline.mk i children).any p.directories.holdsPayload) = true
    · rw [if_pos helided]
      obtain ⟨_, hany⟩ := Bool.and_eq_true_iff.1 helided
      have hnone : ∀ j ∈ (Outline.mk i children).walk, p.directories.holdsPayload j = false := by
        simpa [Outline.any, List.any_eq_false] using hany
      exact (List.flatMap_eq_nil_iff.2 fun j hj => hf j (hnone j hj)).symm
    · rw [if_neg helided, List.flatMap_cons, ih, Outline.walk_eq, List.flatMap_cons]
  case nil => rfl
  case cons =>
    intro o os ho hos
    rw [List.flatMap_cons, List.flatMap_append, ho, hos, List.flatMap_cons, List.flatMap_append]

/-- The kept directories have what all directories have that hold payloads. -/
theorem flatMap_keptOutlines_perm {α : Type} (p : Project) (f : Nat → List α)
    (hf : ∀ i, p.directories.holdsPayload i = false → f i = []) :
    ((keptOutlines p).flatMap fun o => f o.index).Perm
      ((List.range p.directories.size).flatMap f) := by
  rw [keptOutlines, (flatMap_kept p f hf).2]
  exact p.directories.walk_outlines_perm.flatMap_right _

theorem payloads_nodeAt_eq_nil {p : Project} {i : Nat} (h : p.directories.holdsPayload i = false) :
    (nodeAt p i).payloads = [] := by
  unfold nodeAt
  cases hn : p.directories.node? i with
  | none => rfl
  | some n =>
    rw [Tree.holdsPayload, hn, Option.any_some] at h
    exact Node.payloads_eq_nil h

/-- The directories that are kept are some of all, in their order. -/
theorem map_index_kept_sublist (p : Project) :
    (∀ o, ((kept p o).map (·.index)).Sublist o.walk) ∧
      ∀ os : List Outline, ((os.flatMap (kept p)).map (·.index)).Sublist
        (os.flatMap Outline.walk) := by
  refine Outline.induction ?node ?nil ?cons
  case node =>
    intro i children ih
    rw [kept, keptAll_eq_flatMap, Outline.walk_eq]
    split
    · exact List.nil_sublist _
    · exact ih.cons_cons i
  case nil => exact .slnil
  case cons =>
    intro o os ho hos
    rw [List.flatMap_cons, List.map_append, List.flatMap_cons]
    exact ho.append hos

theorem nodup_index_keptOutlines (p : Project) : ((keptOutlines p).map (·.index)).Nodup :=
  p.directories.nodup_walk_outlines.sublist ((map_index_kept_sublist p).2 _)

theorem lt_size_of_mem_keptOutlines {p : Project} {o : Outline} (h : o ∈ keptOutlines p) :
    o.index < p.directories.size := by
  have hmem := ((map_index_kept_sublist p).2 p.directories.outlines).mem (List.mem_map_of_mem h)
  simpa using p.directories.walk_outlines_perm.mem_iff.1 hmem

/-- An element shows a directory of a project, or the one above all others. -/
inductive ShowsDirectory (p : Project) : Option Nat → Element → Prop where
  | target (inside : List Element) : ShowsDirectory p none (targetDirElement.pushAll inside)
  | node {i : Nat} {n : Node} (hn : p.directories.node? i = some n) (inside : List Element) :
      ShowsDirectory p (some i)
        ((directoryElement p.directories i n ((assignDirectories p).id i)).pushAll inside)

/-- The directories of a document are the one above all others and the kept ones. -/
theorem showsDirectory_of_shows {p : Project} {c : Compiled} {x : Content} (h : Shows p c x) :
    List.Forall₂ (ShowsDirectory p) (none :: (keptOutlines p).map fun o => some o.index)
      (c.document.descendantsNamed "Directory") := by
  have houtlines : (housing p).1.map (·.outline) = keptOutlines p := map_outline_house _ _ _
  rw [Element.descendantsNamed_eq_allNamed, h.allNamed_directory, ← houtlines, List.map_map]
  refine .cons (.target _) (List.forall₂_map_left_iff.2 ?_)
  have hmem : ∀ r ∈ (housing p).1, r.outline ∈ keptOutlines p := by
    intro r hr
    rw [← houtlines]
    exact List.mem_map_of_mem hr
  refine ((List.forall₂_and_left _ _).2 ⟨hmem, h.depicts⟩).imp ?_
  rintro r e ⟨hr, below, _, rfl⟩
  have hlt := lt_size_of_mem_keptOutlines hr
  have hn : p.directories.node? r.outline.index = some (p.directories.nodes[r.outline.index]) :=
    List.getElem?_eq_getElem hlt
  rw [nodeAt_of_node? hn]
  exact .node hn _

/-- A piece with its node as the task that it came from. -/
def assignment (x : Nat × Piece) : Option Nat × Payload × List String :=
  (some x.1, x.2.payload, x.2.features)

theorem map_assignment_house (p : Project) (a : Allocator) (os : List Outline) :
    ((house p a os).1.flatMap fun r => r.pieces.map (r.outline.index, ·)).map assignment =
      os.flatMap fun o => (tasksOf (nodeAt p o.index)).map (some o.index, ·) := by
  induction os generalizing a with
  | nil => rfl
  | cons o os ih =>
    have hroom := congrArg (List.map ((some o.index, ·) : _ → Option Nat × Payload × List String))
      (map_furnish a (tasksOf (nodeAt p o.index)))
    rw [List.map_map] at hroom
    rw [house, List.flatMap_cons, List.flatMap_cons, List.map_append, ih, List.map_map, ← hroom]
    rfl

theorem map_payload_house (p : Project) (a : Allocator) (os : List Outline) :
    (house p a os).1.flatMap (fun r => r.pieces.map fun x => (some r.outline.index, x.payload)) =
      os.flatMap fun o => p.directories.payloadsAt o.index := by
  have hnode : ∀ o : Outline, (tasksOf (nodeAt p o.index)).map (fun t => (some o.index, t.1)) =
      p.directories.payloadsAt o.index := by
    intro o
    rw [Tree.payloadsAt, ← nodeAt, ← map_fst_tasksOf, List.map_map]
    rfl
  have htasks := congrArg (List.map fun t => (t.1, t.2.1)) (map_assignment_house p a os)
  simpa [List.map_flatMap, Function.comp_def, assignment, hnode] using htasks

/-- The kept directories have the payloads of a tree. -/
theorem payloads_perm_kept (p : Project) : p.directories.payloads.Perm
    ((keptOutlines p).flatMap fun o => p.directories.payloadsAt o.index) := by
  have hempty : ∀ i, p.directories.holdsPayload i = false → p.directories.payloadsAt i = [] := by
    intro i hi
    rw [Tree.payloadsAt, ← nodeAt, payloads_nodeAt_eq_nil hi, List.map_nil]
  rw [Tree.payloads_eq_flatMap]
  exact (flatMap_keptOutlines_perm p p.directories.payloadsAt hempty).symm

/-- The rooms of a project hold the payloads of its tree. -/
theorem payloads_perm_housing (p : Project) :
    p.directories.payloads.Perm ((housing p).1.flatMap fun r =>
      r.pieces.map fun x => (some r.outline.index, x.payload)) := by
  rw [housing, map_payload_house]
  exact payloads_perm_kept p

theorem map_payload_productPieces (p : Project) :
    (productPieces p).map (·.payload) = p.settings.map .setting := by
  rw [productPieces, map_payload_furnish, settingTasks, List.map_map]
  rfl

end Compile

end Installer
