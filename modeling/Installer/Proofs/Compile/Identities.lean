import Installer.Proofs.Compile.Elision
import Installer.Proofs.Compile.FeatureForest
import Installer.Proofs.ComponentIds

/-!
# What asks for identifiers

When the directories have their identifiers, the pieces of a document come by theirs in the order of
their making, and then its features, each before those below it. Nothing else asks the allocator
before the user interface. So the files and the features of a document have what a row of identities
takes from the allocator behind the directories.
-/
namespace Installer
open Identifier Directory Markup Schema

def File.identity (f : File) : Schema.Identity :=
  ⟨.file, f.source, f.id⟩

def Feature.identity (f : Feature) : Schema.Identity :=
  ⟨.feature, f.name, f.id⟩

/-- What the identifiers of a forest of features are made from, in document order. -/
def Feature.identitiesOf (fs : List Feature) : List Schema.Identity :=
  (fs.flatMap Feature.walk).map Feature.identity

def Payload.file? : Payload → Option File
  | .file f => some f
  | _ => none

/-- All files of a project, those that patterns matched among them. -/
def Project.files (p : Project) : List File :=
  p.payloads.filterMap Payload.file?

/-- Features take what their authors chose for them. -/
theorem Feature.chosen_identitiesOf (fs : List Feature) :
    chosenOfKind .feature (identitiesOf fs) = (fs.flatMap walk).filterMap (·.id) := by
  rw [chosenOfKind, identitiesOf, List.filter_map, List.filterMap_map]
  simp [identity, Function.comp_def]

theorem Payload.filter_identities (qs : List Payload) :
    (qs.filterMap (·.identity?)).filter (·.kind = .file) =
      (qs.filterMap Payload.file?).map File.identity := by
  induction qs with
  | nil => rfl
  | cons q qs ih =>
    cases q with
    | file f => exact congrArg (f.identity :: ·) ih
    | shortcut s => exact ih
    | setting s => cases s <;> exact ih

/-- No payload is a feature. -/
theorem Payload.kind_ne_feature {q : Payload} {i : Schema.Identity} (h : q.identity? = some i) :
    i.kind ≠ .feature := by
  cases q with
  | setting s => cases s <;> cases h <;> simp
  | _ => cases h; simp

namespace Compile

/-- The tasks of a project are about its payloads, each once. -/
theorem map_fst_allTasks_perm (p : Project) : ((allTasks p).map (·.1)).Perm p.payloads := by
  have hkept : ((keptOutlines p).flatMap fun o => tasksOf (nodeAt p o.index)).map (·.1) =
      ((keptOutlines p).flatMap fun o => p.directories.payloadsAt o.index).map (·.2) := by
    rw [List.map_flatMap, List.map_flatMap]
    refine List.flatMap_congr fun o _ => ?_
    rw [map_fst_tasksOf, Tree.payloadsAt, List.map_map]
    exact (List.map_id _).symm
  rw [allTasks, List.map_append, hkept, Project.payloads, ← Tree.map_snd_payloads]
  refine ((payloads_perm_kept p).symm.map _).append (List.Perm.of_eq ?_)
  rw [settingTasks, List.map_map]
  rfl

/-- The identifier of a piece with what it was made from. -/
def Piece.named? (x : Piece) : Option Named :=
  x.payload.identity?.bind fun i => x.id.map (⟨i, ·⟩)

/-- Furnishing tasks takes their identifiers one after the other. -/
theorem furnish_eq_takeAll (a : Allocator) (ts : List (Payload × List String)) :
    ((furnish a ts).1.filterMap Piece.named?, (furnish a ts).2) =
      takeAll a (ts.filterMap (·.1.identity?)) := by
  induction ts generalizing a with
  | nil => rfl
  | cons t ts ih =>
    have hrest := ih (t.1.identify a).2
    rw [furnish, List.filterMap_cons, List.filterMap_cons, Piece.named?]
    cases hi : t.1.identity? with
    | none =>
      rw [Payload.identify_of_none hi] at hrest ⊢
      exact hrest
    | some i =>
      rw [Payload.identify_of_some hi] at hrest ⊢
      rw [takeAll, ← hrest]
      rfl

/-- Files among pieces have elements with their identifiers, and no other piece is a file. -/
theorem ids_files_pieces (p : Project) (directory : String) {xs : List Piece}
    (hsome : ∀ x ∈ xs, x.id.isSome = !x.payload.isLoose)
    (hverbatim : ∀ x ∈ xs, ∀ f ∈ x.payload.file?, f.attributes.get? "Id" = none) :
    ((xs.map (·.element p directory)).filter (·.name == "File")).filterMap (·.get? "Id") =
      idsOfKind .file (xs.filterMap Piece.named?) := by
  induction xs with
  | nil => rfl
  | cons x xs ih =>
    obtain ⟨hx, hxs⟩ := List.forall_mem_cons.1 hsome
    obtain ⟨hfile, hfiles⟩ := List.forall_mem_cons.1 hverbatim
    have hrest := ih hxs hfiles
    have hname := (x.element_spec p directory).1
    obtain ⟨q, features, id⟩ := x
    rw [List.map_cons, List.filter_cons, hname, List.filterMap_cons]
    cases q with
    | file f =>
      obtain ⟨id, rfl⟩ := Option.isSome_iff_exists.1 hx
      rw [if_pos (by rfl), List.filterMap_cons,
        Piece.get?_id_file p directory (hfile f rfl) features id, hrest]
      rfl
    | shortcut s =>
      rw [if_neg (by simp [Payload.elementName]), hrest]
      cases id <;> rfl
    | setting s =>
      rw [if_neg (by cases s <;> simp [Payload.elementName]), hrest]
      cases s <;> cases id <;> rfl

/-- The elements of a forest have the identifiers that its features take one after the other. -/
structure Identifies (a : Allocator) (fs : List Feature) (es : List Element) (b : Allocator) :
    Prop where
  ids : (Element.allNamed "Feature" es).filterMap (·.get? "Id") =
    (takeAll a (Feature.identitiesOf fs)).1.map (·.id)
  behind : (takeAll a (Feature.identitiesOf fs)).2 = b

theorem Identifies.append {a b c : Allocator} {fs gs : List Feature} {es ds : List Element}
    (h : Identifies a fs es b) (h' : Identifies b gs ds c) :
    Identifies a (fs ++ gs) (es ++ ds) c := by
  have hsplit : takeAll a (Feature.identitiesOf (fs ++ gs)) =
      ((takeAll a (Feature.identitiesOf fs)).1 ++ (takeAll b (Feature.identitiesOf gs)).1,
        (takeAll b (Feature.identitiesOf gs)).2) := by
    rw [Feature.identitiesOf, List.flatMap_append, List.map_append, takeAll_append,
      ← Feature.identitiesOf, h.behind]
    rfl
  constructor
  · rw [Element.allNamed_append, List.filterMap_append, h.ids, h'.ids, hsplit, List.map_append]
  · rw [hsplit]
    exact h'.behind

theorem identifies_featurePart :
    (∀ f, (∀ g ∈ f.walk, g.attributes.get? "Id" = none) → ∀ us a part b,
      featurePart us f a = .ok (part, b) → Identifies a [f] part.elements b) ∧
    ∀ fs : List Feature, (∀ g ∈ fs.flatMap Feature.walk, g.attributes.get? "Id" = none) →
      ∀ us a part b, featurePart.featureParts us fs a = .ok (part, b) →
        Identifies a fs part.elements b := by
  refine Feature.induction ?feature ?nil ?cons
  case feature =>
    intro id name description level allowChange typicalDefault configurableDirectory condition
      children attributes ih hverbatim us a part b h
    let f : Feature := ⟨id, name, description, level, allowChange, typicalDefault,
      configurableDirectory, condition, children, attributes⟩
    rw [Feature.walk_eq] at hverbatim
    obtain ⟨hown, hchildren⟩ := List.forall_mem_cons.1 hverbatim
    rw [featurePart] at h
    obtain ⟨w, c, hw, h⟩ := Emit.bind_eq_ok.1 h
    obtain ⟨_, rfl, rfl⟩ := Schema.emit_eq_ok.1 hw
    obtain ⟨below, d, hbelow, h⟩ := Emit.bind_eq_ok.1 h
    obtain ⟨rfl, rfl⟩ := Emit.pure_eq_ok.1 h
    have hlower := ih hchildren _ _ below d hbelow
    have hrow : takeAll a (Feature.identitiesOf [f]) =
        (⟨f.identity, (f.identity.take a).1⟩ ::
          (takeAll (f.identity.take a).2 (Feature.identitiesOf children)).1,
          (takeAll (f.identity.take a).2 (Feature.identitiesOf children)).2) := by
      rw [Feature.identitiesOf, List.flatMap_singleton, Feature.walk_eq, List.map_cons, takeAll]
      rfl
    obtain ⟨hfeatures, -⟩ := allNamed_featureElement f (some (f.identity.take a).1)
      (usesOf name us) below.elements
    constructor
    · have hid := get?_id_featureElement hown (f.identity.take a).1 (usesOf name us) below.elements
      have hids := congrArg (·.filterMap (·.get? "Id")) hfeatures
      rw [List.filterMap_cons, hid, hlower.ids] at hids
      rw [hrow]
      exact hids
    · rw [hrow]
      exact hlower.behind
  case nil =>
    intro _ us a part b h
    obtain ⟨rfl, rfl⟩ := Emit.pure_eq_ok.1 h
    exact ⟨rfl, rfl⟩
  case cons =>
    intro f fs hf hfs hverbatim us a part b h
    rw [List.flatMap_cons, List.forall_mem_append] at hverbatim
    rw [featurePart.featureParts] at h
    obtain ⟨first, c, hfirst, h⟩ := Emit.bind_eq_ok.1 h
    obtain ⟨rest, d, hrest, h⟩ := Emit.bind_eq_ok.1 h
    obtain ⟨rfl, rfl⟩ := Emit.pure_eq_ok.1 h
    exact (hf hverbatim.1 us a first c hfirst).append (hfs hverbatim.2 _ _ rest d hrest)

theorem identifies_allFeatureParts {p : Project}
    (hp : ∀ f ∈ p.allFeatures, f.attributes.get? "Id" = none) {refs : List ComponentRef}
    {part : FeaturePart} {warnings : List Warning} {a b : Allocator}
    (h : allFeatureParts p refs a = .ok ((part, warnings), b)) :
    Identifies a (documentFeatures p (mentions p.options.defaultFeature refs)) part.elements b := by
  obtain ⟨declared, added, c, hdeclared, hadded, rfl, _⟩ := allFeatureParts_eq_ok h
  have hverbatim : ∀ f ∈ (documentFeatures p (mentions p.options.defaultFeature refs)).flatMap
      Feature.walk, f.attributes.get? "Id" = none := by
    intro f hf
    rcases mem_walk_documentFeatures hf with hf | ⟨name, rfl⟩
    · exact hp f hf
    · rfl
  rw [documentFeatures, List.flatMap_append, List.forall_mem_append] at hverbatim
  exact (identifies_featurePart.2 _ hverbatim.1 _ _ _ _ hdeclared).append
    (identifies_featurePart.2 _ hverbatim.2 _ _ _ _ hadded)

end Compile

end Installer
