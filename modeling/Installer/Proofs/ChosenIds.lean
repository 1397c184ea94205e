import Installer.Proofs.Compile.Identities
import Installer.Proofs.Compile.Numbering
import Installer.Proofs.Identifier.Requests

/-!
# Chosen and generated identifiers

Authors may give files and features identifiers of their own. The allocator is not told of these, so
it may make one of them for another file or feature; it is told of the one for the installation
directory only, and keeps clear of that. Nothing else can go wrong: where chosen identifiers are
pairwise distinct, those of the files and of the features in a document are so exactly when no
generated one is a chosen one.
-/
namespace Installer
open Identifier Directory Markup Schema

/-- No two files have one identifier from their author, nor have two features, and no verbatim
attribute gives one. -/
structure Project.ChoosesIds (p : Project) : Prop where
  files : (p.files.filterMap (·.id)).Nodup
  features : (p.allFeatures.filterMap (·.id)).Nodup
  verbatimFiles : ∀ f ∈ p.files, f.attributes.get? "Id" = none
  verbatimFeatures : ∀ f ∈ p.allFeatures, f.attributes.get? "Id" = none

instance (p : Project) : Decidable p.ChoosesIds :=
  decidable_of_iff ((p.files.filterMap (·.id)).Nodup ∧ (p.allFeatures.filterMap (·.id)).Nodup ∧
      (∀ f ∈ p.files, f.attributes.get? "Id" = none) ∧
      ∀ f ∈ p.allFeatures, f.attributes.get? "Id" = none)
    ⟨fun ⟨hf, hg, hvf, hvg⟩ => ⟨hf, hg, hvf, hvg⟩,
      fun h => ⟨h.files, h.features, h.verbatimFiles, h.verbatimFeatures⟩⟩

namespace Compile

def writtenFeatures (p : Project) : List Feature :=
  documentFeatures p (mentions p.options.defaultFeature ((allBoxes p).map (·.ref)))

/-- What asks for identifiers behind the directories of a project: its payloads, and then the
features of its document. -/
def identities (p : Project) : List Schema.Identity :=
  (allTasks p).filterMap (·.1.identity?) ++ Feature.identitiesOf (writtenFeatures p)

/-- The identifiers of payloads and features, with what they were made from. -/
def namedIds (p : Project) : List Named :=
  (takeAll (assignDirectories p).ids (identities p)).1

/-- The identifiers of a kind that the allocator makes where the author chose none. -/
def generatedIds (p : Project) (kind : Kind) : List String :=
  madeOfKind kind (namedIds p)

/-- The identifiers that were chosen for files are those of the project's files. -/
theorem chosen_files_perm (p : Project) :
    (chosenOfKind .file (identities p)).Perm (p.files.filterMap (·.id)) := by
  have hfeatures : chosenOfKind .file (Feature.identitiesOf (writtenFeatures p)) = [] := by
    rw [chosenOfKind, Feature.identitiesOf, List.filter_map]
    simp [Feature.identity, Function.comp_def]
  have hfiles : chosenOfKind .file ((allTasks p).filterMap (·.1.identity?)) =
      (((allTasks p).map (·.1)).filterMap Payload.file?).filterMap (·.id) := by
    have hfst : (allTasks p).filterMap (·.1.identity?) =
        ((allTasks p).map (·.1)).filterMap (·.identity?) := by
      rw [List.filterMap_map]
      rfl
    rw [chosenOfKind, hfst, Payload.filter_identities, List.filterMap_map]
    rfl
  rw [identities, chosenOfKind_append, hfiles, hfeatures, List.append_nil]
  exact ((map_fst_allTasks_perm p).filterMap _).filterMap _

/-- The identifiers that were chosen for features are those of the declared ones. -/
theorem chosen_features (p : Project) :
    chosenOfKind .feature (identities p) = p.allFeatures.filterMap (·.id) := by
  have hpayloads : chosenOfKind .feature ((allTasks p).filterMap (·.1.identity?)) = [] := by
    have hnone : ((allTasks p).filterMap (·.1.identity?)).filter (·.kind = .feature) = [] := by
      rw [List.filter_eq_nil_iff]
      intro i hi
      obtain ⟨t, _, ht⟩ := List.mem_filterMap.1 hi
      simpa using Payload.kind_ne_feature ht
    rw [chosenOfKind, hnone, List.filterMap_nil]
  rw [identities, chosenOfKind_append, hpayloads, Feature.chosen_identitiesOf, writtenFeatures,
    filterMap_id_documentFeatures, List.nil_append]

theorem idsBehindPieces_eq (p : Project) :
    idsBehindPieces p = (furnish (assignDirectories p).ids (allTasks p)).2 := by
  rw [allTasks, furnish_append, house_eq_furnish, idsBehindPieces, housing]

/-- The pieces come by their identifiers first, and the features take theirs behind them. -/
theorem namedIds_eq (p : Project) : namedIds p = (allPieces p).filterMap Piece.named? ++
    (takeAll (idsBehindPieces p) (Feature.identitiesOf (writtenFeatures p))).1 := by
  rw [namedIds, identities, takeAll_append, ← furnish_eq_takeAll, allPieces_eq, idsBehindPieces_eq]

theorem kind_of_mem_features {a : Allocator} {fs : List Feature} {x : Named}
    (hx : x ∈ (takeAll a (Feature.identitiesOf fs)).1) : x.identity.kind = .feature := by
  obtain ⟨f, _, hf⟩ := List.mem_map.1 (identity_mem_of_mem_takeAll hx)
  rw [← hf]
  rfl

/-- The identifiers of files are those of pieces. -/
theorem idsOfKind_file (p : Project) :
    idsOfKind .file (namedIds p) = idsOfKind .file ((allPieces p).filterMap Piece.named?) := by
  have hnone : (takeAll (idsBehindPieces p) (Feature.identitiesOf (writtenFeatures p))).1.filter
      (·.identity.kind = .file) = [] := by
    rw [List.filter_eq_nil_iff]
    intro x hx
    simp [kind_of_mem_features hx]
  rw [namedIds_eq, idsOfKind, List.filter_append, hnone, List.append_nil]
  rfl

/-- The identifiers of features are those that they take behind the pieces. -/
theorem idsOfKind_feature (p : Project) : idsOfKind .feature (namedIds p) =
    (takeAll (idsBehindPieces p) (Feature.identitiesOf (writtenFeatures p))).1.map (·.id) := by
  have hnone : ((allPieces p).filterMap Piece.named?).filter (·.identity.kind = .feature) = [] := by
    rw [List.filter_eq_nil_iff]
    intro x hx
    obtain ⟨y, _, hy⟩ := List.mem_filterMap.1 hx
    obtain ⟨i, hi, hmap⟩ := Option.bind_eq_some_iff.1 hy
    obtain ⟨id, _, rfl⟩ := Option.map_eq_some_iff.1 hmap
    simpa using Payload.kind_ne_feature hi
  have hall : (takeAll (idsBehindPieces p) (Feature.identitiesOf (writtenFeatures p))).1.filter
      (·.identity.kind = .feature) =
        (takeAll (idsBehindPieces p) (Feature.identitiesOf (writtenFeatures p))).1 := by
    rw [List.filter_eq_self]
    intro x hx
    simp [kind_of_mem_features hx]
  rw [namedIds_eq, idsOfKind, List.filter_append, hnone, hall, List.nil_append]

section document

variable {p : Project} {c : Compiled} (hp : p.ChoosesIds) (hc : p.compile = .ok c)
include hp hc

/-- The files of a document have the identifiers of the project's files. -/
theorem idsOf_file_perm : (c.document.idsOf "File").Perm (idsOfKind .file (namedIds p)) := by
  obtain ⟨x, hx⟩ := shows_of_compile hc
  have hsome : ∀ x ∈ allPieces p, x.id.isSome = !x.payload.isLoose := by
    intro x hmem
    rw [allPieces_eq] at hmem
    exact isSome_id_of_mem_furnish hmem
  have hverbatim : ∀ x ∈ allPieces p, ∀ f ∈ x.payload.file?, f.attributes.get? "Id" = none := by
    intro x hmem f hf
    exact hp.verbatimFiles f
      (List.mem_filterMap.2 ⟨_, payload_mem_of_mem_allPieces hmem, hf⟩)
  have hids : ∀ directory (xs : List Piece), (∀ x ∈ xs, x ∈ allPieces p) →
      ((xs.map (·.element p directory)).filter (·.name == "File")).filterMap (·.get? "Id") =
        idsOfKind .file (xs.filterMap Piece.named?) := fun directory xs hxs =>
    ids_files_pieces p directory (fun x hx => hsome x (hxs x hx))
      fun x hx => hverbatim x (hxs x hx)
  refine (hx.idsOf_perm rfl).trans (List.Perm.of_eq ?_)
  have hrooms : ((housing p).1.flatMap fun r => ((r.pieces.map
      (·.element p ((assignDirectories p).id r.outline.index))).filter (·.name == "File")).filterMap
        (·.get? "Id")) =
      (housing p).1.flatMap fun r => idsOfKind .file (r.pieces.filterMap Piece.named?) :=
    List.flatMap_congr fun r hr => hids _ _ fun x hx =>
      List.mem_append_left _ (List.mem_flatMap.2 ⟨r, hr, hx⟩)
  rw [idsOfKind_file, allPieces, payloadElements, List.filter_append, List.filterMap_append,
    hids _ _ fun x hx => List.mem_append_right _ hx, List.filter_flatMap, List.filterMap_flatMap,
    hrooms, List.filterMap_append, idsOfKind_append, List.filterMap_flatMap]
  simp only [idsOfKind, List.filter_flatMap, List.map_flatMap]

/-- The features of a document have the identifiers of the project's features. -/
theorem idsOf_feature : c.document.idsOf "Feature" = idsOfKind .feature (namedIds p) := by
  obtain ⟨x, hx⟩ := shows_of_compile hc
  obtain ⟨part, warnings, b, hrun, hfeatures, _⟩ := hx.written
  rw [Element.idsOf_eq, hx.allNamed_features (by decide) (by decide) (by decide), hfeatures,
    (identifies_allFeatureParts hp.verbatimFeatures hrun).ids, idsOfKind_feature]
  rfl

end document

/-- Giving a directory its identifier frees none that is in use. -/
theorem taken_directoryId_subset (p : Project) (installDir : Option Nat) (i : Nat) (n : Node)
    (parent : Option String) (s : Numbering) :
    s.ids.taken ⊆ (directoryId p installDir i n parent s).2.ids.taken := by
  unfold directoryId
  split
  · exact List.Subset.refl _
  · split
    · exact List.Subset.refl _
    · split
      · exact List.Subset.refl _
      · split
        · exact List.Subset.refl _
        · exact List.subset_cons_self _ _

/-- The identifiers of the directory above all others and of the installation directory are in use
before any payload asks for its own. -/
theorem mem_taken_of_told {p : Project} {id : String}
    (h : id = targetDirId ∨ p.options.installDirId = some id) :
    id ∈ (assignDirectories p).ids.taken := by
  rw [ids_assignDirectories]
  refine numbered_run (R := fun s _ u => s.ids.taken ⊆ u.ids.taken)
    (fun _ => List.Subset.refl _) List.Subset.trans
    (fun s r => taken_directoryId_subset p _ r.index (nodeAt p r.index) r.below s) ?_
  have hreserve := fun (a : Allocator) (given : String) =>
    a.mem_taken_serve (.reserve given) id
  change id ∈ (startingIds p).taken
  unfold startingIds
  cases hinstall : p.options.installDirId with
  | none =>
    obtain rfl : id = targetDirId := by simpa [hinstall] using h
    exact (hreserve _ _).2 (Or.inl rfl)
  | some given =>
    refine (hreserve _ _).2 ?_
    rcases h with rfl | h
    · exact Or.inr ((hreserve _ _).2 (Or.inl rfl))
    · exact Or.inl (Option.some.inj (hinstall.symm.trans h)).symm

/-- What the allocator was told of it does not generate. -/
theorem generatedIds_ne_told {p : Project} {kind : Kind} {id : String}
    (hid : id ∈ generatedIds p kind) :
    id ≠ targetDirId ∧ p.options.installDirId ≠ some id := by
  have hnew := (handsOut_takeAll (assignDirectories p).ids (identities p)).new id
    ((madeOfKind_sublist kind _).mem hid)
  exact ⟨fun h => hnew (mem_taken_of_told (Or.inl h)), fun h => hnew (mem_taken_of_told (Or.inr h))⟩

/-- Where authors choose pairwise distinct identifiers for files and for features, and none through
verbatim attributes, the files of a document have pairwise distinct identifiers, and so have the
features, exactly when the allocator makes none that was chosen for another of them. It never makes
the one that was chosen for the installation directory. -/
theorem nodup_chosenIds_iff {p : Project} {c : Compiled} (h : p.ChoosesIds)
    (hc : p.compile = .ok c) :
    ((c.document.idsOf "File").Nodup ∧ (c.document.idsOf "Feature").Nodup ↔
      (∀ id ∈ generatedIds p .file, id ∉ p.files.filterMap (·.id)) ∧
        ∀ id ∈ generatedIds p .feature, id ∉ p.allFeatures.filterMap (·.id)) ∧
    ∀ kind, ∀ id ∈ generatedIds p kind, id ≠ targetDirId ∧ p.options.installDirId ≠ some id := by
  refine ⟨?_, fun kind id hid => generatedIds_ne_told hid⟩
  have hfiles := chosen_files_perm p
  have hfeatures := chosen_features p
  rw [(idsOf_file_perm h hc).nodup_iff, idsOf_feature h hc, namedIds,
    nodup_idsOfKind_iff (hfiles.nodup_iff.2 h.files),
    nodup_idsOfKind_iff (hfeatures ▸ h.features), hfeatures]
  simp only [hfiles.mem_iff]
  rfl

/-- Two files, one with the identifier that the name of the other asks for. -/
def borrowedName : Declaration where
  path := "App"
  items := [.file { source := "a.txt" }, .file { source := "b.txt", id := some "a.txt" }]

/-- The project with these files and nothing else. -/
def borrowedProject : Project where
  name := "Acme"
  directories := (Tree.empty.declare none borrowedName).2

theorem choosesIds_borrowedProject : borrowedProject.ChoosesIds := by
  decide +kernel

theorem compile_borrowedProject : ∃ c, borrowedProject.compile = .ok c ∧
    c.document.idsOf "File" = ["a.txt", "a.txt"] := by
  have hrun : (borrowedProject.compile.toOption.map fun c => c.document.idsOf "File") =
      some ["a.txt", "a.txt"] := by
    decide +kernel
  exact exists_ok_of_toOption_map hrun

/-- Two files of one identifier, although only one identifier was chosen at all. -/
theorem files_of_one_identifier :
    ({ name := "Acme" } : Project).add (.directory borrowedName) = .ok borrowedProject ∧
    borrowedProject.ChoosesIds ∧
    borrowedProject.files.filterMap (·.id) ++ borrowedProject.allFeatures.filterMap (·.id) =
      ["a.txt"] ∧
    ∃ c, borrowedProject.compile = .ok c ∧
      ¬ ((c.document.idsOf "File").Nodup ∧ (c.document.idsOf "Feature").Nodup) := by
  obtain ⟨c, hc, hids⟩ := compile_borrowedProject
  refine ⟨rfl, choosesIds_borrowedProject, by decide +kernel, c, hc, ?_⟩
  rintro ⟨hfiles, _⟩
  rw [hids] at hfiles
  exact absurd hfiles (by decide)

theorem nodup_chosenIds_iff_borrowed :
    borrowedProject.ChoosesIds ∧ ∃ c, borrowedProject.compile = .ok c ∧
      ((c.document.idsOf "File").Nodup ∧ (c.document.idsOf "Feature").Nodup ↔
        (∀ id ∈ generatedIds borrowedProject .file,
          id ∉ borrowedProject.files.filterMap (·.id)) ∧
          ∀ id ∈ generatedIds borrowedProject .feature,
            id ∉ borrowedProject.allFeatures.filterMap (·.id)) ∧
      ∀ kind, ∀ id ∈ generatedIds borrowedProject kind,
        id ≠ targetDirId ∧ borrowedProject.options.installDirId ≠ some id := by
  obtain ⟨c, hc, _⟩ := compile_borrowedProject
  exact ⟨choosesIds_borrowedProject, c, hc, nodup_chosenIds_iff choosesIds_borrowedProject hc⟩

end Compile

end Installer
