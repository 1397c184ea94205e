import Installer.Proofs.Compile.MentionedFeatures
import Installer.Proofs.Manifest.Sites

/-!
# References of a manifest to features

A manifest is checked for the first reference, depth first, to a feature that is neither declared
nor the default one. Its project declares the same features, and names none but those that the
manifest refers to.
-/
namespace Installer
open Directory

namespace Manifest

/-- A directory with all items in it, each before those within it. -/
def Folder.allItems : Folder → List Item
  | d@⟨_, _, _, _, _, items⟩ => .directory d :: itemsAmong items
where
  itemsAmong : List (ItemOf Folder) → List Item
    | [] => []
    | .directory d :: items => d.allItems ++ itemsAmong items
    | item :: items => item :: itemsAmong items

/-- All items of a manifest, at any depth, each before those within it. -/
def allItems (m : Manifest) : List Item :=
  Folder.allItems.itemsAmong m.items

/-- The references to features, each with its item, in the order of the items. -/
def references (m : Manifest) : List (String × Item) :=
  m.allItems.flatMap fun i => i.ownFeatures.map (·, i)

/-- A name is neither that of the default feature nor that of a declared one, at any depth, letter
case aside. -/
def Undeclared (m : Manifest) (name : String) : Prop :=
  Text.sameText name m.options.defaultFeature = false ∧
    ∀ f ∈ m.features.flatMap Feature.walk, Text.sameText f.name name = false

theorem featureRefs_folder_and_items :
    (∀ d : Folder, d.featureRefs = d.allItems.flatMap (·.ownRefs)) ∧
    ∀ items, Folder.featureRefs.refsAmong items =
      (Folder.allItems.itemsAmong items).flatMap (·.ownRefs) := by
  refine Folder.induction ?folder ?nil ?directory ?other
  case folder =>
    intro path id features installDir attributes items ih
    rw [Folder.featureRefs, Folder.allItems, List.flatMap_cons, ih]
  case nil => rfl
  case directory =>
    intro d items hd hitems
    rw [Folder.featureRefs.refsAmong, Folder.allItems.itemsAmong, List.flatMap_append, hd, hitems]
  case other =>
    intro item items hitem ih
    cases item with
    | directory d => exact absurd rfl (hitem d)
    | _ =>
      rw [Folder.featureRefs.refsAmong, Folder.allItems.itemsAmong, List.flatMap_cons, ih] <;> simp

theorem featureRefs_eq (m : Manifest) :
    m.featureRefs = m.references.map fun r => (r.1, r.2.label) := by
  rw [featureRefs, featureRefs_folder_and_items.2, references, List.map_flatMap]
  refine List.flatMap_congr fun i _ => ?_
  rw [ItemOf.ownRefs, List.map_map]
  rfl

theorem knowsFeature_eq_false_iff {m : Manifest} {name : String} :
    m.knowsFeature name = false ↔ m.Undeclared name := by
  have hnames : m.featureNames.any (Text.sameText · name) =
      (m.features.flatMap Feature.walk).any (Text.sameText ·.name name) := by
    rw [featureNames, List.any_flatMap, List.any_flatMap]
    simp only [Feature.names, List.any_map]
    rfl
  rw [knowsFeature, Bool.or_eq_false_iff, hnames, List.any_eq_false, Undeclared]
  simp only [Bool.not_eq_true]

/-- A manifest with features is searched for a reference to one that it does not know. -/
theorem validate_eq {m : Manifest} (hm : m.features ≠ []) :
    m.validate = match m.references.find? fun r => !m.knowsFeature r.1 with
      | some r => .error (.undeclared r.1 r.2.label)
      | none => .ok () := by
  have hfind : m.featureRefs.find? (fun r => !m.knowsFeature r.1) =
      (m.references.find? fun r => !m.knowsFeature r.1).map fun r => (r.1, r.2.label) := by
    rw [featureRefs_eq, List.find?_map]
    rfl
  have hempty : m.features.isEmpty = false := by simpa using hm
  rw [validate, hempty, hfind]
  cases m.references.find? fun r => !m.knowsFeature r.1 <;> rfl

/-- The check fails at the first reference to a feature that is not declared. -/
theorem validate_eq_error_iff {m : Manifest} (hm : m.features ≠ []) {e : Fault} :
    m.validate = .error e ↔ ∃ before r after, m.references = before ++ r :: after ∧
      m.Undeclared r.1 ∧ (∀ q ∈ before, ¬ m.Undeclared q.1) ∧
      e = .undeclared r.1 r.2.label := by
  rw [validate_eq hm]
  constructor
  · intro h
    cases hfind : m.references.find? fun r => !m.knowsFeature r.1 with
    | none => simp [hfind] at h
    | some r =>
      obtain ⟨hr, before, after, hsplit, hbefore⟩ := List.find?_eq_some_iff_append.1 hfind
      have he : Fault.undeclared r.1 r.2.label = e := by simpa [hfind] using h
      refine ⟨before, r, after, hsplit, knowsFeature_eq_false_iff.1 (by simpa using hr), ?_, he.symm⟩
      intro q hq hundeclared
      have hknown := hbefore q hq
      rw [knowsFeature_eq_false_iff.2 hundeclared] at hknown
      exact absurd hknown (by decide)
  · rintro ⟨before, r, after, hsplit, hr, hbefore, rfl⟩
    have hfind : m.references.find? (fun r => !m.knowsFeature r.1) = some r := by
      refine List.find?_eq_some_iff_append.2 ⟨?_, before, after, hsplit, fun q hq => ?_⟩
      · rw [knowsFeature_eq_false_iff.2 hr]
        rfl
      · rw [Bool.not_not, ← Bool.not_eq_false]
        exact fun hknown => hbefore q hq (knowsFeature_eq_false_iff.1 hknown)
    rw [hfind]

/-- The check fails just where some item refers to a feature that is not declared. -/
theorem exists_error_validate_iff {m : Manifest} (hm : m.features ≠ []) :
    (∃ e, m.validate = .error e) ↔
      ∃ item ∈ m.allItems, ∃ name ∈ item.ownFeatures, m.Undeclared name := by
  have hfound : (∃ e, m.validate = .error e) ↔
      (m.references.find? fun r => !m.knowsFeature r.1).isSome := by
    rw [validate_eq hm]
    cases m.references.find? fun r => !m.knowsFeature r.1 <;> simp
  rw [hfound, List.find?_isSome]
  simp only [Bool.not_eq_true', knowsFeature_eq_false_iff, references]
  constructor
  · rintro ⟨r, hr, hundeclared⟩
    obtain ⟨item, hitem, hown⟩ := List.mem_flatMap.1 hr
    obtain ⟨name, hname, rfl⟩ := List.mem_map.1 hown
    exact ⟨item, hitem, name, hname, hundeclared⟩
  · rintro ⟨item, hitem, name, hname, hundeclared⟩
    exact ⟨(name, item), List.mem_flatMap.2 ⟨item, hitem, List.mem_map_of_mem hname⟩, hundeclared⟩

theorem fitsDirectory_toItems (items : List (ItemOf Folder)) :
    ∀ item ∈ Folder.toDeclaration.toItems items, item.fitsDirectory = true := by
  induction items with
  | nil => simp [Folder.toDeclaration.toItems]
  | cons item items ih =>
    cases item with
    | _ => exact List.forall_mem_cons.2 ⟨rfl, ih⟩

/-- A directory of a manifest names for the project the features that it refers to. -/
theorem mentioned_toDeclaration :
    (∀ d : Folder, d.toDeclaration.mentioned = d.featureRefs.map (·.1)) ∧
    ∀ items, Declaration.mentioned.mentionedAmong (Folder.toDeclaration.toItems items) =
      (Folder.featureRefs.refsAmong items).map (·.1) := by
  have hown : ∀ item : ItemOf Folder, item.ownRefs.map (·.1) = item.ownFeatures := by
    intro item
    rw [ItemOf.ownRefs, List.map_map]
    exact List.map_id _
  refine Folder.induction ?folder ?nil ?directory ?other
  case folder =>
    intro path id features installDir attributes items ih
    rw [Folder.toDeclaration, Declaration.mentioned, Folder.featureRefs, List.map_append, hown, ih]
    rfl
  case nil => rfl
  case directory =>
    intro d items hd hitems
    rw [Folder.toDeclaration.toItems, Declaration.mentioned.mentionedAmong,
      Folder.featureRefs.refsAmong, List.map_append, hd, hitems]
  case other =>
    intro item items hitem ih
    have hrefs : Folder.featureRefs.refsAmong (item :: items) =
        item.ownRefs ++ Folder.featureRefs.refsAmong items := by
      cases item with
      | directory d => exact absurd rfl (hitem d)
      | _ => rfl
    rw [hrefs, List.map_append, hown, ← ih]
    cases item with
    | directory d => exact absurd rfl (hitem d)
    | files s =>
      rw [Folder.toDeclaration.toItems, Declaration.mentionedAmong_cons (by simp)]
      simp [Directory.ItemOf.mentioned, Files.toFileSet, ItemOf.ownFeatures]
    | _ => rfl

end Manifest

namespace Project

/-- What fits into a directory adds to a project what it names, and leaves its features and options
alone. -/
theorem mentioned_addAll {items : List Directory.Item}
    (hfits : ∀ item ∈ items, item.fitsDirectory = true) {p u : Project}
    (h : p.addAll items = .ok u) :
    u.features = p.features ∧ u.options = p.options ∧
      u.mentioned ⊆ p.mentioned ++ Declaration.mentioned.mentionedAmong items := by
  induction items generalizing p with
  | nil =>
    obtain rfl : p = u := by simpa [addAll, pure, Except.pure] using h
    exact ⟨rfl, rfl, List.subset_append_left _ _⟩
  | cons item items ih =>
    obtain ⟨hitem, hitems⟩ := List.forall_mem_cons.1 hfits
    rw [addAll, List.foldlM_cons] at h
    cases hadd : p.add item with
    | error e => simp [hadd, bind, Except.bind] at h
    | ok v =>
      rw [hadd] at h
      obtain ⟨hfeatures, hoptions, hmentioned⟩ := ih hitems (p := v) h
      obtain ⟨d, rfl, rfl⟩ | ⟨s, rfl, rfl⟩ | ⟨hdirectory, hnone, _, _⟩ := add_cases hadd
      · refine ⟨hfeatures, hoptions, fun x hx => ?_⟩
        have hdeclare := Tree.mentioned_declare_and_items.1 d p.directories none
        have hx := hmentioned hx
        simp only [mentioned, Declaration.mentioned.mentionedAmong, List.mem_append] at hx ⊢
        rcases hx with (hx | hx) | hx
        · rcases List.mem_append.1 (hdeclare hx) with hx | hx
          · exact Or.inl (Or.inl hx)
          · exact Or.inr (Or.inl hx)
        · exact Or.inl (Or.inr hx)
        · exact Or.inr (Or.inr hx)
      · refine ⟨hfeatures, hoptions, fun x hx => ?_⟩
        have hx := hmentioned hx
        rw [Declaration.mentionedAmong_cons (by simp)]
        simp only [mentioned, Directory.ItemOf.mentioned, List.flatMap_append, List.flatMap_cons,
          List.flatMap_nil, List.append_nil, List.mem_append] at hx ⊢
        tauto
      · -- Nothing else that fits can be added to a project.
        cases item with
        | directory d => exact absurd rfl (hdirectory d)
        | setting s => simp [Directory.ItemOf.payloads] at hnone
        | file | files | shortcut => simp [add] at hadd
        | feature | property | media | dialog => simp [Directory.ItemOf.fitsDirectory] at hitem

end Project

/-- The project of a manifest declares the manifest's features and names those that it refers to,
after a check that has found nothing. -/
theorem Manifest.names_of_toProject {m : Manifest} {p : Project} (h : m.toProject = .ok p) :
    m.validate = .ok () ∧ p.features = m.features ∧ p.options = m.options ∧
      p.mentioned ⊆ m.references.map (·.1) := by
  obtain ⟨hvalid, version, u, hadd, rfl⟩ := Manifest.toProject_eq_ok h
  obtain ⟨hfeatures, hoptions, hmentioned⟩ :=
    Project.mentioned_addAll (fitsDirectory_toItems m.items) hadd
  refine ⟨hvalid, hfeatures, hoptions, fun x hx => ?_⟩
  have hrefs : m.references.map (·.1) = m.featureRefs.map (·.1) := by
    rw [featureRefs_eq, List.map_map]
    rfl
  rw [hrefs, featureRefs, ← mentioned_toDeclaration.2]
  exact hmentioned hx

end Installer
