import Installer.Proofs.Compile.FeatureForest
import Installer.Proofs.Manifest.References

/-!
# Declared features from the manifest to the document

The check of a manifest and the making of a document agree on which features are declared. A
manifest with features that passes the check has a document of just these features, perhaps behind
the default one, and none is added because it was only mentioned.
-/
namespace Installer
open Identifier Markup Schema

namespace Compile

/-- A mention is of the default feature, or of one that the component names. -/
theorem mem_mentions {defaultFeature : String} {refs : List ComponentRef} {m : Mention}
    (hm : m ∈ mentions defaultFeature refs) :
    m.feature = defaultFeature ∨ ∃ r ∈ refs, m.feature ∈ r.features := by
  obtain ⟨r, hr, hm⟩ := List.mem_flatMap.1 hm
  obtain ⟨f, hf, rfl⟩ := List.mem_map.1 hm
  by_cases hempty : r.features.isEmpty = true
  · rw [if_pos hempty] at hf
    exact Or.inl (List.mem_singleton.1 hf)
  · rw [if_neg hempty] at hf
    exact Or.inr ⟨r, hr, hf⟩

/-- The default feature and the features of components are all that is mentioned. -/
theorem undeclaredFeatures_eq_nil {p : Project}
    (h : ∀ name ∈ p.mentioned, isUndeclared p name = false) :
    undeclaredFeatures p (mentions p.options.defaultFeature ((allBoxes p).map (·.ref))) = [] := by
  have hnone : ((mentions p.options.defaultFeature ((allBoxes p).map (·.ref))).map
      (·.feature)).filter (isUndeclared p) = [] := by
    rw [List.filter_eq_nil_iff]
    intro name hname
    rw [Bool.not_eq_true]
    obtain ⟨m, hm, rfl⟩ := List.mem_map.1 hname
    rcases mem_mentions hm with hdefault | ⟨r, hr, hfeature⟩
    · rw [hdefault, isUndeclared]
      simp [Text.sameText]
    · obtain ⟨b, hb, rfl⟩ := List.mem_map.1 hr
      exact h _ (features_of_mem_allBoxes hb hfeature)
  rw [undeclaredFeatures, hnone]
  rfl

/-- The identifiers of directories give no warning about features. -/
theorem not_undeclaredFeature_assignDirectories (p : Project) :
    Warning.undeclaredFeature ∉ (assignDirectories p).warnings := by
  have hchosen : Warning.undeclaredFeature ∉ (chosenInstallDir p).2 := by
    unfold chosenInstallDir
    repeat' split
    all_goals simp
  exact hchosen

/-- The elements of a document that show features: those right below the product and, at any depth,
all of its features. -/
structure ShowsForest (fs : List Feature) (document : Element) : Prop where
  forest : List.Forall₂ ShowsFeature fs
    (document.elements.flatMap (·.childrenNamed "Feature"))
  row : List.Forall₂ ShowsFeature (fs.flatMap Feature.walk) (document.descendantsNamed "Feature")

/-- A project that names declared features only has a document of these, perhaps behind the default
feature. -/
theorem showsForest_of_compile {p : Project} {c : Compiled} (hc : p.compile = .ok c)
    (h : ∀ name ∈ p.mentioned, isUndeclared p name = false) :
    ∃ leading, (leading = [] ∨ leading = [Feature.named p.options.defaultFeature]) ∧
      ShowsForest (leading ++ p.features) c.document ∧
      Warning.undeclaredFeature ∉ c.warnings := by
  obtain ⟨x, hx⟩ := shows_of_compile hc
  obtain ⟨part, warnings, b, hrun, hfeatures, hwarnings⟩ := hx.written
  obtain ⟨hwrites, _, hadded⟩ := writes_allFeatureParts hrun
  let ms := mentions p.options.defaultFeature ((allBoxes p).map (·.ref))
  have hnone : undeclaredFeatures p ms = [] := undeclaredFeatures_eq_nil h
  have hshows : List.Forall₂ ShowsFeature (addedDefault p ms ++ p.features) x.features := by
    have hall := hwrites.shows
    rw [documentFeatures, hnone, List.append_nil] at hall
    rwa [hfeatures]
  have hnames : x.features.filter (·.name == "Feature") = x.features := by
    rw [List.filter_eq_self]
    intro e he
    rw [beq_iff_eq]
    exact name_of_shows hshows e he
  refine ⟨addedDefault p ms, addedDefault_cases p ms, ⟨?_, ?_⟩, ?_⟩
  · rwa [hx.childrenNamed_feature, hnames]
  · rw [Element.descendantsNamed_eq_allNamed,
      hx.allNamed_features (by decide) (by decide) (by decide)]
    exact (row_of_shows.2 _ _ hshows).1
  · rw [hwarnings, hadded, hnone, List.map_nil, List.append_nil]
    exact not_undeclaredFeature_assignDirectories p

end Compile

namespace Manifest
open Compile

/-- What a project's features leave undeclared, so do those of its manifest. -/
theorem undeclared_of_isUndeclared {m : Manifest} {p : Project} (hfeatures : p.features = m.features)
    (hoptions : p.options = m.options) {name : String} (h : isUndeclared p name = true) :
    m.Undeclared name := by
  rw [isUndeclared, Bool.and_eq_true, Bool.not_eq_true', Option.isNone_iff_eq_none,
    Text.sameText_comm, hoptions] at h
  obtain ⟨hdefault, hfeature⟩ := h
  refine ⟨hdefault, fun f hf => ?_⟩
  rw [Project.feature?, Project.allFeatures, hfeatures, List.find?_eq_none] at hfeature
  simpa using hfeature f hf

/-- The check of a manifest with features fails just where an item, at any depth, refers to a feature
that is neither declared nor the default one, and then it names the first such reference with the
label of its item. Where the manifest becomes a document, the document's features are the declared
forest, perhaps behind the default feature, and nothing is said about features that were never
declared. -/
theorem check_agrees_with_document {m : Manifest} (hm : m.features ≠ []) :
    ((∃ e, m.validate = .error e) ↔
      ∃ item ∈ m.allItems, ∃ name ∈ item.ownFeatures, m.Undeclared name) ∧
    (∀ e, m.validate = .error e → ∃ before r after, m.references = before ++ r :: after ∧
      m.Undeclared r.1 ∧ (∀ q ∈ before, ¬ m.Undeclared q.1) ∧
      e = .undeclared r.1 r.2.label) ∧
    ∀ p c, m.toProject = .ok p → p.compile = .ok c →
      ∃ leading, (leading = [] ∨ leading = [Feature.named m.options.defaultFeature]) ∧
        ShowsForest (leading ++ m.features) c.document ∧
        Warning.undeclaredFeature ∉ c.warnings := by
  refine ⟨exists_error_validate_iff hm, fun e he => (validate_eq_error_iff hm).1 he, ?_⟩
  intro p c hp hc
  obtain ⟨hvalid, hfeatures, hoptions, hmentioned⟩ := names_of_toProject hp
  have hdeclared : ∀ name ∈ p.mentioned, isUndeclared p name = false := by
    intro name hname
    rw [← Bool.not_eq_true]
    intro hundeclared
    obtain ⟨r, hr, rfl⟩ := List.mem_map.1 (hmentioned hname)
    obtain ⟨item, hitem, hown⟩ := List.mem_flatMap.1 hr
    obtain ⟨feature, hfeature, rfl⟩ := List.mem_map.1 hown
    obtain ⟨e, he⟩ := (exists_error_validate_iff hm).2 ⟨item, hitem, feature, hfeature,
      undeclared_of_isUndeclared hfeatures hoptions hundeclared⟩
    rw [hvalid] at he
    cases he
  have hdocument := showsForest_of_compile hc hdeclared
  rwa [hfeatures, hoptions] at hdocument

/-- A manifest of one feature below another, with a file for each feature and one for none. -/
def layeredManifest : Manifest where
  product := { name := "Acme" }
  features := [{ name := "Main", children := [{ name := "Docs" }] }]
  items := [.directory {
    path := "App", features := ["MAIN"]
    items := [
      .directory { path := "doc", items := [.file { source := "a.txt", features := ["docs"] }] },
      .file { source := "b.txt" }] }, .environment { name := "HOME", value := some "x" }]

/-- The same features with references to others, the first of them in a nested directory. -/
def strayManifest : Manifest where
  product := { name := "Acme" }
  features := layeredManifest.features
  items := [.directory {
    path := "App", features := ["Complete", "docs"]
    items := [.directory { path := "doc", features := ["Extra"] }] },
    .file { source := "a.txt", features := ["Other"] }]

theorem check_agrees_with_document_layered :
    layeredManifest.features ≠ [] ∧ strayManifest.features ≠ [] ∧
    strayManifest.validate = .error (.undeclared "Extra" "dir doc") ∧
    (∃ item ∈ strayManifest.allItems, ∃ name ∈ item.ownFeatures, strayManifest.Undeclared name) ∧
    ∃ p c, layeredManifest.toProject = .ok p ∧ p.compile = .ok c ∧
      (c.document.descendantsNamed "Feature").filterMap (·.get? "Title") =
        ["Complete", "Main", "Docs"] ∧
      ∃ leading, (leading = [] ∨
          leading = [Feature.named layeredManifest.options.defaultFeature]) ∧
        ShowsForest (leading ++ layeredManifest.features) c.document ∧
        Warning.undeclaredFeature ∉ c.warnings := by
  have hlayered : layeredManifest.features ≠ [] := by simp [layeredManifest]
  have hstray : strayManifest.features ≠ [] := hlayered
  have herror : strayManifest.validate = .error (.undeclared "Extra" "dir doc") := by
    decide +kernel
  have hrun : (layeredManifest.toProject.toOption.map fun p =>
      p.compile.toOption.map fun c =>
        (c.document.descendantsNamed "Feature").filterMap (·.get? "Title")) =
      some (some ["Complete", "Main", "Docs"]) := by
    decide +kernel
  obtain ⟨p, hp, hrun⟩ := exists_ok_of_toOption_map hrun
  obtain ⟨c, hc, htitles⟩ := exists_ok_of_toOption_map hrun
  obtain ⟨hfails, _, _⟩ := check_agrees_with_document hstray
  obtain ⟨_, _, hdocument⟩ := check_agrees_with_document hlayered
  exact ⟨hlayered, hstray, herror, hfails.1 ⟨_, herror⟩, p, c, hp, hc, htitles, hdocument p c hp hc⟩

end Manifest

end Installer
