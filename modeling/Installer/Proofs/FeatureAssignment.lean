import Installer.Proofs.Compile.DocumentParts
import Installer.Proofs.Compile.FeatureForest

/-!
# Which feature gets which component

The features of a document are the declared forest, with the default feature before it and features
that are only mentioned behind it. Every mention of a feature by a component becomes one reference,
right below the first feature of that name in the document, and there are no other references.
-/
namespace Installer
open Identifier Markup Schema

namespace Compile

/-- A forest of features with references for mentions of components. -/
structure Assigns (fs : List Feature) (ms : List Mention) (es : List Element) : Prop where
  /-- The elements show the forest, -/
  forest : List.Forall₂ ShowsFeature fs es
  /-- and so do, one by one, all elements of features in document order. -/
  row : List.Forall₂ ShowsFeature (fs.flatMap Feature.walk) (Element.allNamed "Feature" es)
  /-- For each mention there is a first feature of its name. -/
  placed : ∀ m ∈ ms, ∃ k,
    (fs.flatMap Feature.walk).findIdx? (fun f => Text.sameText f.name m.feature) = some k
  /-- Right below the element of a feature stand the references for the mentions whose first feature
  it is, in the order of the mentions. -/
  references : ∀ (k : Nat) (e : Element), (Element.allNamed "Feature" es)[k]? = some e →
    e.childrenNamed "ComponentRef" = (ms.filter fun m =>
      decide ((fs.flatMap Feature.walk).findIdx? (fun f => Text.sameText f.name m.feature) =
        some k)).map fun m => componentRefElement m.component
  /-- There are no references but those. -/
  only : Element.allNamed "ComponentRef" es =
    (Element.allNamed "Feature" es).flatMap (·.childrenNamed "ComponentRef")

theorem findIdx?_namesOf (fs : List Feature) (name : String) :
    (Feature.namesOf fs).findIdx? (Text.sameText · name) =
      (fs.flatMap Feature.walk).findIdx? fun f => Text.sameText f.name name := by
  rw [Feature.namesOf, List.findIdx?_map]
  rfl

/-- A forest that is written and leaves no mention has them all assigned. -/
theorem Writes.assigns {ms : List Mention} {fs : List Feature} {part : FeaturePart}
    (h : Writes ms fs part) (hnone : unclaimed (Feature.namesOf fs) ms = []) :
    Assigns fs ms part.elements where
  forest := h.shows
  row := (row_of_shows.2 _ _ h.shows).1
  placed := by
    intro m hm
    have hclaimed := List.filter_eq_nil_iff.1 hnone m hm
    rw [Bool.not_eq_true', Bool.not_eq_false, List.any_eq_true] at hclaimed
    obtain ⟨n, hn, hsame⟩ := hclaimed
    have hfound : ((Feature.namesOf fs).findIdx? (Text.sameText · m.feature)).isSome := by
      rw [List.findIdx?_isSome, List.any_eq_true]
      exact ⟨n, hn, hsame⟩
    rw [← findIdx?_namesOf]
    exact Option.isSome_iff_exists.1 hfound
  references := by
    intro k e he
    have hk : (shares ms (Feature.namesOf fs))[k]?.map (·.map componentRefElement) =
        some (e.childrenNamed "ComponentRef") := by
      rw [← List.getElem?_map, ← h.references, List.getElem?_map, he, Option.map_some]
    obtain ⟨components, hshare, hrefs⟩ := Option.map_eq_some_iff.1 hk
    simp only [← hrefs, getElem?_shares hshare, findIdx?_namesOf, List.map_map]
    rfl
  only := (row_of_shows.2 _ _ h.shows).2

/-- The features of a document are the declared forest between those that are added, and every
mention of a component is a reference below the first feature of its name. -/
theorem features_assigned {p : Project} {refs : List ComponentRef} {part : FeaturePart}
    {warnings : List Warning} {a b : Allocator}
    (h : allFeatureParts p refs a = .ok ((part, warnings), b)) :
    Assigns (documentFeatures p (mentions p.options.defaultFeature refs))
      (mentions p.options.defaultFeature refs) part.elements := by
  obtain ⟨hwrites, hnone, _⟩ := writes_allFeatureParts h
  exact hwrites.assigns hnone

/-- A project that declares one feature below another and both again. -/
def doubledFeatures : Project where
  name := "Acme"
  features := [
    { name := "Main", children := [{ name := "Docs" }] },
    { name := "docs" },
    { name := "MAIN" }]

/-- Components for declared features, for the default one and for one that is not declared. -/
def scatteredRefs : List ComponentRef := [
  ⟨"Component.a", ["docs", "Extra"]⟩,
  ⟨"Component.b", []⟩,
  ⟨"Component.c", ["main", "DOCS", "extra"]⟩]

theorem features_assigned_scattered :
    ∃ part warnings b,
      allFeatureParts doubledFeatures scatteredRefs (.empty 0) = .ok ((part, warnings), b) ∧
      (documentFeatures doubledFeatures (mentions "Complete" scatteredRefs)).map (·.name) =
        ["Complete", "Main", "docs", "MAIN", "Extra"] ∧
      (Element.allNamed "Feature" part.elements).map (fun e =>
          (e.get? "Title", (e.childrenNamed "ComponentRef").filterMap (·.get? "Id"))) =
        [(some "Complete", ["Component.b"]), (some "Main", ["Component.c"]),
          (some "Docs", ["Component.a", "Component.c"]), (some "docs", []), (some "MAIN", []),
          (some "Extra", ["Component.a", "Component.c"])] ∧
      Assigns (documentFeatures doubledFeatures (mentions "Complete" scatteredRefs))
        (mentions "Complete" scatteredRefs) part.elements := by
  have hrun : ((allFeatureParts doubledFeatures scatteredRefs (.empty 0)).toOption.map fun r =>
      (Element.allNamed "Feature" r.1.1.elements).map fun e =>
        (e.get? "Title", (e.childrenNamed "ComponentRef").filterMap (·.get? "Id"))) =
      some [(some "Complete", ["Component.b"]), (some "Main", ["Component.c"]),
        (some "Docs", ["Component.a", "Component.c"]), (some "docs", []), (some "MAIN", []),
        (some "Extra", ["Component.a", "Component.c"])] := by
    decide +kernel
  obtain ⟨⟨⟨part, warnings⟩, b⟩, hok, hrefs⟩ := exists_ok_of_toOption_map hrun
  exact ⟨part, warnings, b, hok, by decide +kernel, hrefs, features_assigned hok⟩

end Compile

end Installer
