import Installer.Proofs.Compile.FeatureReferences
import Installer.Proofs.Compile.Mentions
import Mathlib.Data.List.Forall2

/-!
# Forests of features

What is written for a forest of features has its very shape, and its features share the mentions of
components out in document order. The features of a document are the declared forest between the
default feature, where that has to be added, and the features that are only mentioned.
-/
namespace Installer
open Identifier Markup Schema

namespace Feature

theorem walkAll_eq_flatMap (fs : List Feature) : walk.walkAll fs = fs.flatMap walk := by
  induction fs with
  | nil => rfl
  | cons f fs ih => rw [walk.walkAll, ih, List.flatMap_cons]

theorem walk_eq (f : Feature) : f.walk = f :: f.children.flatMap walk := by
  cases f with
  | mk => rw [walk, walkAll_eq_flatMap]

def namesOf (fs : List Feature) : List String :=
  (fs.flatMap walk).map (·.name)

theorem namesOf_cons (f : Feature) (fs : List Feature) :
    namesOf (f :: fs) = f.name :: namesOf f.children ++ namesOf fs := by
  simp [namesOf, walk_eq f]

theorem namesOf_append (fs gs : List Feature) : namesOf (fs ++ gs) = namesOf fs ++ namesOf gs := by
  simp [namesOf]

end Feature

namespace Compile

/-- The element of a feature with references to components and the elements below it. -/
def featureElement (f : Feature) (id : Option String) (components : List String)
    (below : List Element) : Element :=
  ((Feature.schema.complete f id).element.pushAll (components.map componentRefElement)).pushAll
    below

/-- An element shows a feature: all that the feature says, the author's identifier if there is one,
some references, and elements that show the features below it, one after the other. -/
inductive ShowsFeature : Feature → Element → Prop
  | intro {f : Feature} {id : Option String} (components : List String) {below : List Element}
      (hid : ∀ x, f.id = some x → id = some x)
      (hbelow : List.Forall₂ ShowsFeature f.children below) :
      ShowsFeature f (featureElement f id components below)

theorem ShowsFeature.name_eq {f : Feature} {e : Element} (h : ShowsFeature f e) :
    e.name = "Feature" := by
  cases h with
  | intro components hid hbelow => exact complete_name Feature.schema _ _

theorem name_of_shows {fs : List Feature} {es : List Element}
    (h : List.Forall₂ ShowsFeature fs es) : ∀ e ∈ es, e.name = "Feature" := by
  induction h with
  | nil => simp
  | cons hfe _ ih => exact List.forall_mem_cons.2 ⟨hfe.name_eq, ih⟩

theorem elements_featureElement (f : Feature) (id : Option String) (components : List String)
    (below : List Element) : (featureElement f id components below).elements =
      (Feature.schema.complete f id).element.elements ++ components.map componentRefElement ++
        below := by
  rw [featureElement, Element.elements_pushAll, Element.elements_pushAll]

/-- A feature has the identifier that it came by, unless a verbatim attribute gives it another. -/
theorem get?_id_featureElement {f : Feature} (hf : f.attributes.get? "Id" = none) (id : String)
    (components : List String) (below : List Element) :
    (featureElement f (some id) components below).get? "Id" = some id := by
  rw [featureElement, Element.get?_pushAll, Element.get?_pushAll, get?_complete_id]
  change some ((f.attributes.get? "Id").getD id) = _
  rw [hf, Option.getD_none]

theorem filter_references (components : List String) :
    (components.map componentRefElement).filter (·.name == "ComponentRef") =
      components.map componentRefElement := by
  rw [List.filter_eq_self]
  intro e he
  obtain ⟨c, _, rfl⟩ := List.mem_map.1 he
  rfl

/-- What a feature's element holds at any depth: besides its condition its references and what
stands below it. -/
theorem allNamed_featureElement (f : Feature) (id : Option String) (components : List String)
    (below : List Element) :
    Element.allNamed "Feature" [featureElement f id components below] =
        featureElement f id components below :: Element.allNamed "Feature" below ∧
      Element.allNamed "ComponentRef" [featureElement f id components below] =
        components.map componentRefElement ++ Element.allNamed "ComponentRef" below := by
  have hname : (featureElement f id components below).name = "Feature" :=
    complete_name Feature.schema f id
  have hown : ∀ name, name ≠ "Condition" →
      Element.allNamed name (Feature.schema.complete f id).element.elements = [] := by
    intro name hne
    refine Element.allNamed_eq_nil fun e he => ?_
    rw [names_feature_complete f id e he]
    exact hne.symm
  have hrefs : Element.allNamed "Feature" (components.map componentRefElement) = [] := by
    refine Element.allNamed_eq_nil fun e he => ?_
    rw [within_references] at he
    obtain ⟨c, _, rfl⟩ := List.mem_map.1 he
    simp [componentRefElement]
  have hall : Element.allNamed "ComponentRef" (components.map componentRefElement) =
      components.map componentRefElement := by
    rw [Element.allNamed, within_references, filter_references]
  constructor
  · rw [Element.allNamed_cons, hname, elements_featureElement, Element.allNamed_append,
      Element.allNamed_append, hown "Feature" (by decide), hrefs]
    simp
  · rw [Element.allNamed_cons, hname, elements_featureElement, Element.allNamed_append,
      Element.allNamed_append, hown "ComponentRef" (by decide), hall]
    simp

theorem childrenNamed_featureElement {f : Feature} {id : Option String}
    {components : List String} {below : List Element} (hbelow : ∀ e ∈ below, e.name = "Feature") :
    (featureElement f id components below).childrenNamed "ComponentRef" =
      components.map componentRefElement := by
  have hown : (Feature.schema.complete f id).element.elements.filter
      (·.name == "ComponentRef") = [] := by
    rw [List.filter_eq_nil_iff]
    intro e he
    have hwithin : e ∈ Element.within (Feature.schema.complete f id).element.elements :=
      List.mem_flatMap.2 ⟨e, he, by simp⟩
    simp [names_feature_complete f id e hwithin]
  have hlower : below.filter (·.name == "ComponentRef") = [] := by
    rw [List.filter_eq_nil_iff]
    intro e he
    simp [hbelow e he]
  rw [Element.childrenNamed, elements_featureElement, List.filter_append, List.filter_append, hown,
    filter_references, hlower, List.nil_append, List.append_nil]

/-- The elements of features, at any depth, show the features of the forest in the order of a walk,
and every reference stands right below one of them. -/
theorem row_of_shows :
    (∀ f e, ShowsFeature f e →
      List.Forall₂ ShowsFeature f.walk (Element.allNamed "Feature" [e]) ∧
      Element.allNamed "ComponentRef" [e] =
        (Element.allNamed "Feature" [e]).flatMap (·.childrenNamed "ComponentRef")) ∧
    ∀ fs es, List.Forall₂ ShowsFeature fs es →
      List.Forall₂ ShowsFeature (fs.flatMap Feature.walk) (Element.allNamed "Feature" es) ∧
      Element.allNamed "ComponentRef" es =
        (Element.allNamed "Feature" es).flatMap (·.childrenNamed "ComponentRef") := by
  refine Feature.induction ?feature ?nil ?cons
  case feature =>
    intro id name description level allowChange typicalDefault configurableDirectory condition
      children attributes ih e h
    cases h with
    | intro components hid hbelow =>
      obtain ⟨hrow, hrefs⟩ := ih _ hbelow
      obtain ⟨hfeatures, hreferences⟩ := allNamed_featureElement
        ⟨id, name, description, level, allowChange, typicalDefault, configurableDirectory,
          condition, children, attributes⟩ _ components _
      rw [Feature.walk_eq, hfeatures, hreferences]
      refine ⟨.cons (.intro components hid hbelow) hrow, ?_⟩
      rw [List.flatMap_cons, childrenNamed_featureElement (name_of_shows hbelow), hrefs]
  case nil =>
    intro es h
    cases h
    exact ⟨.nil, rfl⟩
  case cons =>
    intro f fs hf hfs es h
    cases h with
    | @cons _ e _ es hfe hrest =>
      obtain ⟨hrow, hrefs⟩ := hf e hfe
      obtain ⟨hrowRest, hrefsRest⟩ := hfs es hrest
      have hsplit : ∀ name, Element.allNamed name (e :: es) =
          Element.allNamed name [e] ++ Element.allNamed name es := fun name =>
        Element.allNamed_append name [e] es
      rw [hsplit, hsplit, List.flatMap_cons, List.flatMap_append, hrefs, hrefsRest]
      exact ⟨List.rel_append hrow hrowRest, rfl⟩

/-- A forest of features is written: its elements show it, they take the mentions one after the
other, and what they leave is the rest. -/
structure Writes (ms : List Mention) (fs : List Feature) (part : FeaturePart) : Prop where
  shows : List.Forall₂ ShowsFeature fs part.elements
  references : (Element.allNamed "Feature" part.elements).map (·.childrenNamed "ComponentRef") =
    (shares ms (Feature.namesOf fs)).map (·.map componentRefElement)
  untaken : part.untaken = collect (unclaimed (Feature.namesOf fs) ms)

theorem Writes.append {ms : List Mention} {fs gs : List Feature} {first rest : FeaturePart}
    {assigned : List Assigned} (h : Writes ms fs first)
    (h' : Writes (unclaimed (Feature.namesOf fs) ms) gs rest) :
    Writes ms (fs ++ gs) ⟨first.elements ++ rest.elements, assigned, rest.untaken⟩ where
  shows := List.rel_append h.shows h'.shows
  references := by
    rw [Element.allNamed_append, List.map_append, h.references, h'.references,
      Feature.namesOf_append, shares_append, List.map_append]
  untaken := by
    rw [Feature.namesOf_append, unclaimed_append]
    exact h'.untaken

theorem writes_featurePart :
    (∀ f ms a part b, featurePart (collect ms) f a = .ok (part, b) → Writes ms [f] part) ∧
      ∀ fs ms a part b, featurePart.featureParts (collect ms) fs a = .ok (part, b) →
        Writes ms fs part := by
  refine Feature.induction ?feature ?nil ?cons
  case feature =>
    intro id name description level allowChange typicalDefault configurableDirectory condition
      children attributes ih ms a part b h
    rw [featurePart] at h
    obtain ⟨w, c, hw, h⟩ := Emit.bind_eq_ok.1 h
    obtain ⟨_, rfl, rfl⟩ := Schema.emit_eq_ok.1 hw
    obtain ⟨below, d, hbelow, h⟩ := Emit.bind_eq_ok.1 h
    obtain ⟨rfl, rfl⟩ := Emit.pure_eq_ok.1 h
    rw [dropUse_collect] at hbelow
    have hlower := ih _ _ below d hbelow
    rw [usesOf_collect]
    obtain ⟨hfeatures, -⟩ := allNamed_featureElement
      ⟨id, name, description, level, allowChange, typicalDefault, configurableDirectory, condition,
        children, attributes⟩ (Feature.schema.identify _ a).1 (claimed name ms) below.elements
    refine ⟨.cons (.intro _ (fun x hx => ?_) hlower.shows) .nil, ?_, ?_⟩
    · rw [show id = some x from hx]
      rfl
    · rw [← featureElement, hfeatures, List.map_cons,
        childrenNamed_featureElement (name_of_shows hlower.shows), hlower.references,
        Feature.namesOf_cons]
      simp [shares, Feature.namesOf]
    · rw [Feature.namesOf_cons]
      simpa [Feature.namesOf, unclaimed_cons] using hlower.untaken
  case nil =>
    intro ms a part b h
    obtain ⟨rfl, rfl⟩ := Emit.pure_eq_ok.1 h
    exact ⟨.nil, rfl, (congrArg collect (unclaimed_nil ms)).symm⟩
  case cons =>
    intro f fs hf hfs ms a part b h
    rw [featurePart.featureParts] at h
    obtain ⟨first, c, hfirst, h⟩ := Emit.bind_eq_ok.1 h
    obtain ⟨rest, d, hrest, h⟩ := Emit.bind_eq_ok.1 h
    obtain ⟨rfl, rfl⟩ := Emit.pure_eq_ok.1 h
    have hwrites := hf ms a first c hfirst
    rw [hwrites.untaken] at hrest
    exact hwrites.append (hfs _ c rest d hrest)

/-- The default feature, where no feature of its name is declared and either it is mentioned or no
feature is declared at all. -/
def addedDefault (p : Project) (ms : List Mention) : List Feature :=
  let name := p.options.defaultFeature
  if (p.feature? name).isNone && (ms.any (Text.sameText ·.feature name) || p.features.isEmpty) then
    [Feature.named name]
  else []

/-- A name is neither that of the default feature nor that of a declared one, at any depth. -/
def isUndeclared (p : Project) (name : String) : Bool :=
  !Text.sameText p.options.defaultFeature name && (p.feature? name).isNone

/-- The features that are only mentioned, one for each name, in the order of first mention. -/
def undeclaredFeatures (p : Project) (ms : List Mention) : List Feature :=
  (((ms.map (·.feature)).filter (isUndeclared p)).eraseDupsBy Text.sameText).map Feature.named

/-- The features of a document: the declared forest between those that are added. -/
def documentFeatures (p : Project) (ms : List Mention) : List Feature :=
  addedDefault p ms ++ p.features ++ undeclaredFeatures p ms

theorem addedDefault_cases (p : Project) (ms : List Mention) :
    addedDefault p ms = [] ∨ addedDefault p ms = [Feature.named p.options.defaultFeature] := by
  simp only [addedDefault]
  split
  · exact Or.inr rfl
  · exact Or.inl rfl

/-- The features of a document in document order: the declared ones, at any depth, between those
that are added. -/
theorem walk_documentFeatures (p : Project) (ms : List Mention) :
    (documentFeatures p ms).flatMap Feature.walk =
      addedDefault p ms ++ p.allFeatures ++ undeclaredFeatures p ms := by
  have hdefault : (addedDefault p ms).flatMap Feature.walk = addedDefault p ms := by
    rcases addedDefault_cases p ms with hnone | hadded
    · rw [hnone]
      rfl
    · rw [hadded]
      rfl
  have hundeclared :
      (undeclaredFeatures p ms).flatMap Feature.walk = undeclaredFeatures p ms := by
    rw [undeclaredFeatures, List.flatMap_map]
    exact List.map_eq_flatMap.symm
  rw [documentFeatures, List.flatMap_append, List.flatMap_append, hdefault, hundeclared]
  rfl

/-- The features that are added to the declared ones have a name and nothing else. -/
theorem mem_walk_documentFeatures {p : Project} {ms : List Mention} {f : Feature}
    (hf : f ∈ (documentFeatures p ms).flatMap Feature.walk) :
    f ∈ p.allFeatures ∨ ∃ name, f = Feature.named name := by
  rw [walk_documentFeatures, List.mem_append, List.mem_append] at hf
  rcases hf with (hf | hf) | hf
  · rcases addedDefault_cases p ms with hnone | hadded
    · simp [hnone] at hf
    · exact Or.inr ⟨_, List.mem_singleton.1 (hadded ▸ hf)⟩
  · exact Or.inl hf
  · obtain ⟨name, _, rfl⟩ := List.mem_map.1 hf
    exact Or.inr ⟨name, rfl⟩

/-- Only declared features have identifiers from authors. -/
theorem filterMap_id_documentFeatures (p : Project) (ms : List Mention) :
    ((documentFeatures p ms).flatMap Feature.walk).filterMap (·.id) =
      p.allFeatures.filterMap (·.id) := by
  have hdefault : (addedDefault p ms).filterMap (·.id) = [] := by
    rcases addedDefault_cases p ms with hnone | hadded
    · rw [hnone]
      rfl
    · rw [hadded]
      rfl
  have hundeclared : (undeclaredFeatures p ms).filterMap (·.id) = [] := by
    rw [undeclaredFeatures, List.filterMap_map, List.filterMap_eq_nil_iff]
    intro _ _
    rfl
  rw [walk_documentFeatures, List.filterMap_append, List.filterMap_append, hdefault, hundeclared,
    List.nil_append, List.append_nil]

theorem leadingFeatures_collect (p : Project) (ms : List Mention) :
    leadingFeatures p (collect ms) = addedDefault p ms ++ p.features := by
  simp only [leadingFeatures, addedDefault, any_collect]
  split <;> rfl

theorem isNone_feature? (p : Project) (name : String) :
    (p.feature? name).isNone = !(Feature.namesOf p.features).any (Text.sameText · name) := by
  rw [Project.feature?, Project.allFeatures, Feature.namesOf, List.any_map, Bool.eq_iff_iff,
    Option.isNone_iff_eq_none, List.find?_eq_none, Bool.not_eq_true', List.any_eq_false]
  rfl

/-- The declared features and the default one leave the mentions of other names. -/
theorem unclaimed_declared (p : Project) (ms : List Mention) :
    unclaimed (Feature.namesOf (addedDefault p ms ++ p.features)) ms =
      ms.filter fun m => isUndeclared p m.feature := by
  refine List.filter_congr fun m hm => ?_
  let name := p.options.defaultFeature
  rw [Feature.namesOf_append, List.any_append, Bool.not_or, ← isNone_feature?, isUndeclared]
  by_cases hadded : ((p.feature? name).isNone &&
      (ms.any (Text.sameText ·.feature name) || p.features.isEmpty)) = true
  · have hdefault : addedDefault p ms = [Feature.named name] := if_pos hadded
    rw [hdefault]
    simp [Feature.namesOf, Feature.walk_eq, Feature.named, name]
  · have hnone : addedDefault p ms = [] := if_neg hadded
    rw [hnone]
    by_cases hname : Text.sameText name m.feature = true
    · -- The default feature is mentioned and not added, so it is declared.
      have hmentioned : ms.any (Text.sameText ·.feature name) = true :=
        List.any_eq_true.2 ⟨m, hm, by rw [Text.sameText_comm, hname]⟩
      have hdeclared : (p.feature? m.feature).isNone = (p.feature? name).isNone := by
        rw [isNone_feature?, isNone_feature?]
        simp only [Text.sameText_comm _ name, Text.sameText_comm _ m.feature,
          Text.sameText_congr_left hname]
      rw [hmentioned, Bool.true_or, Bool.and_true] at hadded
      rw [hdeclared]
      simp [hadded]
    · simp [Feature.namesOf, name, hname]

/-- What the declared forest leaves are the features that are only mentioned. -/
theorem untaken_declared {p : Project} {ms : List Mention} {declared : FeaturePart}
    {a b : Allocator} (h : featurePart.featureParts (collect ms) (addedDefault p ms ++ p.features)
      a = .ok (declared, b)) :
    declared.untaken =
        collect (unclaimed (Feature.namesOf (addedDefault p ms ++ p.features)) ms) ∧
      declared.untaken.map (fun u => Feature.named u.feature) = undeclaredFeatures p ms := by
  have hleft := (writes_featurePart.2 _ _ _ _ _ h).untaken
  refine ⟨hleft, ?_⟩
  have hnames : declared.untaken.map (·.feature) =
      ((ms.map (·.feature)).filter (isUndeclared p)).eraseDupsBy Text.sameText := by
    rw [hleft, feature_collect, unclaimed_declared, List.filter_map]
    rfl
  rw [undeclaredFeatures, ← hnames, List.map_map]
  rfl

/-- The features of a document are written in two rows: first the declared forest, behind the
default feature where that is added, and then the features for the mentions that are left. -/
theorem allFeatureParts_eq_ok {p : Project} {refs : List ComponentRef} {part : FeaturePart}
    {warnings : List Warning} {a b : Allocator}
    (h : allFeatureParts p refs a = .ok ((part, warnings), b)) :
    let ms := mentions p.options.defaultFeature refs
    let fs := addedDefault p ms ++ p.features
    ∃ declared added c,
      featurePart.featureParts (collect ms) fs a = .ok (declared, c) ∧
      featurePart.featureParts (collect (unclaimed (Feature.namesOf fs) ms))
        (undeclaredFeatures p ms) c = .ok (added, b) ∧
      part = ⟨declared.elements ++ added.elements, declared.assigned ++ added.assigned,
        added.untaken⟩ ∧
      added.untaken = [] ∧
      warnings = (undeclaredFeatures p ms).map fun _ => .undeclaredFeature := by
  intro ms fs
  obtain ⟨declared, c, hdeclared, h⟩ := Emit.bind_eq_ok.1 h
  obtain ⟨added, d, hadded, h⟩ := Emit.bind_eq_ok.1 h
  obtain ⟨hpart, rfl⟩ := Emit.pure_eq_ok.1 h
  obtain ⟨rfl, rfl⟩ := Prod.mk.inj hpart
  have hnone := untaken_added hadded
  rw [featureUses_eq_collect, leadingFeatures_collect] at hdeclared
  obtain ⟨hleft, hmissing⟩ := untaken_declared hdeclared
  rw [hmissing, hleft] at hadded
  exact ⟨declared, added, c, hdeclared, hadded, rfl, hnone, by rw [hmissing]⟩

/-- The features of a document are written: they share the mentions out and leave none. Each one
that is added for its mentions alone is warned about. -/
theorem writes_allFeatureParts {p : Project} {refs : List ComponentRef} {part : FeaturePart}
    {warnings : List Warning} {a b : Allocator}
    (h : allFeatureParts p refs a = .ok ((part, warnings), b)) :
    let ms := mentions p.options.defaultFeature refs
    Writes ms (documentFeatures p ms) part ∧
      unclaimed (Feature.namesOf (documentFeatures p ms)) ms = [] ∧
      warnings = (undeclaredFeatures p ms).map fun _ => .undeclaredFeature := by
  intro ms
  obtain ⟨declared, added, c, hdeclared, hadded, rfl, hnone, hwarnings⟩ := allFeatureParts_eq_ok h
  have hall : Writes ms (documentFeatures p ms) ⟨declared.elements ++ added.elements,
      declared.assigned ++ added.assigned, added.untaken⟩ :=
    (writes_featurePart.2 _ _ _ _ _ hdeclared).append (writes_featurePart.2 _ _ _ _ _ hadded)
  exact ⟨hall, collect_eq_nil_iff.1 (hall.untaken.symm.trans hnone), hwarnings⟩

end Compile

end Installer
