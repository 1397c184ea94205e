import Installer.Compile.Features
import Installer.Proofs.Schema.Writing
import Mathlib.Data.List.Perm.Basic

/-!
# References of features

The uses of a document say which components each feature takes. Every feature that is written takes
its components from the uses, and what the declared features leave is taken by features that are
added. So the references in the document are those to all components that were declared.
-/
namespace Installer
open Identifier Markup Schema

/-- Features and rows of features, by what they are made of. -/
theorem Feature.induction {motive : Feature → Prop} {row : List Feature → Prop}
    (feature : ∀ id name description level allowChange typicalDefault configurableDirectory
      condition children attributes, row children →
      motive ⟨id, name, description, level, allowChange, typicalDefault, configurableDirectory,
        condition, children, attributes⟩)
    (nil : row []) (cons : ∀ f fs, motive f → row fs → row (f :: fs)) :
    (∀ f, motive f) ∧ ∀ fs, row fs := by
  have hf : ∀ f, motive f := @Feature.rec motive row feature nil cons
  refine ⟨hf, fun fs => ?_⟩
  induction fs with
  | nil => exact nil
  | cons f fs ih => exact cons f fs (hf f) ih

namespace Compile

/-- All components in a row of uses. -/
def componentsOf (us : List FeatureUse) : List String :=
  us.flatMap (·.components)

/-- One more use is one more component, in whatever use it goes. -/
theorem componentsOf_addUse (feature component : String) (us : List FeatureUse) :
    (componentsOf (addUse feature component us)).Perm (component :: componentsOf us) := by
  induction us with
  | nil => exact .refl _
  | cons u us ih =>
    rw [addUse]
    split
    · simp only [componentsOf, List.flatMap_cons, List.append_assoc, List.singleton_append]
      exact List.perm_middle
    · exact (ih.append_left u.components).trans List.perm_middle

theorem mem_componentsOf_addUses {id component : String} (fs : List String)
    (us : List FeatureUse) :
    id ∈ componentsOf (fs.foldl (fun us f => addUse f component us) us) ↔
      (id = component ∧ fs ≠ []) ∨ id ∈ componentsOf us := by
  induction fs generalizing us with
  | nil => simp
  | cons f fs ih =>
    rw [List.foldl_cons, ih, (componentsOf_addUse f component us).mem_iff, List.mem_cons]
    by_cases hid : id = component <;> simp [hid]

/-- The uses hold the components that were declared, and no others. -/
theorem mem_componentsOf_featureUses (defaultFeature : String) (refs : List ComponentRef)
    (id : String) :
    id ∈ componentsOf (featureUses defaultFeature refs) ↔ id ∈ refs.map (·.id) := by
  have hfold : ∀ us : List FeatureUse,
      id ∈ componentsOf (refs.foldl (fun us r =>
        (if r.features.isEmpty then [defaultFeature] else r.features).foldl
          (fun us f => addUse f r.id us) us) us) ↔
      id ∈ refs.map (·.id) ∨ id ∈ componentsOf us := by
    induction refs with
    | nil => simp
    | cons r refs ih =>
      intro us
      have hne : (if r.features.isEmpty then [defaultFeature] else r.features) ≠ [] := by
        by_cases hr : r.features = [] <;> simp [hr]
      rw [List.foldl_cons, ih, mem_componentsOf_addUses, List.map_cons, List.mem_cons]
      tauto
  simpa [featureUses, componentsOf] using hfold []

/-- A feature takes its own components, and the others stay. -/
theorem componentsOf_taken (feature : String) (us : List FeatureUse) :
    (componentsOf us).Perm (usesOf feature us ++ componentsOf (dropUse feature us)) := by
  induction us with
  | nil => exact .refl _
  | cons u us ih =>
    by_cases hu : Text.sameText u.feature feature = true
    · rw [usesOf, List.find?_cons, hu, dropUse, if_pos hu]
      exact .refl _
    · have huses : usesOf feature (u :: us) = usesOf feature us := by
        rw [usesOf, usesOf, List.find?_cons]
        simp [hu]
      rw [huses, dropUse, if_neg hu]
      exact (ih.append_left u.components).trans (List.perm_append_comm_assoc _ _ _)

def referenceIds (es : List Element) : List String :=
  (Element.allNamed "ComponentRef" es).filterMap (·.get? "Id")

/-- The names of elements that stand for features, or within such. -/
def featureNames : List String :=
  ["Feature", "Condition", "ComponentRef"]

/-- The features of a part take components from uses and leave the others. -/
structure Takes (us : List FeatureUse) (part : FeaturePart) : Prop where
  taken : (componentsOf us).Perm (referenceIds part.elements ++ componentsOf part.untaken)
  names : ∀ e ∈ Element.within part.elements, e.name ∈ featureNames
  kinds : ∀ g ∈ part.assigned, g.kind = .feature

theorem referenceIds_append (es fs : List Element) :
    referenceIds (es ++ fs) = referenceIds es ++ referenceIds fs := by
  simp [referenceIds]

/-- The elements within a feature's element before references and lower features are added. -/
theorem names_feature_complete (f : Feature) (id : Option String) :
    ∀ e ∈ Element.within (Feature.schema.complete f id).element.elements, e.name = "Condition" := by
  rw [elements_complete]
  have hmem : ∀ e ∈ Feature.schema.fieldChildren f, e.name = "Condition" ∧ e.elements = [] := by
    intro e he
    obtain ⟨g, hg, es, hv, hes⟩ := mem_fieldChildren he
    simp only [Feature.schema, Field.required, Field.optional, Field.asChildren,
      List.mem_cons, List.not_mem_nil, or_false] at hg
    rcases hg with rfl | rfl | rfl | rfl | rfl | rfl | rfl
    case inr.inr.inr.inr.inr.inr =>
      cases hc : f.condition with
      | none => simp [hc] at hv
      | some c =>
        have hcondition : es = [Feature.conditionElement c] := by simpa [hc] using hv.symm
        rw [hcondition, List.mem_singleton] at hes
        rw [hes]
        exact ⟨rfl, rfl⟩
    all_goals simp at hv
  rw [Element.within_eq_self fun e he => (hmem e he).2]
  exact fun e he => (hmem e he).1

/-- The references to components, as they are written. -/
theorem within_references (ids : List String) :
    Element.within (ids.map componentRefElement) = ids.map componentRefElement := by
  refine Element.within_eq_self fun e he => ?_
  obtain ⟨id, _, rfl⟩ := List.mem_map.1 he
  rfl

theorem referenceIds_references (ids : List String) :
    referenceIds (ids.map componentRefElement) = ids := by
  have hall : (ids.map componentRefElement).filter (·.name == "ComponentRef") =
      ids.map componentRefElement := by
    rw [List.filter_eq_self]
    intro e he
    obtain ⟨id, _, rfl⟩ := List.mem_map.1 he
    rfl
  rw [referenceIds, Element.allNamed, within_references, hall, List.filterMap_map]
  have hget : (fun e : Element => e.get? "Id") ∘ componentRefElement = some := by
    funext id
    simp [componentRefElement, Element.get?_set]
  rw [hget, List.filterMap_some]

/-- A feature's element with references and lower features refers to what they refer to. -/
theorem element_with_references {own : Element} (hname : own.name = "Feature")
    (hown : ∀ x ∈ Element.within own.elements, x.name = "Condition") (ids : List String)
    {below : List Element} (hbelow : ∀ x ∈ Element.within below, x.name ∈ featureNames) :
    referenceIds [(own.pushAll (ids.map componentRefElement)).pushAll below] =
        ids ++ referenceIds below ∧
      ∀ x ∈ Element.within [(own.pushAll (ids.map componentRefElement)).pushAll below],
        x.name ∈ featureNames := by
  let e := (own.pushAll (ids.map componentRefElement)).pushAll below
  have hename : e.name = "Feature" := hname
  have helements : e.elements = own.elements ++ ids.map componentRefElement ++ below := by
    rw [Element.elements_pushAll, Element.elements_pushAll]
  constructor
  · have hnone : Element.allNamed "ComponentRef" own.elements = [] :=
      Element.allNamed_eq_nil fun x hx => by simp [hown x hx]
    have hnamed : Element.allNamed "ComponentRef" [e] =
        Element.allNamed "ComponentRef" (ids.map componentRefElement ++ below) := by
      rw [Element.allNamed_cons, helements, hename]
      simp [hnone]
    change (Element.allNamed "ComponentRef" [e]).filterMap _ = _
    rw [hnamed, ← referenceIds, referenceIds_append, referenceIds_references]
  · intro x hx
    change x ∈ Element.within [e] at hx
    rw [Element.within_cons, Element.within_nil, List.append_nil, helements,
      Element.within_append, Element.within_append, within_references] at hx
    rcases List.mem_cons.1 hx with rfl | hx
    · rw [hename]
      decide
    · rcases List.mem_append.1 hx with hx | hx
      · rcases List.mem_append.1 hx with hx | hx
        · rw [hown x hx]
          decide
        · obtain ⟨ref, _, rfl⟩ := List.mem_map.1 hx
          simp [componentRefElement, featureNames]
      · exact hbelow x hx

/-- A feature takes its own components, and those below it take theirs from what is left. -/
theorem takes_featurePart :
    (∀ f us a part b, featurePart us f a = .ok (part, b) → Takes us part) ∧
      ∀ fs us a part b, featurePart.featureParts us fs a = .ok (part, b) → Takes us part := by
  refine Feature.induction ?feature ?nil ?cons
  case feature =>
    intro id name description level allowChange typicalDefault configurableDirectory condition
      children attributes ih us a part b h
    rw [featurePart] at h
    obtain ⟨w, c, hw, h⟩ := Emit.bind_eq_ok.1 h
    obtain ⟨_, rfl, rfl⟩ := Schema.emit_eq_ok.1 hw
    obtain ⟨below, d, hbelow, h⟩ := Emit.bind_eq_ok.1 h
    obtain ⟨rfl, rfl⟩ := Emit.pure_eq_ok.1 h
    have hlower := ih (dropUse name us) _ below d hbelow
    obtain ⟨hids, hnames⟩ := element_with_references (complete_name Feature.schema _ _)
      (names_feature_complete _ _) (usesOf name us) hlower.names
    refine ⟨?_, hnames, List.forall_mem_cons.2 ⟨rfl, hlower.kinds⟩⟩
    rw [hids, List.append_assoc]
    exact (componentsOf_taken name us).trans (hlower.taken.append_left _)
  case nil =>
    intro us a part b h
    obtain ⟨rfl, rfl⟩ := Emit.pure_eq_ok.1 h
    exact ⟨.refl _, by simp, by simp⟩
  case cons =>
    intro f fs hf hfs us a part b h
    rw [featurePart.featureParts] at h
    obtain ⟨first, c, hfirst, h⟩ := Emit.bind_eq_ok.1 h
    obtain ⟨rest, d, hrest, h⟩ := Emit.bind_eq_ok.1 h
    obtain ⟨rfl, rfl⟩ := Emit.pure_eq_ok.1 h
    have htaken := hf us a first c hfirst
    have htakenRest := hfs first.untaken c rest d hrest
    constructor
    · rw [referenceIds_append, List.append_assoc]
      exact htaken.taken.trans (htakenRest.taken.append_left _)
    · rw [Element.within_append]
      exact List.forall_mem_append.2 ⟨htaken.names, htakenRest.names⟩
    · exact List.forall_mem_append.2 ⟨htaken.kinds, htakenRest.kinds⟩

/-- Features named for all uses leave none. -/
theorem untaken_added {us : List FeatureUse} {part : FeaturePart} {a b : Allocator}
    (h : featurePart.featureParts us (us.map fun u => Feature.named u.feature) a = .ok (part, b)) :
    part.untaken = [] := by
  induction us generalizing part a with
  | nil =>
    obtain ⟨rfl, _⟩ := Emit.pure_eq_ok.1 h
    rfl
  | cons u us ih =>
    rw [List.map_cons, featurePart.featureParts] at h
    obtain ⟨first, c, hfirst, h⟩ := Emit.bind_eq_ok.1 h
    obtain ⟨rest, d, hrest, h⟩ := Emit.bind_eq_ok.1 h
    obtain ⟨rfl, rfl⟩ := Emit.pure_eq_ok.1 h
    have hdrop : first.untaken = us := by
      rw [Feature.named, featurePart] at hfirst
      obtain ⟨w, _, _, hfirst⟩ := Emit.bind_eq_ok.1 hfirst
      obtain ⟨below, _, hbelow, hfirst⟩ := Emit.bind_eq_ok.1 hfirst
      obtain ⟨rfl, _⟩ := Emit.pure_eq_ok.1 hfirst
      obtain ⟨rfl, _⟩ := Emit.pure_eq_ok.1 hbelow
      simp [dropUse, Text.sameText]
    rw [hdrop] at hrest
    have hnone : rest.untaken = [] := ih hrest
    exact hnone

/-- The features of a document with their references and their entries in the report. -/
structure Refers (refs : List ComponentRef) (part : FeaturePart) : Prop where
  references : ∀ id, id ∈ referenceIds part.elements ↔ id ∈ refs.map (·.id)
  names : ∀ e ∈ Element.within part.elements, e.name ∈ featureNames
  kinds : ∀ g ∈ part.assigned, g.kind = .feature

/-- The features of a document refer to the components that were declared, and to no others. -/
theorem refers_allFeatureParts {p : Project} {refs : List ComponentRef} {part : FeaturePart}
    {warnings : List Warning} {a b : Allocator}
    (h : allFeatureParts p refs a = .ok ((part, warnings), b)) : Refers refs part := by
  obtain ⟨declared, c, hdeclared, h⟩ := Emit.bind_eq_ok.1 h
  obtain ⟨added, d, hadded, h⟩ := Emit.bind_eq_ok.1 h
  obtain ⟨hpart, rfl⟩ := Emit.pure_eq_ok.1 h
  obtain ⟨rfl, rfl⟩ := Prod.mk.inj hpart
  have htaken := takes_featurePart.2 _ _ _ _ _ hdeclared
  have htakenAdded := takes_featurePart.2 _ _ _ _ _ hadded
  have hall : (componentsOf (featureUses p.options.defaultFeature refs)).Perm
      (referenceIds (declared.elements ++ added.elements)) := by
    have huntaken := htakenAdded.taken
    rw [untaken_added hadded] at huntaken
    rw [referenceIds_append]
    exact htaken.taken.trans ((huntaken.trans (by simp [componentsOf])).append_left _)
  constructor
  · intro id
    rw [← hall.mem_iff, mem_componentsOf_featureUses]
  · rw [Element.within_append]
    exact List.forall_mem_append.2 ⟨htaken.names, htakenAdded.names⟩
  · exact List.forall_mem_append.2 ⟨htaken.kinds, htakenAdded.kinds⟩

end Compile

end Installer
