import Installer.Proofs.Compile.FeatureForest

/-!
# Features with names

A feature is written if it has a name, and so a document's features are written if all of them have
names. This depends on the components only by the names that they mention, so fewer components never
stand in the way.
-/
namespace Installer.Compile
open Identifier Schema

theorem missing?_feature (f : Feature) : Feature.schema.missing? f = none ↔ f.name ≠ "" := by
  have hfields : (Feature.schema.missing? f).isSome = f.name.isEmpty := by
    cases h : f.name.isEmpty <;>
      simp [Schema.missing?, Feature.schema, Field.isMissing, Field.value?, Field.required,
        Field.optional, Field.asChildren, Value.isAbsent, h]
  rw [← Option.isNone_iff_eq_none, ← Option.not_isSome, hfields]
  simp

/-- Features are written if all have names, at any depth. -/
theorem exists_featurePart_iff :
    (∀ f us a, (∃ r, featurePart us f a = .ok r) ↔ "" ∉ Feature.namesOf [f]) ∧
      ∀ fs us a, (∃ r, featurePart.featureParts us fs a = .ok r) ↔ "" ∉ Feature.namesOf fs := by
  refine Feature.induction ?feature ?nil ?cons
  case feature =>
    intro id name description level allowChange typicalDefault configurableDirectory condition
      children attributes ih us a
    let f : Feature := ⟨id, name, description, level, allowChange, typicalDefault,
      configurableDirectory, condition, children, attributes⟩
    have hnames : "" ∉ Feature.namesOf [f] ↔ f.name ≠ "" ∧ "" ∉ Feature.namesOf children := by
      rw [Feature.namesOf_cons, List.mem_append, List.mem_cons, eq_comm]
      simp [Feature.namesOf, f]
    rw [hnames, featurePart]
    constructor
    · rintro ⟨⟨part, b⟩, h⟩
      obtain ⟨w, c, hw, h⟩ := Emit.bind_eq_ok.1 h
      obtain ⟨below, e, hbelow, -⟩ := Emit.bind_eq_ok.1 h
      exact ⟨(missing?_feature f).1 (emit_eq_ok.1 hw).1, (ih _ c).1 ⟨_, hbelow⟩⟩
    · rintro ⟨hname, hchildren⟩
      have hw := emit_eq_ok (a := a).2 ⟨(missing?_feature f).2 hname, rfl, rfl⟩
      obtain ⟨⟨below, e⟩, hbelow⟩ := (ih (dropUse name us) _).2 hchildren
      rw [Emit.bind_of_ok hw, Emit.bind_of_ok hbelow]
      exact ⟨_, rfl⟩
  case nil => exact fun us a => ⟨fun _ => by simp [Feature.namesOf], fun _ => ⟨_, rfl⟩⟩
  case cons =>
    intro f fs hf hfs us a
    rw [featurePart.featureParts, ← List.singleton_append, Feature.namesOf_append, List.mem_append,
      not_or]
    constructor
    · rintro ⟨⟨part, b⟩, h⟩
      obtain ⟨first, c, hfirst, h⟩ := Emit.bind_eq_ok.1 h
      obtain ⟨rest, e, hrest, -⟩ := Emit.bind_eq_ok.1 h
      exact ⟨(hf us a).1 ⟨_, hfirst⟩, (hfs _ c).1 ⟨_, hrest⟩⟩
    · rintro ⟨hname, hnames⟩
      obtain ⟨⟨first, c⟩, hfirst⟩ := (hf us a).2 hname
      obtain ⟨⟨rest, e⟩, hrest⟩ := (hfs first.untaken c).2 hnames
      rw [Emit.bind_of_ok hfirst, Emit.bind_of_ok hrest]
      exact ⟨_, rfl⟩

/-- The features of a document are written if all of them have names. -/
theorem exists_allFeatureParts_iff (p : Project) (refs : List ComponentRef) (a : Allocator) :
    (∃ r, allFeatureParts p refs a = .ok r) ↔
      "" ∉ Feature.namesOf (documentFeatures p (mentions p.options.defaultFeature refs)) := by
  rw [documentFeatures, Feature.namesOf_append, List.mem_append, not_or,
    ← exists_featurePart_iff.2 _ (collect (mentions p.options.defaultFeature refs)) a]
  constructor
  · rintro ⟨⟨⟨part, warnings⟩, b⟩, h⟩
    obtain ⟨declared, added, c, hdeclared, hadded, -⟩ := allFeatureParts_eq_ok h
    exact ⟨⟨_, hdeclared⟩, (exists_featurePart_iff.2 _ _ c).1 ⟨_, hadded⟩⟩
  · rintro ⟨⟨⟨declared, c⟩, hdeclared⟩, hnames⟩
    obtain ⟨⟨added, b⟩, hadded⟩ := (exists_featurePart_iff.2 _ declared.untaken c).2 hnames
    rw [← (untaken_declared hdeclared).2] at hadded
    rw [allFeatureParts, featureUses_eq_collect, leadingFeatures_collect]
    rw [Emit.bind_of_ok hdeclared, Emit.bind_of_ok hadded]
    exact ⟨_, rfl⟩

theorem eq_empty_of_sameText {s : String} (h : Text.sameText s "" = true) : s = "" := by
  have hfold := Text.sameText_iff.1 h
  rw [← String.toList_inj] at hfold
  simpa [Text.fold] using hfold

/-- The features that are only mentioned are mentioned, letter case aside. -/
theorem exists_mention_of_mem_undeclared {p : Project} {ms : List Mention} {n : String}
    (h : n ∈ ((ms.map (·.feature)).filter (isUndeclared p)).eraseDupsBy Text.sameText) :
    ∃ m ∈ ms, Text.sameText m.feature n = true := by
  rw [List.filter_map, ← feature_collect] at h
  obtain ⟨u, hu, rfl⟩ := List.mem_map.1 h
  have hused := any_collect u.feature (ms.filter (isUndeclared p ∘ (·.feature)))
  rw [List.any_eq_true.2 ⟨u, hu, by simp [Text.sameText]⟩, eq_comm, List.any_eq_true] at hused
  obtain ⟨m, hm, hsame⟩ := hused
  exact ⟨m, (List.mem_filter.1 hm).1, hsame⟩

theorem addedDefault_subset (p : Project) {ms more : List Mention} (h : ms ⊆ more) :
    addedDefault p ms ⊆ addedDefault p more := by
  intro f hf
  simp only [addedDefault] at hf ⊢
  split at hf
  case isTrue hadded =>
    rw [if_pos, List.mem_singleton]
    · exact List.mem_singleton.1 hf
    · simp only [Bool.and_eq_true, Bool.or_eq_true, List.any_eq_true] at hadded ⊢
      obtain ⟨hmissing, hused⟩ := hadded
      refine ⟨hmissing, hused.imp_left ?_⟩
      rintro ⟨m, hm, hname⟩
      exact ⟨m, h hm, hname⟩
  case isFalse => simp at hf

/-- With fewer components the features of a document are still written. -/
theorem exists_allFeatureParts_of_subset {p : Project} {refs others : List ComponentRef}
    (hsubset : refs ⊆ others) {a b : Allocator} {part : FeaturePart} {warnings : List Warning}
    (h : allFeatureParts p others a = .ok ((part, warnings), b)) (c : Allocator) :
    ∃ r, allFeatureParts p refs c = .ok r := by
  have hnames := (exists_allFeatureParts_iff p others a).1 ⟨_, h⟩
  obtain ⟨-, hnone, -⟩ := writes_allFeatureParts h
  rw [exists_allFeatureParts_iff]
  generalize hms : mentions p.options.defaultFeature refs = ms
  generalize hmore : mentions p.options.defaultFeature others = more at hnames hnone
  have hmentions : ms ⊆ more := by
    subst hms hmore
    intro m hm
    obtain ⟨r, hr, hm⟩ := List.mem_flatMap.1 hm
    exact List.mem_flatMap.2 ⟨r, hsubset hr, hm⟩
  intro hempty
  obtain ⟨f, hf, hname⟩ := List.mem_map.1 hempty
  have hwalk : f ∉ (documentFeatures p more).flatMap Feature.walk := fun hf =>
    hnames (List.mem_map.2 ⟨f, hf, hname⟩)
  rw [walk_documentFeatures, List.mem_append, List.mem_append] at hf hwalk
  rcases hf with (hf | hf) | hf
  · exact hwalk (.inl (.inl (addedDefault_subset p hmentions hf)))
  · exact hwalk (.inl (.inr hf))
  · -- Every mention goes to a feature of its name, letter case aside, and so does an empty one.
    obtain ⟨n, hn, rfl⟩ := List.mem_map.1 hf
    obtain rfl : n = "" := hname
    obtain ⟨m, hm, hempty⟩ := exists_mention_of_mem_undeclared hn
    have hclaimed := List.filter_eq_nil_iff.1 hnone m (hmentions hm)
    rw [Bool.not_eq_true, Bool.not_eq_false', List.any_eq_true,
      eq_empty_of_sameText hempty] at hclaimed
    obtain ⟨own, hown, hsame⟩ := hclaimed
    exact hnames (eq_empty_of_sameText hsame ▸ hown)

end Installer.Compile
