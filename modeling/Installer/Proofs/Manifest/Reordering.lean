import Installer.Proofs.Json.Reordering
import Installer.Proofs.Manifest.Items

/-!
# Manifests up to the order of members

Each record of a manifest is read by the names of its fields, at every depth, and the kind of an
item is found wherever its member stands. So no part of a manifest depends on the order of members.
-/
namespace Installer.Manifest

open Json Json.Decoder Json.Fields

theorem insensitive_product (depth : Nat) : Insensitive (decodeProduct depth) := by
  refine insensitive_record (fun depth fs gs h => ?_) depth
  simp only [h.required insensitive_text, h.withDefault insensitive_text,
    h.optional insensitive_text, h.withDefault (insensitive_mapping depth)]

theorem insensitive_featureCondition (depth : Nat) :
    Insensitive (decodeFeatureCondition depth) := by
  refine insensitive_record (fun depth fs gs h => ?_) depth
  simp only [h.required insensitive_int64, h.required insensitive_text]

theorem insensitive_property (depth : Nat) : Insensitive (decodeProperty depth) := by
  refine insensitive_record (fun depth fs gs h => ?_) depth
  simp only [h.required insensitive_text, h.optional insensitive_text, h.optional insensitive_bool,
    h.withDefault (insensitive_mapping depth)]

theorem insensitive_file (depth : Nat) : Insensitive (decodeFile depth) := by
  refine insensitive_record (fun depth fs gs h => ?_) depth
  simp only [h.required insensitive_text, h.optional insensitive_text, h.optional insensitive_bool,
    h.withDefault (insensitive_texts depth), h.withDefault (insensitive_mapping depth)]

theorem insensitive_files (depth : Nat) : Insensitive (decodeFiles depth) := by
  refine insensitive_record (fun depth fs gs h => ?_) depth
  simp only [h.required insensitive_text, h.withDefault (insensitive_texts depth)]

theorem insensitive_shortcut (depth : Nat) : Insensitive (decodeShortcut depth) := by
  refine insensitive_record (fun depth fs gs h => ?_) depth
  simp only [h.required insensitive_text, h.optional insensitive_text,
    h.withDefault (insensitive_texts depth), h.withDefault (insensitive_mapping depth)]

theorem insensitive_registry (depth : Nat) : Insensitive (decodeRegistry depth) := by
  refine insensitive_record (fun depth fs gs h => ?_) depth
  simp only [h.required insensitive_text, h.optional insensitive_text, h.optional insensitive_bool,
    h.withDefault insensitive_text, h.withDefault (insensitive_word true depth),
    h.withDefault (insensitive_texts depth), h.withDefault (insensitive_mapping depth)]

theorem insensitive_environment (depth : Nat) : Insensitive (decodeEnvironment depth) := by
  refine insensitive_record (fun depth fs gs h => ?_) depth
  simp only [h.required insensitive_text, h.optional insensitive_text, h.optional insensitive_bool,
    h.withDefault (insensitive_word true depth), h.optional (insensitive_word true depth),
    h.withDefault (insensitive_texts depth), h.withDefault (insensitive_mapping depth)]

theorem insensitive_closing (depth : Nat) : Insensitive (decodeClosing depth) := by
  refine insensitive_record (fun depth fs gs h => ?_) depth
  simp only [h.required insensitive_text, h.optional insensitive_text, h.optional insensitive_bool,
    h.optional insensitive_int64, h.withDefault insensitive_bool,
    h.withDefault (insensitive_mapping depth)]

theorem insensitive_cabinet (depth : Nat) : Insensitive (decodeCabinet depth) := by
  refine insensitive_record (fun depth fs gs h => ?_) depth
  simp only [h.withDefault insensitive_int64, h.optional insensitive_text,
    h.optional insensitive_bool, h.optional (insensitive_word false depth),
    h.withDefault (insensitive_mapping depth)]

theorem insensitive_majorUpgrade (depth : Nat) : Insensitive (decodeMajorUpgrade depth) := by
  refine insensitive_record (fun depth fs gs h => ?_) depth
  simp only [h.optional insensitive_text, h.optional insensitive_bool,
    h.optional (insensitive_word false depth), h.withDefault (insensitive_mapping depth)]

theorem insensitive_action (depth : Nat) : Insensitive (decodeAction depth) := by
  refine insensitive_record (fun depth fs gs h => ?_) depth
  simp only [h.optional (insensitive_word false depth), h.optional insensitive_text,
    h.withDefault insensitive_text, h.optional insensitive_nat32]

theorem insensitive_controlCondition (depth : Nat) :
    Insensitive (decodeControlCondition depth) := by
  refine insensitive_record (fun depth fs gs h => ?_) depth
  simp only [h.required (insensitive_word false depth), h.required insensitive_text]

theorem insensitive_control (depth : Nat) : Insensitive (decodeControl depth) := by
  refine insensitive_record (fun depth fs gs h => ?_) depth
  simp only [h.required insensitive_text, h.optional insensitive_text,
    h.withDefault insensitive_nat32, h.withDefault insensitive_bool,
    h.withDefault (insensitive_list insensitive_action depth),
    h.withDefault (insensitive_list insensitive_controlCondition depth),
    h.withDefault (insensitive_mapping depth)]

theorem insensitive_dialog (depth : Nat) : Insensitive (decodeDialog depth) := by
  refine insensitive_record (fun depth fs gs h => ?_) depth
  simp only [h.required insensitive_text, h.withDefault insensitive_text,
    h.withDefault insensitive_nat32, h.withDefault (insensitive_list insensitive_control depth),
    h.withDefault (insensitive_mapping depth)]

theorem insensitive_publish (depth : Nat) : Insensitive (decodePublish depth) := by
  refine insensitive_record (fun depth fs gs h => ?_) depth
  simp only [h.required insensitive_text, h.withDefault insensitive_bool,
    h.withDefault (insensitive_list insensitive_action depth)]

theorem insensitive_ui (depth : Nat) : Insensitive (decodeUi depth) := by
  refine insensitive_record (fun depth fs gs h => ?_) depth
  simp only [h.withDefault (insensitive_word false depth), h.optional (insensitive_dialog depth),
    h.withDefault (insensitive_list insensitive_dialog depth),
    h.withDefault (insensitive_list insensitive_publish depth),
    h.withDefault (insensitive_mapping depth)]

theorem insensitive_options (depth : Nat) : Insensitive (decodeOptions depth) := by
  refine insensitive_record (fun depth fs gs h => ?_) depth
  simp only [h.withDefault (insensitive_nullable insensitive_text), h.withDefault insensitive_text,
    h.withDefault (insensitive_word false depth), h.withDefault insensitive_bool]

theorem buildFeature_congr {fs gs : Fields} (h : fs.Alike gs) (depth : Nat)
    (children : List Feature) :
    buildFeature depth fs children = buildFeature depth gs children := by
  unfold buildFeature
  simp only [h.required insensitive_text, h.optional insensitive_text,
    h.withDefault insensitive_int64, h.withDefault insensitive_bool,
    h.optional (insensitive_word false depth),
    h.optional (insensitive_featureCondition depth), h.withDefault (insensitive_mapping depth)]

/-- A feature is read by its fields, and so is each feature below it. -/
theorem insensitive_feature (depth : Nat) : Insensitive (decodeFeature depth) := by
  induction depth using Nat.strongRecOn with
  | ind depth ih =>
    rw [decodeFeature_eq_record]
    refine insensitive_record_of_lt fun inner hinner fs gs h => ?_
    have hchildren : Insensitive (Decoder.list decodeFeature inner) :=
      insensitive_list_of_lt fun deeper hdeeper => ih deeper (hdeeper.trans hinner)
    rw [buildFeatures, buildFeatures, h.withDefault hchildren]
    congr 1
    funext children
    exact buildFeature_congr h inner children

theorem buildFolder_congr {fs gs : Fields} (h : fs.Alike gs) (depth : Nat) (items : List Item) :
    buildFolder depth fs items = buildFolder depth gs items := by
  unfold buildFolder
  simp only [h.required insensitive_text, h.optional insensitive_text,
    h.withDefault insensitive_bool, h.withDefault (insensitive_texts depth),
    h.withDefault (insensitive_mapping depth)]

theorem insensitive_itemKind (nested : Bool) : Insensitive (decodeItemKind nested) :=
  .of_constant (fun _ => rfl) (fun _ => rfl)

/-- An object has one member `kind`, or no kind. -/
theorem splitKind?_object_eq_none (nested : Bool) {ms : List (Option String × Json)}
    (h : (ms.filter (·.1 == some "kind")).length ≠ 1) : splitKind? nested (.object ms) = none := by
  rw [splitKind?]
  split
  case h_1 hone => exact absurd (by rw [hone]; rfl) h
  case h_2 => rfl

/-- The kind of an item is found wherever its member stands, and what is left of reordered items is
reordered. -/
theorem splitKind?_rel (nested : Bool) {j k : Json} (h : Reordered j k) :
    Option.Rel (fun p q => p.1 = q.1 ∧ Reordered p.2 q.2) (splitKind? nested j)
      (splitKind? nested k) := by
  cases h with
  | same =>
    cases splitKind? nested j with
    | none => exact .none
    | some p => exact .some ⟨rfl, .same _⟩
  | array hitems =>
    cases hitems with
    | nil => exact .none
    | cons hkind hitems =>
      rw [splitKind?, splitKind?, insensitive_itemKind nested _ _ hkind]
      cases decodeItemKind nested _ with
      | none => exact .none
      | some kind => exact .some ⟨rfl, .array hitems⟩
  | @object ms ns os hnames hvalues horder hdistinct =>
    have hmembers := forall₂_membersAlike hnames hvalues
    have hkinds := filter_membersAlike (· == some "kind") hmembers
    have horders := horder.filter (·.1 == some "kind")
    by_cases hone : (ms.filter (·.1 == some "kind")).length = 1
    · obtain ⟨⟨name, kind⟩, hms⟩ := List.length_eq_one_iff.1 hone
      rw [hms] at hkinds
      obtain ⟨⟨_, kind'⟩, rest, ⟨rfl, hkind⟩, hrest, hns⟩ := List.forall₂_cons_left_iff.1 hkinds
      obtain rfl := List.forall₂_nil_left_iff.1 hrest
      rw [hns] at horders
      have hos := List.singleton_perm.1 horders
      have hothers := filter_membersAlike (· != some "kind") hmembers
      have hleft : ((os.filter (·.1 != some "kind")).filterMap (·.1)).Nodup :=
        hdistinct.sublist (List.filter_sublist.filterMap _)
      simp only [splitKind?, hms, ← hos, insensitive_itemKind nested _ _ hkind]
      cases decodeItemKind nested kind' with
      | none => exact .none
      | some kind =>
        exact .some ⟨rfl, .object (names_eq_of_membersAlike hothers)
          (values_of_membersAlike hothers) (horder.filter _) hleft⟩
    · have hone' : (os.filter (·.1 == some "kind")).length ≠ 1 := by
        rwa [← horders.length_eq, ← hkinds.length_eq]
      rw [splitKind?_object_eq_none nested hone, splitKind?_object_eq_none nested hone']
      exact .none

/-- What an item is read as depends on its kind and on what is left behind it. -/
theorem decodeKind_congr {depth : Nat} (hfolder : Insensitive (decodeFolder depth))
    (kind : ItemKind) {j k : Json} (h : Reordered j k) :
    decodeKind depth j kind = decodeKind depth k kind := by
  cases kind with
  | directory => rw [decodeKind, decodeKind, hfolder _ _ h]
  | file => rw [decodeKind, decodeKind, insensitive_file _ _ _ h]
  | files => rw [decodeKind, decodeKind, insensitive_files _ _ _ h]
  | shortcut => rw [decodeKind, decodeKind, insensitive_shortcut _ _ _ h]
  | registry => rw [decodeKind, decodeKind, insensitive_registry _ _ _ h]
  | environment => rw [decodeKind, decodeKind, insensitive_environment _ _ _ h]
  | closeApplication => rw [decodeKind, decodeKind, insensitive_closing _ _ _ h]

/-- An item is read by its kind and its fields, and so is each item in it. -/
theorem insensitive_item (nested : Bool) (depth : Nat) : Insensitive (decodeItem nested depth) := by
  induction depth using Nat.strongRecOn generalizing nested with
  | ind depth ih =>
    intro j k h
    cases depth with
    | zero => rfl
    | succ depth =>
      rw [decodeItem_succ, decodeItem_succ]
      obtain ⟨hj, hk⟩ | ⟨p, q, hj, hk, hkind, hrest⟩ := rel_cases (splitKind?_rel nested h) <;>
        rw [hj, hk]
      have hfolder : Insensitive (decodeFolder (depth + 1)) := by
        refine insensitive_record_of_lt fun inner hinner fs gs h => ?_
        have hitems : Insensitive (Decoder.list (decodeItem true) inner) :=
          insensitive_list_of_lt fun deeper hdeeper => ih deeper (hdeeper.trans hinner) true
        rw [buildFolders, buildFolders, h.withDefault hitems]
        congr 1
        funext items
        exact buildFolder_congr h inner items
      rw [Option.bind_some, Option.bind_some, hkind]
      exact decodeKind_congr hfolder q.1 hrest

/-- An item of the product is taken up as a whole, which does not depend on the order either. -/
theorem insensitive_topItem (depth : Nat) : Insensitive (decodeTopItem depth) := by
  intro j k h
  rw [decodeTopItem, decodeTopItem, insensitive_isReadable depth j k h,
    insensitive_item false depth j k h]

/-- A manifest is read from reordered values alike. -/
theorem insensitive_manifest (depth : Nat) : Insensitive (decode depth) := by
  refine insensitive_record (fun depth fs gs h => ?_) depth
  have hfeatures : Insensitive (decodeFeatures depth) := by
    rw [decodeFeatures_eq_list]
    exact insensitive_list insensitive_feature depth
  simp only [h.required (insensitive_product depth), h.withDefault hfeatures,
    h.withDefault (insensitive_list insensitive_property depth),
    h.withDefault (insensitive_list insensitive_topItem depth),
    h.optional (insensitive_cabinet depth), h.optional (insensitive_majorUpgrade depth),
    h.optional (insensitive_ui depth), h.withDefault (insensitive_options depth)]

end Installer.Manifest
