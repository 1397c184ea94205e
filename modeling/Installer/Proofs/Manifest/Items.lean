import Installer.Proofs.Compile.FeatureReferences
import Installer.Proofs.Manifest.Parts
import Installer.Proofs.Manifest.Sites

/-!
# Taking features and items back

Features and directories hold further ones, so taking them back follows their structure. An item
carries its kind in front of its own fields; the kind is found again, and what is left is read as a
record of that kind.
-/
namespace Installer

open Json Json.Decoder Schema

namespace Manifest

theorem decodeFeatures_eq_list : decodeFeatures = Decoder.list decodeFeature := by
  funext depth j
  cases depth with
  | zero => rfl
  | succ depth => cases j <;> rfl

theorem encodeFeatures_eq_map (fs : List Feature) :
    encodeFeature.encodeFeatures fs = fs.map encodeFeature := by
  induction fs with
  | nil => rfl
  | cons f fs ih => rw [encodeFeature.encodeFeatures, ih, List.map_cons]

/-- A feature whose fields are read, with those below it. -/
def buildFeatures (depth : Nat) (fs : Fields) : Option Feature :=
  (fs.withDefault "children" (Decoder.list decodeFeature depth) []).bind (buildFeature depth fs)

theorem decodeFeature_eq_record : decodeFeature = Decoder.record featureFieldNames buildFeatures := by
  funext depth j
  cases depth with
  | zero => rfl
  | succ depth =>
    unfold buildFeatures
    rw [decodeFeature, Decoder.record, ← decodeFeatures_eq_list]
    rfl

/-- What the decoder of a feature took where numbers and features are. -/
theorem parts_of_yields_feature {f : Feature} {depth : Nat} (hf : Yields (decodeFeature depth) f) :
    TakesBack (fun _ => int64) int f.level ∧
      (∀ c, f.condition = some c → TakesBack decodeFeatureCondition encodeFeatureCondition c) ∧
        ∀ g ∈ f.children, ∃ inner, Yields (decodeFeature inner) g := by
  rw [decodeFeature_eq_record] at hf
  obtain ⟨inner, fs, hbuild⟩ := exists_of_yields_record hf
  obtain ⟨children, hchildren, hbuild⟩ := Option.bind_eq_some_iff.1 hbuild
  simp only [buildFeature, ↓bind_eq_some, Option.pure_def, Option.some.injEq] at hbuild
  obtain ⟨_, _, _, _, _, _, level, hlevel, _, _, _, _, _, _, condition, hcondition, _, _, rfl⟩ :=
    hbuild
  exact ⟨takesBack_int64 (yields_of_withDefault ⟨int 1, rfl⟩ hlevel),
    fun c hc => takesBack_featureCondition (yields_of_optional hcondition c hc),
    yields_of_withDefault_list hchildren⟩

theorem takesBack_feature {f : Feature} {depth : Nat} (hf : Yields (decodeFeature depth) f) :
    TakesBack decodeFeature encodeFeature f := by
  have hall : (∀ f : Feature, ∀ depth, Yields (decodeFeature depth) f →
      TakesBack decodeFeature encodeFeature f) ∧
      ∀ fs : List Feature, ∀ f ∈ fs, ∀ depth, Yields (decodeFeature depth) f →
        TakesBack decodeFeature encodeFeature f := by
    refine Feature.induction ?feature ?nil ?cons
    case feature =>
      intro id name description level allowChange typicalDefault configurable condition children
        attributes ih depth hf
      obtain ⟨hlevel, hcondition, hchildren⟩ := parts_of_yields_feature hf
      have hchildren : ∀ g ∈ children, TakesBack decodeFeature encodeFeature g := by
        intro g hg
        obtain ⟨inner, hg'⟩ := hchildren g hg
        exact ih g hg inner hg'
      have htake : int64 (int level) = some level := hlevel.take 0 (Nat.le_refl 0)
      have hchildrenPlain := isPlain_array_map hchildren
      have hconditionPlain : ∀ c, condition = some c → (encodeFeatureCondition c).IsPlain :=
        fun c hc => (hcondition c hc).plain
      rw [decodeFeature_eq_record]
      refine takesBack_record rfl rfl (by decide) ?_ fun depth h => ?_
      · simpa [encodeFeatures_eq_map, hlevel.plain, hchildrenPlain] using hconditionPlain
      · obtain ⟨hconditionRoom, hchildrenRoom, hroom⟩ :
            (∀ c, condition = some c → (encodeFeatureCondition c).nesting ≤ depth) ∧
              (array (children.map encodeFeature)).nesting ≤ depth ∧ 1 ≤ depth := by
          simpa [encodeFeatures_eq_map] using h
        have htakeCondition :=
          elim_takesBack hcondition (fun _ => present_ne_null _) hconditionRoom
        simp [buildFeatures, buildFeature, encodeFeatures_eq_map, htake, htakeCondition,
          mapping_mapping hroom, list_map hchildren hchildrenRoom]
    case nil => simp
    case cons =>
      intro f fs hf hfs
      exact List.forall_mem_cons.2 ⟨hf, hfs⟩
  exact hall.1 f depth hf

/-- The members of a directory. -/
def folderMembers (d : Folder) : List (String × Option Json) := [
  ("path", text d.path), ("id", optText d.id), ("features", texts d.features),
  ("install_dir", Json.bool d.installDir), ("attributes", Json.mapping d.attributes),
  ("items", Json.array (Folder.encode.encodeItems d.items))]

def encodeItem : Item → Json
  | .directory d => tagged "dir" (folderMembers d)
  | .file f => tagged "file" (fileMembers f)
  | .files s => tagged "files" s.members
  | .shortcut s => tagged "shortcut" (shortcutMembers s)
  | .registry r => tagged "registry" (registryMembers r)
  | .environment e => tagged "environment" (environmentMembers e)
  | .closeApplication c => tagged "close_application" c.members

theorem encodeItems_eq_map (items : List Item) :
    Folder.encode.encodeItems items = items.map encodeItem := by
  induction items with
  | nil => rfl
  | cons item items ih =>
    cases item with
    | directory d =>
      cases d
      rw [Folder.encode.encodeItems, ih, List.map_cons]
      rfl
    | _ =>
      rw [Folder.encode.encodeItems, ih, List.map_cons]
      rfl

theorem decodeItems_eq_list : decodeItems = Decoder.list (decodeItem true) := by
  funext depth j
  cases depth with
  | zero => rfl
  | succ depth => cases j <;> rfl

/-- A directory whose fields are read, with its items. -/
def buildFolders (depth : Nat) (fs : Fields) : Option Folder :=
  (fs.withDefault "items" (Decoder.list (decodeItem true) depth) []).bind (buildFolder depth fs)

/-- A directory behind its kind. -/
def decodeFolder : Nat → Decoder Folder :=
  Decoder.record folderFieldNames buildFolders

/-- The fields of an item of some kind. -/
def decodeKind (depth : Nat) (j : Json) : ItemKind → Option Item
  | .directory => (decodeFolder depth j).map .directory
  | .file => (decodeFile depth j).map .file
  | .files => (decodeFiles depth j).map .files
  | .shortcut => (decodeShortcut depth j).map .shortcut
  | .registry => (decodeRegistry depth j).map .registry
  | .environment => (decodeEnvironment depth j).map .environment
  | .closeApplication => (decodeClosing depth j).map .closeApplication

/-- An item is read by its kind. -/
theorem decodeItem_succ (nested : Bool) (depth : Nat) (j : Json) :
    decodeItem nested (depth + 1) j =
      (splitKind? nested j).bind fun k => decodeKind (depth + 1) k.2 k.1 := by
  rw [decodeItem]
  change (splitKind? nested j).bind _ = _
  congr 1
  funext k
  obtain ⟨kind, rest⟩ := k
  cases kind with
  | directory =>
    simp only [decodeKind, decodeFolder, Decoder.record, decodeItems_eq_list]
    rw [Option.map_bind]
    unfold buildFolders
    simp only [Function.comp_def, Option.map_bind]
    rfl
  | _ => rfl

/-- The kind in front of the fields of an item is found, and the fields are left. -/
theorem splitKind?_tagged (nested : Bool) (kind : ItemKind) {ms : List (String × Option Json)}
    (hms : ∀ m ∈ ms, m.1 ≠ "kind") :
    splitKind? nested (tagged (Text.Worded.word kind) ms) = some (kind, present ms) := by
  have hnames : ∀ m ∈ (presentFields ms).map (fun m => (some m.1, m.2)), m.1 ≠ some "kind" := by
    refine List.forall_mem_map.2 fun m hm => ?_
    obtain ⟨k, hk, hkm⟩ := List.mem_map.1 ((sublist_map_presentFields ms).mem (List.mem_map_of_mem hm))
    rw [← hkm]
    simpa using hms k hk
  have hkinds : ((presentFields ms).map fun m => (some m.1, m.2)).filter
      (fun m => m.1 == some "kind") = [] :=
    List.filter_eq_nil_iff.2 fun m hm => by simpa using hnames m hm
  have hothers : ((presentFields ms).map fun m => (some m.1, m.2)).filter
      (fun m => m.1 != some "kind") = (presentFields ms).map fun m => (some m.1, m.2) :=
    List.filter_eq_self.2 fun m hm => by simpa using hnames m hm
  have htagged : tagged (Text.Worded.word kind) ms = .object ((some "kind",
      text (Text.Worded.word kind)) :: (presentFields ms).map fun m => (some m.1, m.2)) := rfl
  have hkind : decodeItemKind nested (text (Text.Worded.word kind)) = some kind :=
    Text.LawfulWorded.ofWord?_word kind
  rw [htagged, splitKind?]
  simp only [List.filter_cons, beq_self_eq_true, if_true, bne_self_eq_false, Bool.false_eq_true,
    if_false, hkinds, hothers, hkind, Option.map_some]
  rfl

/-- An item is taken back where its fields are. -/
theorem takesBack_tagged {α : Type} (nested : Bool) {decode : Nat → Decoder α}
    {members : α → List (String × Option Json)} {wrap : α → Item} (kind : ItemKind) {x : α}
    (h : TakesBack decode (present ∘ members) x) (hmembers : ∀ m ∈ members x, m.1 ≠ "kind")
    (hdecode : ∀ depth j, decodeKind depth j kind = (decode depth j).map wrap)
    (hencode : encodeItem (wrap x) = tagged (Text.Worded.word kind) (members x)) :
    TakesBack (decodeItem nested) encodeItem (wrap x) := by
  constructor
  · rw [hencode]
    exact isPlain_present ((eachField_cons _ _ _ _).2
      ⟨by simp, eachField_of_isPlain h.plain⟩)
  · intro depth hdepth
    rw [hencode] at hdepth ⊢
    obtain ⟨inner, rfl, hfields⟩ := nesting_present_le hdepth
    have hnesting : (present (members x)).nesting ≤ inner + 1 :=
      nesting_present_le_of ((eachField_cons _ _ _ _).1 hfields).2
    have htake : decode (inner + 1) (present (members x)) = some x := h.take _ hnesting
    rw [decodeItem_succ, splitKind?_tagged nested kind hmembers, Option.bind_some, hdecode, htake,
      Option.map_some]

/-- What the decoder of an item took where directories and numbers are. -/
theorem parts_of_yields_item {nested : Bool} {item : Item} {depth : Nat}
    (h : Yields (decodeItem nested depth) item) :
    (∀ d, item = .directory d → Yields (decodeFolder depth) d) ∧
      ∀ c, item = .closeApplication c → Yields (decodeClosing depth) c := by
  obtain ⟨j, h⟩ := h
  cases depth with
  | zero =>
    rw [decodeItem] at h
    cases h
  | succ depth =>
    rw [decodeItem_succ] at h
    obtain ⟨⟨kind, rest⟩, _, h⟩ := Option.bind_eq_some_iff.1 h
    cases kind <;> obtain ⟨x, hx, rfl⟩ := Option.map_eq_some_iff.1 h
    case directory => exact ⟨by rintro d ⟨⟩; exact ⟨rest, hx⟩, by simp⟩
    case closeApplication => exact ⟨by simp, by rintro c ⟨⟩; exact ⟨rest, hx⟩⟩
    all_goals exact ⟨by simp, by simp⟩

theorem takesBack_folder {d : Folder}
    (h : ∀ item ∈ d.items, TakesBack (decodeItem true) encodeItem item) :
    TakesBack decodeFolder (present ∘ folderMembers) d := by
  obtain ⟨path, id, features, installDir, attributes, items⟩ := d
  have hplain := isPlain_array_map h
  refine takesBack_record rfl rfl (by decide) ?_ fun depth hdepth => ?_
  · simp [folderMembers, encodeItems_eq_map, hplain]
  · obtain ⟨hroom, hitemsRoom⟩ :
        1 ≤ depth ∧ (array (items.map encodeItem)).nesting ≤ depth := by
      simpa [folderMembers, encodeItems_eq_map] using hdepth
    simp [folderMembers, buildFolders, buildFolder, encodeItems_eq_map, mapping_mapping hroom,
      texts_texts hroom, list_map h hitemsRoom]

/-- An item that holds no directory is taken back. -/
theorem takesBack_leaf {item : Item} (hitem : ∀ d, item ≠ .directory d) {nested : Bool} {depth : Nat}
    (h : Yields (decodeItem nested depth) item) (inside : Bool) :
    TakesBack (decodeItem inside) encodeItem item := by
  cases item with
  | directory d => exact absurd rfl (hitem d)
  | file f =>
    exact takesBack_tagged inside .file (takesBack_file f) (by simp [fileMembers]) (fun _ _ => rfl) rfl
  | files s =>
    exact takesBack_tagged inside .files (takesBack_files s) (by simp [Files.members])
      (fun _ _ => rfl) rfl
  | shortcut s =>
    exact takesBack_tagged inside .shortcut (takesBack_shortcut s) (by simp [shortcutMembers])
      (fun _ _ => rfl) rfl
  | registry r =>
    exact takesBack_tagged inside .registry (takesBack_registry r) (by simp [registryMembers])
      (fun _ _ => rfl) rfl
  | environment e =>
    exact takesBack_tagged inside .environment (takesBack_environment e)
      (by simp [environmentMembers]) (fun _ _ => rfl) rfl
  | closeApplication c =>
    have hc := takesBack_closing ((parts_of_yields_item h).2 c rfl)
    exact takesBack_tagged inside .closeApplication hc (by simp [Closing.members])
      (fun _ _ => rfl) rfl

/-- An item that was taken somewhere is taken back in a directory and outside. -/
theorem takesBack_item {item : Item} {nested : Bool} {depth : Nat}
    (h : Yields (decodeItem nested depth) item) (inside : Bool) :
    TakesBack (decodeItem inside) encodeItem item := by
  have hall : (∀ d : Folder, ∀ depth, Yields (decodeFolder depth) d →
      TakesBack decodeFolder (present ∘ folderMembers) d) ∧
      ∀ items : List Item, ∀ item ∈ items, ∀ nested depth, Yields (decodeItem nested depth) item →
        ∀ inside, TakesBack (decodeItem inside) encodeItem item := by
    have hdirectory : ∀ d : Folder, (∀ depth, Yields (decodeFolder depth) d →
        TakesBack decodeFolder (present ∘ folderMembers) d) →
        ∀ nested depth, Yields (decodeItem nested depth) (.directory d) →
          ∀ inside, TakesBack (decodeItem inside) encodeItem (.directory d) := by
      intro d ih nested depth h inside
      have hd := ih depth ((parts_of_yields_item h).1 d rfl)
      exact takesBack_tagged inside .directory hd (by simp [folderMembers]) (fun _ _ => rfl) rfl
    refine Folder.induction ?folder ?nil ?directory ?other
    case folder =>
      intro path id features installDir attributes items ih depth h
      obtain ⟨inner, fs, hbuild⟩ := exists_of_yields_record h
      obtain ⟨read, hread, hbuild⟩ := Option.bind_eq_some_iff.1 hbuild
      simp only [buildFolder, ↓bind_eq_some, Option.pure_def, Option.some.injEq,
        Folder.mk.injEq] at hbuild
      obtain ⟨_, _, _, _, _, _, _, _, _, _, _, _, _, _, _, rfl⟩ := hbuild
      refine takesBack_folder fun item hitem => ?_
      obtain ⟨_, hyields⟩ := yields_of_withDefault_list hread item hitem
      exact ih item hitem _ _ hyields true
    case nil => simp
    case directory =>
      intro d items hd hitems
      exact List.forall_mem_cons.2 ⟨hdirectory d hd, hitems⟩
    case other =>
      intro item items hitem hitems
      exact List.forall_mem_cons.2 ⟨fun _ _ h => takesBack_leaf hitem h, hitems⟩
  exact hall.2 [item] item (List.mem_singleton_self item) nested depth h inside

/-- An item of the product is taken back, since all of it is readable. -/
theorem takesBack_topItem {item : Item} {depth : Nat} (h : Yields (decodeTopItem depth) item) :
    TakesBack decodeTopItem encodeItem item := by
  have hitem : TakesBack (decodeItem false) encodeItem item := by
    obtain ⟨j, hj⟩ := h
    rw [decodeTopItem] at hj
    split at hj
    · exact takesBack_item ⟨j, hj⟩ false
    · cases hj
  refine ⟨hitem.plain, fun depth hdepth => ?_⟩
  rw [decodeTopItem, if_pos (isReadable_of_isPlain hitem.plain hdepth), hitem.take depth hdepth]

end Manifest

end Installer
