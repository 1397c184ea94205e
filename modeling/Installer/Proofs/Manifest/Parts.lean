import Installer.Proofs.Json.Records

/-!
# Taking the parts of a manifest back

Every part of a manifest that its decoder took from somewhere is taken back from its own encoding.
Only numbers need that they were taken, since an encoding has no bounds for them.
-/
namespace Installer

open Json Json.Decoder Schema

namespace Manifest

instance : Text.LawfulWorded TypicalDefault := ⟨fun a => by cases a <;> decide⟩

instance : Text.LawfulWorded UpgradeSchedule := ⟨fun a => by cases a <;> decide⟩

instance : Text.LawfulWorded CompressionLevel := ⟨fun a => by cases a <;> decide⟩

instance : Text.LawfulWorded RegistryHive := ⟨fun a => by cases a <;> decide⟩

instance : Text.LawfulWorded RegistryType := ⟨fun a => by cases a <;> decide⟩

instance : Text.LawfulWorded EnvironmentAction := ⟨fun a => by cases a <;> decide⟩

instance : Text.LawfulWorded EnvironmentPart := ⟨fun a => by cases a <;> decide⟩

instance : Text.LawfulWorded EmptyDirectoryPolicy := ⟨fun a => by cases a <;> decide⟩

instance : Text.LawfulWorded Dialog.Event := ⟨fun a => by cases a <;> decide⟩

instance : Text.LawfulWorded Dialog.ConditionAction := ⟨fun a => by cases a <;> decide⟩

instance : Text.LawfulWorded Preset := ⟨fun a => by cases a <;> decide⟩

instance : Text.LawfulWorded ItemKind := ⟨fun a => by cases a <;> decide⟩

theorem takesBack_product (p : Product) : TakesBack decodeProduct Product.encode p := by
  refine takesBack_record rfl rfl (by decide) (by simp) fun depth h => ?_
  have hroom : 1 ≤ depth := by simpa using h
  simp [mapping_mapping hroom]

theorem takesBack_property (p : Property) : TakesBack decodeProperty encodeProperty p := by
  refine takesBack_record rfl rfl (by decide) (by simp) fun depth h => ?_
  have hroom : 1 ≤ depth := by simpa using h
  simp [mapping_mapping hroom]

theorem takesBack_majorUpgrade (m : MajorUpgrade) :
    TakesBack decodeMajorUpgrade encodeMajorUpgrade m := by
  refine takesBack_record rfl rfl (by decide) (by simp) fun depth h => ?_
  have hroom : 1 ≤ depth := by simpa using h
  simp [mapping_mapping hroom]

theorem takesBack_options (o : Options) : TakesBack decodeOptions encodeOptions o := by
  refine takesBack_record rfl rfl (by decide) (by simp) fun depth h => ?_
  simp

theorem takesBack_file (f : File) : TakesBack decodeFile (present ∘ fileMembers) f := by
  refine takesBack_record rfl rfl (by decide) (by simp [fileMembers]) fun depth h => ?_
  have hroom : 1 ≤ depth := by simpa [fileMembers] using h
  simp [fileMembers, mapping_mapping hroom, texts_texts hroom]

theorem takesBack_files (s : Files) : TakesBack decodeFiles (present ∘ Files.members) s := by
  refine takesBack_record rfl rfl (by decide) (by simp [Files.members]) fun depth h => ?_
  have hroom : 1 ≤ depth := by simpa [Files.members] using h
  simp [Files.members, texts_texts hroom]

theorem takesBack_shortcut (s : Shortcut) :
    TakesBack decodeShortcut (present ∘ shortcutMembers) s := by
  refine takesBack_record rfl rfl (by decide) (by simp [shortcutMembers]) fun depth h => ?_
  have hroom : 1 ≤ depth := by simpa [shortcutMembers] using h
  simp [shortcutMembers, mapping_mapping hroom, texts_texts hroom]

theorem takesBack_registry (r : RegistryValue) :
    TakesBack decodeRegistry (present ∘ registryMembers) r := by
  refine takesBack_record rfl rfl (by decide) (by simp [registryMembers]) fun depth h => ?_
  have hroom : 1 ≤ depth := by simpa [registryMembers] using h
  simp [registryMembers, mapping_mapping hroom, texts_texts hroom]

theorem takesBack_environment (e : EnvironmentVariable) :
    TakesBack decodeEnvironment (present ∘ environmentMembers) e := by
  refine takesBack_record rfl rfl (by decide) (by simp [environmentMembers]) fun depth h => ?_
  have hroom : 1 ≤ depth := by simpa [environmentMembers] using h
  simp [environmentMembers, mapping_mapping hroom, texts_texts hroom]

theorem takesBack_closing {c : Closing} {depth : Nat} (hc : Yields (decodeClosing depth) c) :
    TakesBack decodeClosing (present ∘ Closing.members) c := by
  have htimeout : ∀ n, c.timeout = some n → TakesBack (fun _ => int64) int n := by
    obtain ⟨inner, fs, hbuild⟩ := exists_of_yields_record hc
    simp only [↓bind_eq_some, Option.pure_def, Option.some.injEq] at hbuild
    obtain ⟨target, _, id, _, property, _, description, _, timeout, htimeout, _, _, _, _, _, _,
      rfl⟩ := hbuild
    exact fun n hn => takesBack_int64 (yields_of_optional htimeout n hn)
  have hplain : ∀ n, c.timeout = some n → (int n).IsPlain := fun n hn => (htimeout n hn).plain
  refine takesBack_record rfl rfl (by decide) (by simpa [Closing.members] using hplain)
    fun depth h => ?_
  have hroom : 1 ≤ depth := by simpa [Closing.members] using h
  simp [Closing.members, mapping_mapping hroom, elim_int64 htimeout]

theorem takesBack_cabinet {c : Cabinet} {depth : Nat} (hc : Yields (decodeCabinet depth) c) :
    TakesBack decodeCabinet Cabinet.encode c := by
  have hid : TakesBack (fun _ => int64) int c.id := by
    obtain ⟨inner, fs, hbuild⟩ := exists_of_yields_record hc
    simp only [↓bind_eq_some, Option.pure_def, Option.some.injEq] at hbuild
    obtain ⟨id, hid, _, _, _, _, _, _, _, _, _, _, _, _, rfl⟩ := hbuild
    exact takesBack_int64 (yields_of_withDefault ⟨int 1, rfl⟩ hid)
  have hplain := hid.plain
  refine takesBack_record rfl rfl (by decide) (by simpa using hplain) fun depth h => ?_
  have htake : int64 (int c.id) = some c.id := hid.take 0 (Nat.le_refl 0)
  have hroom : 1 ≤ depth := by simpa using h
  simp [mapping_mapping hroom, htake]

theorem takesBack_action {a : Dialog.Action} {depth : Nat} (ha : Yields (decodeAction depth) a) :
    TakesBack decodeAction encodeAction a := by
  have horder : ∀ n, a.order = some n → TakesBack (fun _ => nat32) nat n := by
    obtain ⟨inner, fs, hbuild⟩ := exists_of_yields_record ha
    simp only [↓bind_eq_some, Option.pure_def, Option.some.injEq] at hbuild
    obtain ⟨_, _, _, _, _, _, _, _, order, horder, rfl⟩ := hbuild
    exact fun n hn => takesBack_nat32 (yields_of_optional horder n hn)
  have hplain : ∀ n, a.order = some n → (nat n).IsPlain := fun n hn => (horder n hn).plain
  refine takesBack_record rfl rfl (by decide) (by simpa using hplain) fun depth h => ?_
  simp [elim_nat32 horder]

theorem takesBack_controlCondition (c : Dialog.ControlCondition) :
    TakesBack decodeControlCondition encodeControlCondition c := by
  refine takesBack_record rfl rfl (by decide) (by simp) fun depth h => ?_
  simp

/-- What the decoder of a control took where numbers are. -/
theorem parts_of_yields_control {c : Dialog.Control} {depth : Nat}
    (hc : Yields (decodeControl depth) c) :
    (∀ n ∈ [c.x, c.y, c.width, c.height], TakesBack (fun _ => nat32) nat n) ∧
      ∀ a ∈ c.actions, TakesBack decodeAction encodeAction a := by
  obtain ⟨inner, fs, hbuild⟩ := exists_of_yields_record hc
  simp only [↓bind_eq_some, Option.pure_def, Option.some.injEq] at hbuild
  obtain ⟨_, _, _, _, x, hx, y, hy, width, hwidth, height, hheight, _, _, _, _, _, _, _, _, _, _,
    actions, hactions, _, _, _, _, rfl⟩ := hbuild
  have hnumber : ∀ {name n}, fs.withDefault name nat32 0 = some n →
      TakesBack (fun _ => nat32) nat n :=
    fun h => takesBack_nat32 (yields_of_withDefault ⟨nat 0, rfl⟩ h)
  exact ⟨by simp [hnumber hx, hnumber hy, hnumber hwidth, hnumber hheight],
    takesBack_of_withDefault_list hactions takesBack_action⟩

theorem takesBack_control {c : Dialog.Control} {depth : Nat} (hc : Yields (decodeControl depth) c) :
    TakesBack decodeControl encodeControl c := by
  obtain ⟨hnumbers, hactions⟩ := parts_of_yields_control hc
  have hconditions : ∀ d ∈ c.conditions, TakesBack decodeControlCondition encodeControlCondition d :=
    fun d _ => takesBack_controlCondition d
  have hplain : ∀ n ∈ [c.x, c.y, c.width, c.height], (nat n).IsPlain :=
    fun n hn => (hnumbers n hn).plain
  have htake : ∀ n ∈ [c.x, c.y, c.width, c.height], nat32 (nat n) = some n :=
    fun n hn => (hnumbers n hn).take 0 (Nat.le_refl 0)
  have hactionsPlain := isPlain_array_map hactions
  have hconditionsPlain := isPlain_array_map hconditions
  simp only [List.mem_cons, List.not_mem_nil, or_false, forall_eq_or_imp, forall_eq] at hplain htake
  refine takesBack_record rfl rfl (by decide)
    (by simp [hplain, hactionsPlain, hconditionsPlain]) fun depth h => ?_
  obtain ⟨hactionsRoom, hconditionsRoom, hroom⟩ :
      (array (c.actions.map encodeAction)).nesting ≤ depth ∧
        (array (c.conditions.map encodeControlCondition)).nesting ≤ depth ∧ 1 ≤ depth := by
    simpa using h
  simp [htake, mapping_mapping hroom, list_map hactions hactionsRoom,
    list_map hconditions hconditionsRoom]

theorem takesBack_dialog {d : Dialog.Definition} {depth : Nat} (hd : Yields (decodeDialog depth) d) :
    TakesBack decodeDialog encodeDialog d := by
  obtain ⟨hwidth, hheight, hcontrols⟩ : TakesBack (fun _ => nat32) nat d.width ∧
      TakesBack (fun _ => nat32) nat d.height ∧
        ∀ c ∈ d.controls, TakesBack decodeControl encodeControl c := by
    obtain ⟨inner, fs, hbuild⟩ := exists_of_yields_record hd
    simp only [↓bind_eq_some, Option.pure_def, Option.some.injEq] at hbuild
    obtain ⟨_, _, width, hwidth, height, hheight, _, _, controls, hcontrols, _, _, rfl⟩ := hbuild
    exact ⟨takesBack_nat32 (yields_of_withDefault ⟨nat 0, rfl⟩ hwidth),
      takesBack_nat32 (yields_of_withDefault ⟨nat 0, rfl⟩ hheight),
      takesBack_of_withDefault_list hcontrols takesBack_control⟩
  have hcontrolsPlain := isPlain_array_map hcontrols
  have htakeWidth : nat32 (nat d.width) = some d.width := hwidth.take 0 (Nat.le_refl 0)
  have htakeHeight : nat32 (nat d.height) = some d.height := hheight.take 0 (Nat.le_refl 0)
  refine takesBack_record rfl rfl (by decide)
    (by simp [hwidth.plain, hheight.plain, hcontrolsPlain]) fun depth h => ?_
  obtain ⟨hcontrolsRoom, hroom⟩ :
      (array (d.controls.map encodeControl)).nesting ≤ depth ∧ 1 ≤ depth := by simpa using h
  simp [htakeWidth, htakeHeight, mapping_mapping hroom, list_map hcontrols hcontrolsRoom]

theorem takesBack_publish {p : Publish} {depth : Nat} (hp : Yields (decodePublish depth) p) :
    TakesBack decodePublish Publish.encode p := by
  have hactions : ∀ a ∈ p.actions, TakesBack decodeAction encodeAction a := by
    obtain ⟨inner, fs, hbuild⟩ := exists_of_yields_record hp
    simp only [↓bind_eq_some, Option.pure_def, Option.some.injEq] at hbuild
    obtain ⟨_, _, _, _, actions, hactions, _, _, rfl⟩ := hbuild
    exact takesBack_of_withDefault_list hactions takesBack_action
  have hactionsPlain := isPlain_array_map hactions
  refine takesBack_record rfl rfl (by decide) (by simp [hactionsPlain]) fun depth h => ?_
  have hroom : (array (p.actions.map encodeAction)).nesting ≤ depth := by simpa using h
  simp [list_map hactions hroom]

theorem takesBack_ui {u : Ui} {depth : Nat} (hu : Yields (decodeUi depth) u) :
    TakesBack decodeUi Ui.encode u := by
  obtain ⟨hpostLicense, hdialogs, hpublish⟩ :
      (∀ d, u.postLicense = some d → TakesBack decodeDialog encodeDialog d) ∧
        (∀ d ∈ u.dialogs, TakesBack decodeDialog encodeDialog d) ∧
          ∀ p ∈ u.publish, TakesBack decodePublish Publish.encode p := by
    obtain ⟨inner, fs, hbuild⟩ := exists_of_yields_record hu
    simp only [↓bind_eq_some, Option.pure_def, Option.some.injEq] at hbuild
    obtain ⟨_, _, postLicense, hpostLicense, dialogs, hdialogs, publish, hpublish, _, _, _, _,
      rfl⟩ := hbuild
    exact ⟨fun d hd => takesBack_dialog (yields_of_optional hpostLicense d hd),
      takesBack_of_withDefault_list hdialogs takesBack_dialog,
      takesBack_of_withDefault_list hpublish takesBack_publish⟩
  have hpostLicensePlain : ∀ d, u.postLicense = some d → (encodeDialog d).IsPlain :=
    fun d hd => (hpostLicense d hd).plain
  have hdialogsPlain := isPlain_array_map hdialogs
  have hpublishPlain := isPlain_array_map hpublish
  refine takesBack_record rfl rfl (by decide)
    (by simpa [hdialogsPlain, hpublishPlain] using hpostLicensePlain) fun depth h => ?_
  obtain ⟨hpostLicenseRoom, hdialogsRoom, hpublishRoom, hroom⟩ :
      (∀ d, u.postLicense = some d → (encodeDialog d).nesting ≤ depth) ∧
        (array (u.dialogs.map encodeDialog)).nesting ≤ depth ∧
          (array (u.publish.map Publish.encode)).nesting ≤ depth ∧ 1 ≤ depth := by simpa using h
  have htakePostLicense := elim_takesBack hpostLicense (fun _ => present_ne_null _) hpostLicenseRoom
  simp [mapping_mapping hroom, htakePostLicense, list_map hdialogs hdialogsRoom,
    list_map hpublish hpublishRoom]

theorem takesBack_featureCondition {c : FeatureCondition} {depth : Nat}
    (hc : Yields (decodeFeatureCondition depth) c) :
    TakesBack decodeFeatureCondition encodeFeatureCondition c := by
  have hlevel : TakesBack (fun _ => int64) int c.level := by
    obtain ⟨inner, fs, hbuild⟩ := exists_of_yields_record hc
    simp only [↓bind_eq_some, Option.pure_def, Option.some.injEq] at hbuild
    obtain ⟨level, hlevel, _, _, rfl⟩ := hbuild
    exact takesBack_int64 (yields_of_required hlevel)
  have htake : int64 (int c.level) = some c.level := hlevel.take 0 (Nat.le_refl 0)
  refine takesBack_record rfl rfl (by decide) (by simp [hlevel.plain]) fun depth h => ?_
  simp [htake]

end Manifest

end Installer
