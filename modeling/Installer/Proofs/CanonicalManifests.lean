import Installer.Proofs.Manifest.Items

/-!
# Canonical manifests

A manifest that was read from a text is read again from its canonical text, unless that nests deeper
than a reader goes. So a manifest has one canonical text, and two manifests do not share theirs.
-/
namespace Installer.Manifest

open Json Json.Decoder

/-- What the decoder of a manifest took where numbers may be. -/
theorem parts_of_yields_manifest {m : Manifest} {depth : Nat} (h : Yields (decode depth) m) :
    (∀ f ∈ m.features, TakesBack decodeFeature encodeFeature f) ∧
      (∀ item ∈ m.items, TakesBack decodeTopItem encodeItem item) ∧
        (∀ c, m.media = some c → TakesBack decodeCabinet Cabinet.encode c) ∧
          ∀ u, m.ui = some u → TakesBack decodeUi Ui.encode u := by
  obtain ⟨inner, fs, hbuild⟩ := exists_of_yields_record h
  simp only [decodeFeatures_eq_list, ↓bind_eq_some, Option.pure_def, Option.some.injEq] at hbuild
  obtain ⟨_, _, features, hfeatures, _, _, items, hitems, media, hmedia, _, _, ui, hui, _, _, rfl⟩ :=
    hbuild
  exact ⟨takesBack_of_withDefault_list hfeatures takesBack_feature,
    takesBack_of_withDefault_list hitems takesBack_topItem,
    fun c hc => takesBack_cabinet (yields_of_optional hmedia c hc),
    fun u hu => takesBack_ui (yields_of_optional hui u hu)⟩

/-- A manifest that was taken from somewhere is taken back from its encoding. -/
theorem takesBack_manifest {m : Manifest} {depth : Nat} (h : Yields (decode depth) m) :
    TakesBack decode encode m := by
  obtain ⟨hfeatures, hitems, hmedia, hui⟩ := parts_of_yields_manifest h
  have hproduct := takesBack_product m.product
  have hoptions := takesBack_options m.options
  have hproperties : ∀ p ∈ m.properties, TakesBack decodeProperty encodeProperty p :=
    fun p _ => takesBack_property p
  have hupgrade : ∀ u, m.majorUpgrade = some u → TakesBack decodeMajorUpgrade encodeMajorUpgrade u :=
    fun u _ => takesBack_majorUpgrade u
  refine takesBack_record rfl rfl (by decide) ?_ fun depth hdepth => ?_
  · have hplain : (∀ c, m.media = some c → c.encode.IsPlain) ∧
        (∀ u, m.majorUpgrade = some u → (encodeMajorUpgrade u).IsPlain) ∧
          ∀ u, m.ui = some u → u.encode.IsPlain :=
      ⟨fun c hc => (hmedia c hc).plain, fun u hu => (hupgrade u hu).plain,
        fun u hu => (hui u hu).plain⟩
    simpa [encodeFeatures_eq_map, encodeItems_eq_map, hproduct.plain, hoptions.plain,
      isPlain_array_map hfeatures, isPlain_array_map hproperties, isPlain_array_map hitems]
      using hplain
  · obtain ⟨hproductDepth, hfeaturesDepth, hpropertiesDepth, hitemsDepth, hmediaDepth, hupgradeDepth,
        huiDepth, hoptionsDepth⟩ : m.product.encode.nesting ≤ depth ∧
          (array (m.features.map encodeFeature)).nesting ≤ depth ∧
          (array (m.properties.map encodeProperty)).nesting ≤ depth ∧
          (array (m.items.map encodeItem)).nesting ≤ depth ∧
          (∀ c, m.media = some c → c.encode.nesting ≤ depth) ∧
          (∀ u, m.majorUpgrade = some u → (encodeMajorUpgrade u).nesting ≤ depth) ∧
          (∀ u, m.ui = some u → u.encode.nesting ≤ depth) ∧
          (encodeOptions m.options).nesting ≤ depth := by
      simpa [encodeFeatures_eq_map, encodeItems_eq_map] using hdepth
    have hmediaTake := elim_takesBack hmedia (fun _ => present_ne_null _) hmediaDepth
    have hupgradeTake := elim_takesBack hupgrade (fun _ => present_ne_null _) hupgradeDepth
    have huiTake := elim_takesBack hui (fun _ => present_ne_null _) huiDepth
    simp [decodeFeatures_eq_list, encodeFeatures_eq_map, encodeItems_eq_map,
      hproduct.take _ hproductDepth, hoptions.take _ hoptionsDepth,
      list_map hfeatures hfeaturesDepth, list_map hproperties hpropertiesDepth,
      list_map hitems hitemsDepth, hmediaTake, hupgradeTake, huiTake]

/-- A manifest that was read is read again from its canonical text. Its canonical text and its
fingerprint are those of the manifest so read, and no other manifest has that text. -/
theorem canonical_read_back {s : String} {m : Manifest} (hread : read? s = some m)
    (hdepth : m.encode.nesting ≤ maxDepth) :
    read? m.canonical = some m ∧
      (∀ n, read? m.canonical = some n →
        n.canonical = m.canonical ∧ n.fingerprint = m.fingerprint) ∧
      ∀ t n, read? t = some n → n.encode.nesting ≤ maxDepth →
        (n.canonical = m.canonical ↔ n = m) := by
  have hback : ∀ t n, read? t = some n → n.encode.nesting ≤ maxDepth →
      read? n.canonical = some n := by
    intro t n ht hn
    obtain ⟨j, _, hj⟩ := Option.bind_eq_some_iff.1 ht
    have htakes := takesBack_manifest ⟨j, hj⟩
    rw [read?, canonical, read?_compact htakes.plain, Option.bind_some, htakes.take _ hn]
  have hm := hback s m hread hdepth
  refine ⟨hm, fun n hn => ?_, fun t n ht hn => ⟨fun hcanonical => ?_, fun heq => by rw [heq]⟩⟩
  · obtain rfl : n = m := Option.some.inj (hn.symm.trans hm)
    exact ⟨rfl, rfl⟩
  · have hn' := hback t n ht hn
    rw [hcanonical, hm] at hn'
    exact (Option.some.inj hn').symm

/-- The value of a short manifest: features in a feature, and items in a directory. -/
def nestedManifest : Json :=
  record [
    ("product", record [("name", text "Acme"), ("guid", null)]),
    ("features", array [record [
      ("name", text "Core"), ("level", int 2),
      ("children", array [record [("name", text "Docs")]])]]),
    ("items", array [record [
      ("kind", text "dir"), ("path", text "App"),
      ("items", array [
        record [("kind", text "file"), ("source", text "a.txt"), ("vital", bool true)],
        record [("kind", text "close_application"), ("target", text "a.exe"), ("timeout", int 7)]])]]),
    ("ui", record [("preset", text "stock")])]

theorem nestedManifest_read_back : ∃ m, read? nestedManifest.pretty = some m ∧
    m.encode.nesting ≤ maxDepth ∧ read? m.canonical = some m ∧
      (∀ n, read? m.canonical = some n →
        n.canonical = m.canonical ∧ n.fingerprint = m.fingerprint) ∧
      ∀ t n, read? t = some n → n.encode.nesting ≤ maxDepth →
        (n.canonical = m.canonical ↔ n = m) := by
  have hrun : (read? nestedManifest.pretty).map (fun m => decide (m.encode.nesting ≤ maxDepth)) =
      some true := by
    rw [read?, Json.read?, pretty, String.toList_ofList]
    decide +kernel
  obtain ⟨m, hread, hdepth⟩ := Option.map_eq_some_iff.1 hrun
  have hdepth := of_decide_eq_true hdepth
  exact ⟨m, hread, hdepth, canonical_read_back hread hdepth⟩

end Installer.Manifest
