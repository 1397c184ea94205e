import Installer.Proofs.Manifest.Reordering

/-!
# Rearranged manifests

An author may lay out a manifest with any blanks and put the members of its objects in any order.
None of this shows: both texts are refused, or both write the same manifest, which then has one
canonical text and one fingerprint.
-/
namespace Installer.Manifest

open Json Json.Decoder

/-- Two texts write values that differ in the order of members inside objects only. In how the
tokens are spelled and in the blanks between them the texts may differ as they like. -/
def Rearranged (s t : String) : Prop :=
  ∃ j k, WrittenAs j s ∧ WrittenAs k t ∧ Reordered j k

/-- Rearranged texts are refused together, or they write one manifest. -/
theorem read_of_rearranged {s t : String} (h : Rearranged s t) :
    (read? s = none ∧ read? t = none) ∨
      ∃ m n, read? s = some m ∧ read? t = some n ∧ m = n ∧ m.canonical = n.canonical ∧
        m.fingerprint = n.fingerprint := by
  obtain ⟨j, k, hs, ht, hjk⟩ := h
  have hsame : read? s = read? t := by
    rw [read?, read?, read?_of_writtenAs hs, read?_of_writtenAs ht]
    exact insensitive_manifest maxDepth j k hjk
  cases hread : read? s with
  | none => exact Or.inl ⟨rfl, hsame ▸ hread⟩
  | some m => exact Or.inr ⟨m, m, rfl, hsame ▸ hread, rfl, rfl, rfl⟩

/-- The value of a manifest of one file, with its product in front of its items. -/
def orderedManifest : Json :=
  record [
    ("product", record [
      ("name", text "Acme"), ("attributes", record [("A", text "1"), ("B", text "2")])]),
    ("items", array [
      record [("kind", text "file"), ("source", text "a.txt"), ("note", text "new")]])]

/-- The same manifest with all its members in reverse. -/
def reversedManifest : Json :=
  record [
    ("items", array [
      record [("note", text "new"), ("source", text "a.txt"), ("kind", text "file")]]),
    ("product", record [
      ("attributes", record [("B", text "2"), ("A", text "1")]), ("name", text "Acme")])]

theorem reordered_manifests : Reordered orderedManifest reversedManifest := by
  have hreverse : ∀ ms : List (String × Json), (ms.reverse.map (·.1)).Nodup →
      Reordered (record ms) (record ms.reverse) := fun ms hdistinct =>
    .record (membersAlike_refl ms) (List.reverse_perm ms).symm hdistinct
  have hattributes := hreverse [("A", text "1"), ("B", text "2")] (by decide)
  have hproduct : Reordered
      (record [("name", text "Acme"), ("attributes", record [("A", text "1"), ("B", text "2")])])
      (record [("attributes", record [("B", text "2"), ("A", text "1")]),
        ("name", text "Acme")]) := by
    refine .record ?_ (.swap ..) (by decide)
    exact .cons ⟨rfl, .same _⟩ (.cons ⟨rfl, hattributes⟩ .nil)
  have hitem := hreverse [("kind", text "file"), ("source", text "a.txt"), ("note", text "new")]
    (by decide)
  refine .record ?_ (.swap ..) (by decide)
  exact .cons ⟨rfl, hproduct⟩ (.cons ⟨rfl, .array (.cons hitem .nil)⟩ .nil)

theorem isPlain_manifests : orderedManifest.IsPlain ∧ reversedManifest.IsPlain := by
  have htexts : ∀ ms : List (String × String),
      (record (ms.map fun m => (m.1, text m.2))).IsPlain := fun ms =>
    .record (List.forall_mem_map.2 fun m _ => .text m.2)
  have hitems : ∀ ms : List (String × String),
      (array [record (ms.map fun m => (m.1, text m.2))]).IsPlain := fun ms =>
    .array (by simpa using htexts ms)
  constructor
  · have hattributes := htexts [("A", "1"), ("B", "2")]
    have hproduct : (record [("name", text "Acme"),
        ("attributes", record [("A", text "1"), ("B", text "2")])]).IsPlain :=
      .record (by simpa using hattributes)
    have hitem := hitems [("kind", "file"), ("source", "a.txt"), ("note", "new")]
    exact .record (by simpa using ⟨hproduct, hitem⟩)
  · have hattributes := htexts [("B", "2"), ("A", "1")]
    have hproduct : (record [("attributes", record [("B", text "2"), ("A", text "1")]),
        ("name", text "Acme")]).IsPlain :=
      .record (by simpa using hattributes)
    have hitem := hitems [("note", "new"), ("source", "a.txt"), ("kind", "file")]
    exact .record (by simpa using ⟨hitem, hproduct⟩)

/-- One text of a manifest on one line and one over several lines, with the kind of the item behind
its fields, write the same manifest. -/
theorem orderedManifest_rearranged :
    Rearranged orderedManifest.compact reversedManifest.pretty ∧
      ∃ m, read? orderedManifest.compact = some m ∧ read? reversedManifest.pretty = some m ∧
        m.items.length = 1 := by
  have hrearranged : Rearranged orderedManifest.compact reversedManifest.pretty :=
    ⟨_, _, writtenAs_compact isPlain_manifests.1, writtenAs_pretty isPlain_manifests.2,
      reordered_manifests⟩
  have hrun : (read? orderedManifest.compact).map (·.items.length) = some 1 := by
    rw [read?, read?_compact isPlain_manifests.1, Option.bind_some]
    rfl
  obtain ⟨m, hread, hitems⟩ := Option.map_eq_some_iff.1 hrun
  refine ⟨hrearranged, m, hread, ?_, hitems⟩
  rcases read_of_rearranged hrearranged with ⟨hnone, _⟩ | ⟨_, n, hm, hn, rfl, _⟩
  · exact absurd (hread.symm.trans hnone) (Option.some_ne_none m)
  · exact hn.trans (hm.symm.trans hread)

end Installer.Manifest
