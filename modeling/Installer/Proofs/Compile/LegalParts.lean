import Installer.Proofs.Compile.FeatureForest
import Installer.Proofs.ComponentIds
import Installer.Proofs.DirectoryIds
import Installer.Proofs.Identifier.Legal

/-!
# Legal identifiers in the parts of a document

Where the author leaves all identifiers to the compiler, each part of a document has legal ones. The
numbering gives directories legal identifiers, the allocator does so with payloads and features, and
what is put together of a legal identifier and plain text behind it stays legal.
-/
namespace Installer
open Identifier Directory Markup Schema

/-- The author leaves the identifier of a feature to the compiler. -/
structure Feature.LeavesId (f : Feature) : Prop where
  own : f.id = none
  verbatim : f.attributes.get? "Id" = none

instance (f : Feature) : Decidable f.LeavesId :=
  decidable_of_iff (f.id = none ∧ f.attributes.get? "Id" = none)
    ⟨fun ⟨ho, hv⟩ => ⟨ho, hv⟩, fun h => ⟨h.own, h.verbatim⟩⟩

/-- The author leaves the identifier of a directory to the compiler. -/
structure Directory.Node.LeavesId (n : Node) : Prop where
  own : n.id = none
  verbatim : n.attributes.get? "Id" = none ∧ n.ownAttributes.get? "Id" = none

instance (n : Node) : Decidable n.LeavesId :=
  decidable_of_iff (n.id = none ∧ n.attributes.get? "Id" = none ∧ n.ownAttributes.get? "Id" = none)
    ⟨fun ⟨ho, hv⟩ => ⟨ho, hv⟩, fun h => ⟨h.own, h.verbatim⟩⟩

/-- The author leaves all identifiers to the compiler, but for that of the installation directory,
which is none or a legal one. -/
structure Project.LeavesIds (p : Project) : Prop where
  payloads : ∀ q ∈ p.payloads, q.LeavesIds
  directories : ∀ n ∈ p.directories.nodes, n.LeavesId
  features : ∀ f ∈ p.allFeatures, f.LeavesId
  installDirId : ∀ id ∈ p.options.installDirId, IsLegal id

instance (p : Project) : Decidable p.LeavesIds :=
  decidable_of_iff ((∀ q ∈ p.payloads, q.LeavesIds) ∧ (∀ n ∈ p.directories.nodes, n.LeavesId) ∧
      (∀ f ∈ p.allFeatures, f.LeavesId) ∧ ∀ id ∈ p.options.installDirId, IsLegal id)
    ⟨fun ⟨hp, hd, hf, hi⟩ => ⟨hp, hd, hf, hi⟩,
      fun h => ⟨h.payloads, h.directories, h.features, h.installDirId⟩⟩

namespace Compile

theorem isLegal_targetDirId : IsLegal targetDirId := by
  decide

theorem isLegal_rootedId (k : Nat) : IsLegal (rootedId k) := by
  refine isLegal_targetDirId.append fun c hc => ?_
  rw [String.toList_ofList] at hc
  exact isPlain_of_isDigit (Text.isDigit_of_mem_decimal hc)

/-- Identifiers were given to a row of directories, all of them legal. -/
def GivesLegal (s : Numbering) (is : List Nat) (u : Numbering) : Prop :=
  ∃ gs, u.given = s.given ++ gs ∧ gs.map (·.1) = is ∧ ∀ g ∈ gs, IsLegal g.2

theorem GivesLegal.trans {s t u : Numbering} {is js : List Nat} (h : GivesLegal s is t)
    (h' : GivesLegal t js u) : GivesLegal s (is ++ js) u := by
  obtain ⟨gs, hgs, rfl, hlegal⟩ := h
  obtain ⟨hs, hhs, rfl, hlegal'⟩ := h'
  refine ⟨gs ++ hs, ?_, List.map_append, List.forall_mem_append.2 ⟨hlegal, hlegal'⟩⟩
  rw [hhs, hgs, List.append_assoc]

section directories

variable {p : Project} (hp : p.LeavesIds)
include hp

/-- Wherever a directory has its identifier from, it is legal. -/
theorem isLegal_servedId (s : Numbering) (r : Request) : IsLegal (servedId p s r) := by
  unfold servedId directoryId
  rw [nodeAt_id fun n hn => (hp.directories n hn).own]
  dsimp only
  split
  · next id hinstall =>
    refine hp.installDirId id ?_
    split at hinstall
    · exact hinstall
    · simp at hinstall
  · split
    · next folder hfolder =>
      exact isLegal_of_isFolderId (isFolderId_of_specialFolder? hfolder)
    · split
      · exact isLegal_rootedId (s.rooted + 1)
      · exact s.ids.isLegal_allocate .directory _

theorem givesLegal_serve (s : Numbering) (r : Request) : GivesLegal s [r.index] (serve p s r) :=
  ⟨[(r.index, servedId p s r)], given_serve p s r, rfl,
    List.forall_mem_singleton.2 (isLegal_servedId hp s r)⟩

theorem isLegal_directory {i : Nat} (hi : i ∈ p.directories.outlines.flatMap Outline.walk) :
    IsLegal ((assignDirectories p).id i) := by
  obtain ⟨gs, hgiven, hindexes, hlegal⟩ :=
    numbered_run (fun s => ⟨[], (List.append_nil _).symm, rfl, by simp⟩) GivesLegal.trans
      (givesLegal_serve hp)
  have hgs : (assignDirectories p).given = gs := (given_assignDirectories p).trans hgiven
  obtain ⟨g, hg, hgi⟩ := List.mem_map.1 (hindexes ▸ hi)
  unfold DirectoryIds.id
  rw [hgs]
  cases hfind : gs.find? (·.1 == i) with
  | none => simpa [hgi] using List.find?_eq_none.1 hfind g hg
  | some found => exact hlegal found (List.mem_of_find?_eq_some hfind)

theorem isLegal_of_mem_keptOutlines {o : Outline} (ho : o ∈ keptOutlines p) :
    IsLegal ((assignDirectories p).id o.index) :=
  isLegal_directory hp (((map_index_kept_sublist p).2 _).mem (List.mem_map_of_mem ho))

end directories

/-- The names of the elements that have identifiers of the compiler's making. -/
def identifiedNames : List String :=
  ["Directory", "Component", "File", "Shortcut", "Feature", "RegistryValue", "Environment",
    "RemoveFolder"]

/-- An element that ought to have an identifier has a legal one. -/
def Identified (e : Element) : Prop :=
  e.name ∈ identifiedNames → ∃ id, e.get? "Id" = some id ∧ IsLegal id

/-- All elements of a row, at any depth, that ought to have identifiers have legal ones. -/
def AllIdentified (es : List Element) : Prop :=
  ∀ e ∈ Element.within es, Identified e

theorem Identified.of_name {e : Element} (h : e.name ∉ identifiedNames) : Identified e :=
  fun hname => absurd hname h

theorem Identified.of_get? {e : Element} {id : String} (h : e.get? "Id" = some id)
    (hid : IsLegal id) : Identified e :=
  fun _ => ⟨id, h, hid⟩

theorem AllIdentified.nil : AllIdentified [] := by
  simp [AllIdentified]

theorem AllIdentified.append {es fs : List Element} (h : AllIdentified es)
    (h' : AllIdentified fs) : AllIdentified (es ++ fs) := by
  rw [AllIdentified, Element.within_append]
  exact List.forall_mem_append.2 ⟨h, h'⟩

theorem AllIdentified.singleton {e : Element} (h : Identified e)
    (h' : AllIdentified e.elements) : AllIdentified [e] := by
  rw [AllIdentified, Element.within_cons, Element.within_nil, List.append_nil]
  exact List.forall_mem_cons.2 ⟨h, h'⟩

/-- The identifier of the component around an item of plain text is legal. -/
theorem isLegal_idFor {item : String} (h : IsPlain item.toList) : IsLegal (Component.idFor item) :=
  IsLegal.append (by decide) h

/-- A piece whose identifier the author left to the compiler has a legal one, unless it is loose. -/
structure Piece.HasLegalId (x : Piece) : Prop where
  leaves : x.payload.LeavesIds
  legal : x.payload.isLoose = false → ∃ id, x.id = some id ∧ IsLegal id

theorem hasLegalId_of_mem_furnish {a : Allocator} {ts : List (Payload × List String)}
    (h : ∀ t ∈ ts, t.1.LeavesIds) : ∀ x ∈ (furnish a ts).1, x.HasLegalId := by
  induction ts generalizing a with
  | nil => simp [furnish]
  | cons t ts ih =>
    have ht := h t List.mem_cons_self
    refine List.forall_mem_cons.2 ⟨⟨ht, fun hloose => ?_⟩, ih fun u hu => h u (by simp [hu])⟩
    obtain ⟨i, hi⟩ : ∃ i, t.1.identity? = some i :=
      Option.isSome_iff_exists.1 (by rw [Payload.isSome_identity?, hloose]; rfl)
    exact ⟨(a.allocate i.kind i.source).1, congrArg Prod.fst (ht.identify hi a),
      a.isLegal_allocate i.kind i.source⟩

/-- The element of a piece in a directory with a legal identifier has a legal one, and so has the
component around it. -/
theorem identified_piece (p : Project) {directory : String} (hdirectory : IsLegal directory)
    {x : Piece} (hx : x.HasLegalId) : Identified (x.element p directory) ∧
      (x.payload.isLoose = false → Identified ((x.box p directory).element p.seed)) := by
  cases hloose : x.payload.isLoose with
  | true =>
    refine ⟨.of_name ?_, by simp⟩
    rw [(x.element_spec p directory).1]
    unfold Payload.isLoose at hloose
    split at hloose
    · next hq => simp [hq, Payload.elementName, identifiedNames]
    · simp at hloose
  | false =>
    obtain ⟨id, hid, hlegal⟩ := hx.legal hloose
    have hget := get?_id_element p directory hx.leaves hloose hid
    obtain ⟨own, hown, hownLegal⟩ :
        ∃ own, (x.element p directory).get? "Id" = some own ∧ IsLegal own := by
      rw [hget]
      refine ⟨_, rfl, ?_⟩
      split
      · exact hdirectory.append_dot hlegal.plain
      · exact hlegal
    refine ⟨.of_get? hown hownLegal, fun _ => .of_get? (get?_element_box p directory x) ?_⟩
    rw [Box.finalId, override?_box, hx.leaves.component, Option.getD_none, Piece.box, Piece.ownId,
      hown, Option.getD_some]
    exact isLegal_idFor hownLegal.plain

theorem allIdentified_pieces (p : Project) {directory : String} (hdirectory : IsLegal directory)
    {xs : List Piece} (hxs : ∀ x ∈ xs, x.HasLegalId) :
    AllIdentified (pieceElements p directory xs) := by
  intro e he
  obtain ⟨x, hx, he⟩ :=
    List.mem_flatMap.1 ((within_pieceElements_perm p directory xs).mem_iff.1 he)
  obtain ⟨more, hmore, hwithin⟩ := within_pieceElements_singleton p directory x
  obtain ⟨hown, hbox⟩ := identified_piece p hdirectory (hxs x hx)
  rw [hwithin] at he
  rcases List.mem_append.1 he with he | he
  · split at he
    · simp at he
    · next hloose =>
      rw [List.mem_singleton.1 he]
      exact hbox (by simpa using hloose)
  · rcases List.mem_cons.1 he with rfl | he
    · exact hown
    · refine .of_name ?_
      rcases hmore e he with h | h <;> rw [h] <;> decide

/-- The component that keeps an empty directory alive is named after the directory, and so is what
removes the directory. -/
theorem allIdentified_emptyBox (seed : String) {directory : String} (h : IsLegal directory)
    (features : List String) : AllIdentified [(emptyBox directory features).element seed] := by
  have hremove : Identified (((Element.named "RemoveFolder").set "Id" directory).set "On"
      "uninstall") := .of_get? (by simp [Element.get?_set]) h
  have hcreate : Identified (Element.named "CreateFolder") := .of_name (by decide)
  have hbox : Identified ((emptyBox directory features).element seed) :=
    .of_get? (get?_element_emptyBox seed directory features)
      (isLegal_idFor (String.toList_append ▸ h.plain.append (by decide)))
  rw [AllIdentified, Box.within_element]
  refine List.forall_mem_cons.2 ⟨hbox, ?_⟩
  simpa [emptyBox, Element.within_cons] using ⟨hcreate, hremove⟩

theorem allIdentified_room (p : Project) (d : DirectoryIds) {r : Room}
    (hdirectory : IsLegal (d.id r.outline.index)) (hpieces : ∀ x ∈ r.pieces, x.HasLegalId) :
    AllIdentified (r.elements p d) := by
  refine (allIdentified_pieces p hdirectory hpieces).append ?_
  unfold keepers
  split
  · exact allIdentified_emptyBox p.seed hdirectory _
  · exact .nil

theorem identified_featureElement {f : Feature} (hf : f.LeavesId) (a : Allocator)
    (components : List String) {below : List Element} (hbelow : AllIdentified below) :
    AllIdentified [featureElement f (Feature.schema.identify f a).1 components below] := by
  refine .singleton ?_ ?_
  · have hid : (Feature.schema.identify f a).1 = some (a.allocate .feature f.name).1 := by
      change some (Identity.take ⟨.feature, f.name, f.id⟩ a).1 = _
      rw [Identity.take, hf.own]
    rw [hid]
    exact .of_get? (get?_id_featureElement hf.verbatim _ _ _)
      (a.isLegal_allocate .feature f.name)
  · rw [elements_featureElement]
    refine AllIdentified.append (AllIdentified.append ?_ ?_) hbelow
    · intro e he
      refine .of_name ?_
      rw [names_feature_complete f _ e he]
      decide
    · rw [AllIdentified, within_references]
      intro e he
      obtain ⟨id, _, rfl⟩ := List.mem_map.1 he
      exact .of_name (by simp [componentRefElement, identifiedNames])

theorem allIdentified_featurePart :
    (∀ f, (∀ g ∈ f.walk, g.LeavesId) → ∀ us a part b, featurePart us f a = .ok (part, b) →
      AllIdentified part.elements) ∧
    ∀ fs : List Feature, (∀ g ∈ fs.flatMap Feature.walk, g.LeavesId) → ∀ us a part b,
      featurePart.featureParts us fs a = .ok (part, b) → AllIdentified part.elements := by
  refine Feature.induction ?feature ?nil ?cons
  case feature =>
    intro id name description level allowChange typicalDefault configurableDirectory condition
      children attributes ih hleaves us a part b h
    rw [Feature.walk_eq] at hleaves
    obtain ⟨hown, hchildren⟩ := List.forall_mem_cons.1 hleaves
    rw [featurePart] at h
    obtain ⟨w, c, hw, h⟩ := Emit.bind_eq_ok.1 h
    obtain ⟨_, rfl, rfl⟩ := Schema.emit_eq_ok.1 hw
    obtain ⟨below, d, hbelow, h⟩ := Emit.bind_eq_ok.1 h
    obtain ⟨rfl, rfl⟩ := Emit.pure_eq_ok.1 h
    exact identified_featureElement hown a _ (ih hchildren _ _ below d hbelow)
  case nil =>
    intro _ us a part b h
    obtain ⟨rfl, rfl⟩ := Emit.pure_eq_ok.1 h
    exact .nil
  case cons =>
    intro f fs hf hfs hleaves us a part b h
    rw [List.flatMap_cons, List.forall_mem_append] at hleaves
    rw [featurePart.featureParts] at h
    obtain ⟨first, c, hfirst, h⟩ := Emit.bind_eq_ok.1 h
    obtain ⟨rest, d, hrest, h⟩ := Emit.bind_eq_ok.1 h
    obtain ⟨rfl, rfl⟩ := Emit.pure_eq_ok.1 h
    exact (hf hleaves.1 us a first c hfirst).append (hfs hleaves.2 _ _ rest d hrest)

theorem allIdentified_allFeatureParts {p : Project} (hp : ∀ f ∈ p.allFeatures, f.LeavesId)
    {refs : List ComponentRef} {part : FeaturePart} {warnings : List Warning} {a b : Allocator}
    (h : allFeatureParts p refs a = .ok ((part, warnings), b)) : AllIdentified part.elements := by
  obtain ⟨declared, added, c, hdeclared, hadded, rfl, _⟩ := allFeatureParts_eq_ok h
  have hleaves : ∀ f ∈ (documentFeatures p (mentions p.options.defaultFeature refs)).flatMap
      Feature.walk, f.LeavesId := by
    intro f hf
    rcases mem_walk_documentFeatures hf with hf | ⟨name, rfl⟩
    · exact hp f hf
    · exact ⟨rfl, rfl⟩
  rw [documentFeatures, List.flatMap_append, List.forall_mem_append] at hleaves
  exact (allIdentified_featurePart.2 _ hleaves.1 _ _ _ _ hdeclared).append
    (allIdentified_featurePart.2 _ hleaves.2 _ _ _ _ hadded)

end Compile

end Installer
