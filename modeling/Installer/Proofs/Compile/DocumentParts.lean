import Installer.Proofs.Compile.FeatureReferences
import Installer.Proofs.Compile.Quiet
import Installer.Proofs.Compile.Rooms

/-!
# The parts of a document

A compiled document shows the rooms of a project in its directories, the components of the product's
own settings in the directory above all others, and the closings of applications for the product in
the product itself. Nothing else in it is structural.
-/
namespace Installer.Compile
open Identifier Directory Markup Schema

/-- The directories of a project that its document holds, in document order. -/
def keptOutlines (p : Project) : List Outline :=
  p.directories.outlines.flatMap (kept p)

/-- The rooms of a project, with the allocator behind them. -/
def housing (p : Project) : List Room × Allocator :=
  house p (assignDirectories p).ids (keptOutlines p)

def productPieces (p : Project) : List Piece :=
  (furnish (housing p).2 (settingTasks [] p.settings)).1

/-- The allocator behind all pieces of a project. -/
def idsBehindPieces (p : Project) : Allocator :=
  (furnish (housing p).2 (settingTasks [] p.settings)).2

/-- All pieces of a project, in the order in which they get their identifiers. -/
def allPieces (p : Project) : List Piece :=
  (housing p).1.flatMap (·.pieces) ++ productPieces p

/-- All components of a project, in document order. -/
def allBoxes (p : Project) : List Box :=
  (housing p).1.flatMap (·.boxes p (assignDirectories p)) ++ boxes p targetDirId (productPieces p)

/-- The rooms' own elements and those of the product's settings. -/
def itemElements (p : Project) : List Element :=
  (housing p).1.flatMap (·.elements p (assignDirectories p)) ++
    pieceElements p targetDirId (productPieces p)

/-- What the product of a document holds: quiet elements, the directories, the closings of
applications for the product, the features, and more quiet elements. -/
structure Content where
  before : List Element
  directories : List Element
  features : List Element
  behind : List Element

/-- The directory above all others with the directories in it and the components for the product. -/
def Content.target (p : Project) (x : Content) : Element :=
  targetDirElement.pushAll
    (x.directories ++ (boxes p targetDirId (productPieces p)).map (·.element p.seed))

/-- The product as a document shows it. -/
def Content.product (p : Project) (x : Content) : Element :=
  (productElement p).pushAll (x.before ++ [x.target p] ++
    looseElements p targetDirId (productPieces p) ++ x.features ++ x.behind)

section content

variable (p : Project) (x : Content)

@[simp] theorem Content.target_name : (x.target p).name = "Directory" := by
  simp [target, targetDirElement]

theorem Content.elements_target : (x.target p).elements =
    x.directories ++ (boxes p targetDirId (productPieces p)).map (·.element p.seed) := by
  simp [target, targetDirElement]

@[simp] theorem Content.product_name : (x.product p).name = "Product" := by
  simp [product, productElement]

theorem Content.elements_product : (x.product p).elements = x.before ++ [x.target p] ++
    looseElements p targetDirId (productPieces p) ++ x.features ++ x.behind := by
  simp [product, productElement]

end content

/-- The document shows the rooms of the project, its components, and its references to them. -/
structure Shows (p : Project) (c : Compiled) (x : Content) : Prop where
  root : c.document.elements = [x.product p]
  before : Quiet x.before
  behind : Quiet x.behind
  directories : ∀ e ∈ x.directories, e.name = "Directory"
  others : (Element.within x.directories).filter (·.name != "Directory") =
    (housing p).1.flatMap fun r => Element.within (r.elements p (assignDirectories p))
  depicts : List.Forall₂ (Room.Depicts p (assignDirectories p)) (housing p).1
    (Element.allNamed "Directory" x.directories)
  features : ∀ e ∈ Element.within x.features, e.name ∈ featureNames
  references : ∀ id, id ∈ referenceIds x.features ↔ id ∈ (allBoxes p).map (·.id)
  entries : c.ids.filter (·.kind = .component) = (allBoxes p).map (·.entry)
  written : ∃ part warnings b,
    allFeatureParts p ((allBoxes p).map (·.ref)) (idsBehindPieces p) = .ok ((part, warnings), b) ∧
      x.features = part.elements ∧ c.warnings = (assignDirectories p).warnings ++ warnings

theorem filter_kind_of_ne {kind : IdKind} {gs : List Assigned} (h : ∀ g ∈ gs, g.kind ≠ kind) :
    gs.filter (·.kind = kind) = [] := by
  rw [List.filter_eq_nil_iff]
  exact fun g hg => by simpa using h g hg

/-- Entries of one kind are left or dropped together. -/
theorem filter_kind {own : IdKind} {gs : List Assigned} (h : ∀ g ∈ gs, g.kind = own)
    (kind : IdKind) : gs.filter (·.kind = kind) = if own = kind then gs else [] := by
  split
  · next hkind => exact List.filter_eq_self.2 fun g hg => by simp [h g hg, hkind]
  · next hkind => exact filter_kind_of_ne fun g hg => (h g hg).symm ▸ hkind

theorem kind_of_mem_report {d : DirectoryIds} {t : Tree} {g : Assigned} (hg : g ∈ d.report t) :
    g.kind = .directory := by
  obtain ⟨_, _, rfl⟩ := List.mem_map.1 hg
  rfl

theorem kind_of_mem_placed (placed : Placement) (features : List String) {g : Assigned}
    (hg : g ∈ (placedPart placed features).1.assigned) : g.kind = .component := by
  obtain ⟨_, _, rfl⟩ := List.mem_map.1 hg
  rfl

theorem compile_eq_ok {p : Project} {c : Compiled} : p.compile = .ok c ↔
    ∃ a, document p (assignDirectories p) (assignDirectories p).ids = .ok (c, a) := by
  change (document p (assignDirectories p) (assignDirectories p).ids).map (·.1) = .ok c ↔ _
  cases document p (assignDirectories p) (assignDirectories p).ids with
  | error e => simp [Except.map]
  | ok r => simp [Except.map, Prod.ext_iff]

/-- The directories of a project and the settings of the product make all its components. -/
theorem refs_of_directories {p : Project} {directories : Part} {placed : Placement}
    {a b : Allocator}
    (hdirectories : directoryPart.directoryParts p (assignDirectories p) p.directories.outlines
      (assignDirectories p).ids = .ok (directories, a))
    (hplaced : ({} : Placement).processAll p.seed p.settings a = .ok (placed, b)) :
    (directories.append (placedPart placed []).1).refs = (allBoxes p).map (·.ref) := by
  have hrooms := (houses_directoryPart p (assignDirectories p)).2 _ _ _ _ hdirectories
  have hids : (housing p).2 = a := hrooms.ids
  rw [← hids] at hplaced
  rw [Part.append, hrooms.refs, allBoxes, List.map_append, List.map_flatMap]
  exact congrArg _ (furnishes_settings targetDirId [] hplaced).refs

/-- A document that was written: what the steps gave one after the other, with the allocator behind
each of them, and the document that is made of it. -/
structure Writing (p : Project) (c : Compiled) where
  directories : Part
  placed : Placement
  media : Written
  upgrade : List Written
  features : FeaturePart
  warnings : List Warning
  properties : List Written
  ui : List Element
  behindDirectories : Allocator
  behindSettings : Allocator
  behindMedia : Allocator
  behindUpgrade : Allocator
  behindFeatures : Allocator
  behindProperties : Allocator
  behindInterface : Allocator
  writesDirectories : directoryPart.directoryParts p (assignDirectories p) p.directories.outlines
    (assignDirectories p).ids = .ok (directories, behindDirectories)
  placesSettings : ({} : Placement).processAll p.seed p.settings behindDirectories =
    .ok (placed, behindSettings)
  writesMedia : Media.schema.emit p.media behindSettings = .ok (media, behindMedia)
  writesUpgrade : p.majorUpgrade.toList.mapM MajorUpgrade.schema.emit behindMedia =
    .ok (upgrade, behindUpgrade)
  writesFeatures : allFeatureParts p (directories.append (placedPart placed []).1).refs
    behindUpgrade = .ok ((features, warnings), behindFeatures)
  writesProperties : p.properties.mapM Property.schema.emit behindFeatures =
    .ok (properties, behindProperties)
  writesInterface : interfaceElements p (assignDirectories p).installDirId behindProperties =
    .ok (ui, behindInterface)
  root : c.document.elements = [(productElement p).pushAll
    ([packageElement p, media.element] ++ upgrade.map (·.element) ++
      [targetDirElement.pushAll (directories.elements ++ placed.components)] ++
      placed.parentElements ++ features.elements ++ properties.map (·.element) ++ ui)]
  entries : c.ids = (assignDirectories p).report p.directories ++
    (directories.assigned ++ (placedPart placed []).1.assigned) ++ features.assigned
  warned : c.warnings = (assignDirectories p).warnings ++ warnings

theorem nonempty_writing_of_compile {p : Project} {c : Compiled} (h : p.compile = .ok c) :
    Nonempty (Writing p c) := by
  obtain ⟨_, hrun⟩ := compile_eq_ok.1 h
  obtain ⟨directories, _, hdirectories, hrun⟩ := Emit.bind_eq_ok.1 hrun
  obtain ⟨placed, _, hplaced, hrun⟩ := Emit.bind_eq_ok.1 hrun
  obtain ⟨media, _, hmedia, hrun⟩ := Emit.bind_eq_ok.1 hrun
  obtain ⟨upgrade, _, hupgrade, hrun⟩ := Emit.bind_eq_ok.1 hrun
  obtain ⟨⟨features, warnings⟩, _, hfeatures, hrun⟩ := Emit.bind_eq_ok.1 hrun
  obtain ⟨properties, _, hproperties, hrun⟩ := Emit.bind_eq_ok.1 hrun
  obtain ⟨ui, _, hui, hrun⟩ := Emit.bind_eq_ok.1 hrun
  obtain ⟨rfl, rfl⟩ := Emit.pure_eq_ok.1 hrun
  have hroot : ∀ usesUtil product, (rootElement usesUtil product).elements = [product] := by
    simp [rootElement]
  exact ⟨⟨directories, placed, media, upgrade, features, warnings, properties, ui, _, _, _, _, _, _,
    _, hdirectories, hplaced, hmedia, hupgrade, hfeatures, hproperties, hui, hroot _ _, rfl, rfl⟩⟩

namespace Writing

variable {p : Project} {c : Compiled} (w : Writing p c)

def content : Content where
  before := [packageElement p, w.media.element] ++ w.upgrade.map (·.element)
  directories := w.directories.elements
  features := w.features.elements
  behind := w.properties.map (·.element) ++ w.ui

theorem houses : Houses p (assignDirectories p) (assignDirectories p).ids (keptOutlines p)
    w.directories w.behindDirectories :=
  (houses_directoryPart p (assignDirectories p)).2 _ _ _ _ w.writesDirectories

theorem placesBehindRooms : ({} : Placement).processAll p.seed p.settings (housing p).2 =
    .ok (w.placed, w.behindSettings) := by
  have hids : (housing p).2 = w.behindDirectories := w.houses.ids
  rw [hids]
  exact w.placesSettings

/-- The medium and the upgrade policy have no identifiers of the compiler's making. -/
theorem idsBehindPieces_eq : idsBehindPieces p = w.behindUpgrade := by
  have hsettings := (furnishes_settings targetDirId [] w.placesBehindRooms).ids
  have hmedia := allocator_eq_of_emit rfl w.writesMedia
  have hupgrade := Emit.allocator_eq_of_mapM
    (fun _ _ _ _ hemit => allocator_eq_of_emit rfl hemit) w.writesUpgrade
  exact hsettings.trans (hmedia.trans hupgrade)

theorem allFeatureParts_eq : allFeatureParts p ((allBoxes p).map (·.ref)) (idsBehindPieces p) =
    .ok ((w.features, w.warnings), w.behindFeatures) := by
  rw [w.idsBehindPieces_eq, ← refs_of_directories w.writesDirectories w.placesSettings]
  exact w.writesFeatures

theorem root_eq : c.document.elements = [w.content.product p] := by
  have hplaces := (places_processAll targetDirId [] w.placesBehindRooms).2
  have hcomponents : w.placed.components =
      (boxes p targetDirId (productPieces p)).map (·.element p.seed) := hplaces.components
  have hparents : w.placed.parentElements = looseElements p targetDirId (productPieces p) :=
    hplaces.parentElements
  rw [w.root, hcomponents, hparents]
  simp only [content, Content.product, Content.target, List.append_assoc]

include w in
theorem entries_eq : c.ids.filter (·.kind = .component) = (allBoxes p).map (·.entry) := by
  have hsettings := (furnishes_settings targetDirId [] w.placesBehindRooms).entries
  rw [w.entries, List.filter_append, List.filter_append, List.filter_append,
    filter_kind (fun _ => kind_of_mem_report),
    filter_kind (refers_allFeatureParts w.allFeatureParts_eq).kinds, if_neg (by decide),
    if_neg (by decide), w.houses.entries, allBoxes, List.map_append, List.map_flatMap,
    List.nil_append, List.append_nil]
  exact congrArg _ hsettings

theorem references_iff (id : String) :
    id ∈ referenceIds w.features.elements ↔ id ∈ (allBoxes p).map (·.id) := by
  have hboxes : ((allBoxes p).map (·.ref)).map (·.id) = (allBoxes p).map (·.id) := by
    rw [List.map_map]
    rfl
  rw [← hboxes]
  exact (refers_allFeatureParts w.allFeatureParts_eq).references id

theorem shows : Shows p c w.content where
  root := w.root_eq
  before := ((quiet_packageElement p).append (quiet_media w.writesMedia)).append
    (.mapM w.writesUpgrade fun _ _ _ _ hemit => quiet_majorUpgrade hemit)
  behind := (Quiet.mapM w.writesProperties fun _ _ _ _ hemit => quiet_property hemit).append
    (quiet_interfaceElements w.writesInterface)
  directories := w.houses.directories
  others := w.houses.others
  depicts := w.houses.depicts
  features := (refers_allFeatureParts w.allFeatureParts_eq).names
  references := w.references_iff
  entries := w.entries_eq
  written := ⟨w.features, w.warnings, w.behindFeatures, w.allFeatureParts_eq, rfl, w.warned⟩

end Writing

/-- Every compiled document shows its project. -/
theorem shows_of_compile {p : Project} {c : Compiled} (h : p.compile = .ok c) :
    ∃ x, Shows p c x := by
  obtain ⟨w⟩ := nonempty_writing_of_compile h
  exact ⟨w.content, w.shows⟩

theorem name_of_mem_within_items {p : Project} {e : Element}
    (he : e ∈ Element.within (itemElements p)) : e.name ∈ itemNames := by
  obtain ⟨f, hf, he⟩ := List.mem_flatMap.1 he
  rcases List.mem_append.1 hf with hf | hf
  · obtain ⟨r, _, hf⟩ := List.mem_flatMap.1 hf
    exact name_of_mem_within_room (List.mem_flatMap.2 ⟨f, hf, he⟩)
  · exact name_of_mem_within_pieces p targetDirId (List.mem_flatMap.2 ⟨f, hf, he⟩)

theorem within_rooms (p : Project) (rs : List Room) :
    Element.within (rs.flatMap (·.elements p (assignDirectories p))) =
      rs.flatMap fun r => Element.within (r.elements p (assignDirectories p)) := by
  rw [Element.within, List.flatMap_assoc]
  rfl

/-- The elements of all pieces, those of the rooms before those of the product's settings. -/
def payloadElements (p : Project) : List Element :=
  ((housing p).1.flatMap fun r =>
    r.pieces.map (·.element p ((assignDirectories p).id r.outline.index))) ++
    (productPieces p).map (·.element p targetDirId)

theorem filter_isName_items (p : Project) :
    ((Element.within (itemElements p)).filter (Payload.isName ·.name)).Perm
      (payloadElements p) := by
  rw [itemElements, Element.within_append, List.filter_append, within_rooms, List.filter_flatMap]
  refine List.Perm.append ?_ (filter_isName_pieces p targetDirId (productPieces p))
  exact List.Perm.flatMap_left _ fun r _ => filter_isName_room p _ r

theorem within_target (p : Project) (x : Content) :
    Element.within [x.target p] = x.target p :: (Element.within x.directories ++
      Element.within ((boxes p targetDirId (productPieces p)).map (·.element p.seed))) := by
  rw [Element.within_cons, Element.within_nil, List.append_nil, x.elements_target,
    Element.within_append]

/-- What a successful run was evaluated to holds of its result. -/
theorem exists_ok_of_toOption_map {ε α β : Type} {x : Except ε α} {f : α → β} {y : β}
    (h : x.toOption.map f = some y) : ∃ a, x = .ok a ∧ f a = y := by
  cases x with
  | error e => simp [Except.toOption] at h
  | ok a => exact ⟨a, rfl, by simpa [Except.toOption] using h⟩

namespace Shows

variable {p : Project} {c : Compiled} {x : Content}

/-- The structural elements of a document stand in the directory above all others, among the
closings of applications for the product, and in the features. -/
theorem filter_structural (h : Shows p c x) {q : String → Bool}
    (hq : ∀ name, q name = true → name ∈ structuralNames) :
    (Element.within c.document.elements).filter (q ·.name) =
      (Element.within [x.target p]).filter (q ·.name) ++
        ((Element.within (looseElements p targetDirId (productPieces p))).filter (q ·.name) ++
          (Element.within x.features).filter (q ·.name)) := by
  have hquiet : ∀ es, Quiet es → (Element.within es).filter (q ·.name) = [] := by
    intro es hes
    rw [List.filter_eq_nil_iff]
    exact fun e he hname => hes e he (hq _ hname)
  have hproduct : q (x.product p).name = false := by
    rw [x.product_name, Bool.eq_false_iff]
    intro htrue
    exact absurd (hq _ htrue) (by decide)
  rw [h.root, Element.within_cons, x.elements_product, Element.within_nil, List.append_nil,
    List.filter_cons]
  simp only [hproduct, Bool.false_eq_true, if_false, Element.within_append, List.filter_append,
    hquiet _ h.before, hquiet _ h.behind, List.nil_append, List.append_nil, List.append_assoc]

/-- Within the directories stand directories, and within those the items of the rooms. -/
theorem filter_directories (h : Shows p c x) {q : String → Bool} (hq : q "Directory" = false) :
    (Element.within x.directories).filter (q ·.name) =
      ((housing p).1.flatMap fun r =>
        Element.within (r.elements p (assignDirectories p))).filter (q ·.name) := by
  rw [← h.others, List.filter_filter]
  refine List.filter_congr fun e _ => ?_
  cases hname : q e.name with
  | false => rfl
  | true =>
    have hne : e.name ≠ "Directory" := by
      intro heq
      rw [heq, hq] at hname
      simp at hname
    simpa using hne

/-- What stands in the directory above all others and among the closings of applications: itself,
the directories, and the items of the rooms and of the product's settings. -/
theorem filter_not_features (h : Shows p c x) {q : String → Bool} (hq : q "Directory" = false) :
    (Element.within [x.target p]).filter (q ·.name) ++
        (Element.within (looseElements p targetDirId (productPieces p))).filter (q ·.name) =
      (Element.within (itemElements p)).filter (q ·.name) := by
  rw [within_target, List.filter_cons, x.target_name, itemElements, pieceElements]
  simp only [hq, Bool.false_eq_true, if_false, Element.within_append, List.filter_append,
    h.filter_directories hq, within_rooms, List.append_assoc]

/-- Components and payloads stand among the elements of the rooms and of the product's settings. -/
theorem filter_items (h : Shows p c x) {q : String → Bool}
    (hq : ∀ name, q name = true →
      name ∈ structuralNames ∧ name ≠ "Directory" ∧ name ∉ featureNames) :
    (Element.within c.document.elements).filter (q ·.name) =
      (Element.within (itemElements p)).filter (q ·.name) := by
  have hfeatures : (Element.within x.features).filter (q ·.name) = [] := by
    rw [List.filter_eq_nil_iff]
    exact fun e he hname => (hq _ hname).2.2 (h.features e he)
  have hdirectory : q "Directory" = false := by
    rw [Bool.eq_false_iff]
    exact fun htrue => (hq _ htrue).2.1 rfl
  rw [h.filter_structural fun name hname => (hq name hname).1, hfeatures, List.append_nil,
    h.filter_not_features hdirectory]

/-- The directories of a document are the one above all others and those of the rooms. -/
theorem allNamed_directory (h : Shows p c x) :
    Element.allNamed "Directory" c.document.elements =
      x.target p :: Element.allNamed "Directory" x.directories := by
  have hitems : Element.allNamed "Directory" (pieceElements p targetDirId (productPieces p)) = [] :=
    Element.allNamed_eq_nil_of_names (fun _ => name_of_mem_within_pieces p targetDirId) (by decide)
  rw [pieceElements, Element.allNamed_append, List.append_eq_nil_iff] at hitems
  obtain ⟨hboxes, hloose⟩ := hitems
  have hfeatures : Element.allNamed "Directory" x.features = [] :=
    Element.allNamed_eq_nil_of_names h.features (by decide)
  have hnamed : Element.allNamed "Directory" c.document.elements =
      Element.allNamed "Directory" [x.target p] ++
        (Element.allNamed "Directory" (looseElements p targetDirId (productPieces p)) ++
          Element.allNamed "Directory" x.features) :=
    h.filter_structural (q := (· == "Directory")) fun name hname => by
      rw [eq_of_beq hname]
      decide
  rw [hnamed, hloose, hfeatures, Element.allNamed_cons, x.target_name, if_pos rfl,
    x.elements_target, Element.allNamed_append, hboxes]
  simp

/-- What is structural and neither a directory nor an item stands in the features. -/
theorem allNamed_features (h : Shows p c x) {name : String} (hname : name ∈ structuralNames)
    (hdirectory : name ≠ "Directory") (hitem : name ∉ itemNames) :
    Element.allNamed name c.document.elements = Element.allNamed name x.features := by
  have hitems : Element.allNamed name (itemElements p) = [] :=
    Element.allNamed_eq_nil_of_names (fun _ => name_of_mem_within_items) hitem
  rw [Element.allNamed, h.filter_structural (q := (· == name))
    (fun other hother => eq_of_beq hother ▸ hname), ← List.append_assoc,
    h.filter_not_features (q := (· == name)) (beq_eq_false_iff_ne.2 hdirectory.symm),
    ← Element.allNamed, hitems]
  rfl

/-- The references to components stand in the features. -/
theorem allNamed_componentRef (h : Shows p c x) :
    Element.allNamed "ComponentRef" c.document.elements =
      Element.allNamed "ComponentRef" x.features :=
  h.allNamed_features (by decide) (by decide) (by decide)

/-- The features of a document stand right below its product. -/
theorem childrenNamed_feature (h : Shows p c x) :
    c.document.elements.flatMap (·.childrenNamed "Feature") =
      x.features.filter (·.name == "Feature") := by
  have hself : ∀ {es : List Element} {e : Element}, e ∈ es → e ∈ Element.within es :=
    fun he => List.mem_flatMap.2 ⟨_, he, List.mem_cons_self⟩
  have hquiet : ∀ es, Quiet es → es.filter (·.name == "Feature") = [] := by
    intro es hes
    rw [List.filter_eq_nil_iff]
    intro e he hname
    exact hes e (hself he) (by rw [eq_of_beq hname]; decide)
  have hloose : (looseElements p targetDirId (productPieces p)).filter
      (·.name == "Feature") = [] := by
    rw [List.filter_eq_nil_iff]
    intro e he hname
    have hitem := name_of_mem_within_pieces p targetDirId
      (hself (List.mem_append_right ((boxes p targetDirId (productPieces p)).map
        (·.element p.seed)) he))
    rw [eq_of_beq hname] at hitem
    exact absurd hitem (by decide)
  rw [h.root, List.flatMap_singleton, Element.childrenNamed, x.elements_product]
  simp [hquiet _ h.before, hquiet _ h.behind, hloose]

/-- The components of a document are those of its project. -/
theorem allNamed_component (h : Shows p c x) :
    Element.allNamed "Component" c.document.elements =
      (allBoxes p).map (·.element p.seed) := by
  rw [Element.allNamed, h.filter_items (q := (· == "Component"))
    (fun name hname => by rw [eq_of_beq hname]; decide), ← Element.allNamed, itemElements,
    Element.allNamed_append, Element.allNamed_flatMap, allNamed_component_pieces, allBoxes,
    List.map_append, List.map_flatMap]
  congr 1
  exact List.flatMap_congr fun r _ => allNamed_component_room p _ r

/-- The elements in a document with the name of a payload are those of the project's pieces. -/
theorem filter_isName (h : Shows p c x) :
    ((Element.within c.document.elements).filter (Payload.isName ·.name)).Perm
      (payloadElements p) := by
  rw [h.filter_items fun name hname => ?_]
  · exact filter_isName_items p
  · simp only [Payload.isName, List.contains_iff_mem, List.mem_cons, List.not_mem_nil,
      or_false] at hname
    rcases hname with rfl | rfl | rfl | rfl | rfl <;> decide

/-- The identifiers in a document of the elements with the name of some payload are those of the
project's pieces. -/
theorem idsOf_perm (h : Shows p c x) {name : String} (hname : Payload.isName name = true) :
    (c.document.idsOf name).Perm
      (((payloadElements p).filter (·.name == name)).filterMap (·.get? "Id")) := by
  have hsub : Element.allNamed name c.document.elements =
      ((Element.within c.document.elements).filter (Payload.isName ·.name)).filter
        (·.name == name) := by
    rw [List.filter_filter]
    refine List.filter_congr fun e _ => ?_
    cases heq : e.name == name with
    | false => rfl
    | true => rw [eq_of_beq heq, hname]; rfl
  rw [Element.idsOf_eq, hsub]
  exact (h.filter_isName.filter _).filterMap _

end Shows

end Installer.Compile
