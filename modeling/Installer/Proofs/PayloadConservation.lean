import Installer.Proofs.Compile.Elision
import Installer.Proofs.Manifest.Sites

/-!
# Payloads on their way to the document

A manifest declares payloads at places in a tree of directories, the document shows elements in a
tree of elements. Whatever becomes of empty directories, both correspond one to one: every payload
has one element, which stands where the payload was declared.
-/
namespace Installer
open Identifier Directory Markup Schema

namespace Compile

/-- What holds the element of a payload, its component aside: the product, or a directory by its
place among all directories of the document. -/
inductive Holder where
  | product
  | directory (k : Nat)
deriving DecidableEq

/-- The element of a payload with the component around it, if there is one, and what holds those. -/
structure Occurrence where
  holder : Holder
  component? : Option Element
  element : Element

/-- The elements of payloads in a row of elements, right there or right in a component. -/
def occurrencesAmong (holder : Holder) (es : List Element) : List Occurrence :=
  es.flatMap fun e =>
    if e.name = "Component" then
      (e.elements.filter (Payload.isName ·.name)).map (⟨holder, some e, ·⟩)
    else if Payload.isName e.name then [⟨holder, none, e⟩]
    else []

/-- The elements of payloads right in the product or in a directory, or in a component there. -/
def occurrences (document : Element) : List Occurrence :=
  (document.childrenNamed "Product").flatMap (occurrencesAmong .product ·.elements) ++
    (document.descendantsNamed "Directory").zipIdx.flatMap fun e =>
      occurrencesAmong (.directory e.2) e.1.elements

@[simp] theorem occurrencesAmong_append (holder : Holder) (es fs : List Element) :
    occurrencesAmong holder (es ++ fs) = occurrencesAmong holder es ++ occurrencesAmong holder fs :=
  List.flatMap_append

theorem occurrencesAmong_eq_nil {holder : Holder} {es : List Element}
    (h : ∀ e ∈ es, e.name ≠ "Component" ∧ Payload.isName e.name = false) :
    occurrencesAmong holder es = [] := by
  refine List.flatMap_eq_nil_iff.2 fun e he => ?_
  obtain ⟨hcomponent, hpayload⟩ := h e he
  rw [if_neg hcomponent, if_neg (by simp [hpayload])]

/-- The element of a payload belongs to the payload, in a component of its own where it needs
one. -/
structure Shown (p : Project) (q : Payload) (o : Occurrence) : Prop where
  writes : ∃ directory features id, o.element = Piece.element p directory ⟨q, features, id⟩
  name : o.element.name = q.elementName
  loose : q.isLoose = true → o.component? = none
  component : q.isLoose = false → ∃ e, o.component? = some e ∧ e.name = "Component" ∧
    e.elements.filter (Payload.isName ·.name) = [o.element]

/-- The element of a payload stands where the payload was declared: without any directory around it
in the product or in the first directory of the document, else in that of the kept directory to
which the declared paths lead. -/
structure Placed (p : Project) (s : Site) (o : Occurrence) : Prop extends Shown p s.payload o where
  product : s.trail = [] → o.holder = if s.payload.isLoose then .product else .directory 0
  directory : s.trail ≠ [] → ∃ i k, p.directories.lead? none s.trail = some i ∧
    ((keptOutlines p).map (·.index))[k]? = some i ∧ o.holder = .directory (k + 1)

section pieces

variable (p : Project) (directory : String)

/-- A piece as it stands in the document. -/
def Piece.occurrence (holder : Holder) (x : Piece) : Occurrence where
  holder
  component? := (x.box? p directory).map (·.element p.seed)
  element := x.element p directory

theorem Piece.shown (holder : Holder) (x : Piece) :
    Shown p x.payload (x.occurrence p directory holder) := by
  have hself : Payload.isName (x.element p directory).name = true := by
    rw [(x.element_spec p directory).1]
    exact x.payload.isName_elementName
  have hcompanions : x.payload.companions.filter (Payload.isName ·.name) = [] := by
    rw [List.filter_eq_nil_iff]
    intro e he
    rw [(Payload.eq_condition_of_mem_companions he).1]
    decide
  refine ⟨⟨directory, x.features, x.id, rfl⟩, (x.element_spec p directory).1, ?_, ?_⟩
  · intro hloose
    simp [occurrence, box?, hloose]
  · intro hloose
    refine ⟨(x.box p directory).element p.seed, by simp [occurrence, box?, hloose],
      box_element_name p _, ?_⟩
    have helements : ((x.box p directory).element p.seed).elements =
        x.element p directory :: x.payload.companions := by
      simp [Box.element, Component.element, box]
    rw [helements, List.filter_cons, if_pos hself, hcompanions]
    rfl

theorem occurrencesAmong_box (holder : Holder) {x : Piece} (hx : x.payload.isLoose = false) :
    occurrencesAmong holder [(x.box p directory).element p.seed] =
      [x.occurrence p directory holder] := by
  obtain ⟨e, he, hname, helements⟩ := (x.shown p directory holder).component hx
  have hbox : (x.box p directory).element p.seed = e := by
    simpa [Piece.occurrence, Piece.box?, hx] using he
  rw [hbox, occurrencesAmong, List.flatMap_singleton, if_pos hname, helements, List.map_singleton,
    ← he]
  rfl

theorem occurrencesAmong_loose (holder : Holder) {x : Piece} (hx : x.payload.isLoose = true) :
    occurrencesAmong holder [x.element p directory] = [x.occurrence p directory holder] := by
  have hname : Payload.isName (x.element p directory).name = true := by
    rw [(x.element_spec p directory).1]
    exact x.payload.isName_elementName
  have hcomponent : (x.element p directory).name ≠ "Component" :=
    name_ne_component p directory (x := x) (by simp)
  rw [occurrencesAmong, List.flatMap_singleton, if_neg hcomponent, if_pos hname]
  simp [Piece.occurrence, Piece.box?, hx]

/-- Pieces with components here and loose ones there occur once each. -/
theorem occurrencesAmong_pieces (here there : Holder) (xs : List Piece) :
    (occurrencesAmong here ((boxes p directory xs).map (·.element p.seed)) ++
      occurrencesAmong there (looseElements p directory xs)).Perm
        (xs.map fun x => x.occurrence p directory (if x.payload.isLoose then there else here)) := by
  induction xs with
  | nil => exact .nil
  | cons x xs ih =>
    rw [← List.singleton_append, boxes_append, looseElements_append, List.map_append,
      occurrencesAmong_append, occurrencesAmong_append, List.map_append, List.map_singleton]
    cases hx : x.payload.isLoose with
    | true =>
      have hboxes : boxes p directory [x] = [] := by simp [boxes, Piece.box?, hx]
      have hloose : looseElements p directory [x] = [x.element p directory] := by
        simp [looseElements, Piece.loose?, hx]
      rw [hboxes, hloose, occurrencesAmong_loose p directory there hx]
      exact List.perm_middle.trans (ih.cons _)
    | false =>
      have hboxes : boxes p directory [x] = [x.box p directory] := by simp [boxes, Piece.box?, hx]
      have hloose : looseElements p directory [x] = [] := by
        simp [looseElements, Piece.loose?, hx]
      rw [hboxes, hloose, List.map_singleton, occurrencesAmong_box p directory here hx]
      exact ih.cons _

end pieces

/-- The pieces of a room occur in the element that shows the room. -/
theorem occurrencesAmong_of_depicts {p : Project} {d : DirectoryIds} {r : Room} {e : Element}
    (h : r.Depicts p d e) (holder : Holder) :
    (occurrencesAmong holder e.elements).Perm
      (r.pieces.map (·.occurrence p (d.id r.outline.index) holder)) := by
  obtain ⟨below, hbelow, rfl⟩ := h
  have hnone : occurrencesAmong holder below = [] := by
    refine occurrencesAmong_eq_nil fun e he => ?_
    rw [hbelow e he]
    decide
  have hkeepers :
      occurrencesAmong holder ((keepers p d r.outline).map (·.element p.seed)) = [] := by
    unfold keepers
    split
    · rw [List.map_singleton, occurrencesAmong, List.flatMap_singleton,
        if_pos (box_element_name p _)]
      simp [emptyBox, Box.element, Component.element, Payload.isName]
    · rfl
  have hpieces := occurrencesAmong_pieces p (d.id r.outline.index) holder holder r.pieces
  rw [Element.elements_pushAll, (directoryElement_spec _ _ _ _).2, List.nil_append,
    occurrencesAmong_append, hnone, List.append_nil, Room.elements, occurrencesAmong_append,
    hkeepers, List.append_nil, pieceElements, occurrencesAmong_append]
  simpa using hpieces

/-- The pieces of all rooms occur in the elements that show the rooms. -/
theorem occurrences_of_depicts {p : Project} {d : DirectoryIds} {rs : List Room}
    {es : List Element} (h : List.Forall₂ (Room.Depicts p d) rs es) (k : Nat) :
    ((es.zipIdx k).flatMap fun e => occurrencesAmong (.directory e.2) e.1.elements).Perm
      ((rs.zipIdx k).flatMap fun r =>
        r.1.pieces.map (·.occurrence p (d.id r.1.outline.index) (.directory r.2))) := by
  induction h generalizing k with
  | nil => exact .nil
  | cons hre _ ih =>
    rw [List.zipIdx_cons, List.zipIdx_cons, List.flatMap_cons, List.flatMap_cons]
    exact (occurrencesAmong_of_depicts hre _).append (ih (k + 1))

/-- All pieces of a project as they stand in its document. -/
def pieceOccurrences (p : Project) : List Occurrence :=
  (((housing p).1.zipIdx 1).flatMap fun r => r.1.pieces.map
    (·.occurrence p ((assignDirectories p).id r.1.outline.index) (.directory r.2))) ++
    (productPieces p).map fun x =>
      x.occurrence p targetDirId (if x.payload.isLoose then .product else .directory 0)

theorem not_structural {name : String} (h : name ∉ structuralNames) :
    name ≠ "Component" ∧ Payload.isName name = false := by
  simp only [structuralNames, List.mem_cons, List.not_mem_nil, or_false, not_or] at h
  obtain ⟨_, hcomponent, hpayload⟩ := h
  refine ⟨hcomponent, ?_⟩
  simp [Payload.isName, hpayload]

/-- A document shows the pieces of its project and no other payloads. -/
theorem occurrences_perm {p : Project} {c : Compiled} {x : Content} (h : Shows p c x) :
    (occurrences c.document).Perm (pieceOccurrences p) := by
  have hself : ∀ {es : List Element} {e : Element}, e ∈ es → e ∈ Element.within es :=
    fun he => List.mem_flatMap.2 ⟨_, he, List.mem_cons_self⟩
  have hquiet : ∀ {es : List Element}, Quiet es → occurrencesAmong .product es = [] :=
    fun hes => occurrencesAmong_eq_nil fun e he => not_structural (hes e (hself he))
  have htarget : occurrencesAmong .product [x.target p] = [] := by
    refine occurrencesAmong_eq_nil fun e he => ?_
    rw [List.mem_singleton.1 he, x.target_name]
    decide
  have hfeatures : occurrencesAmong .product x.features = [] := by
    refine occurrencesAmong_eq_nil fun e he => ?_
    have hname := h.features e (hself he)
    simp only [featureNames, List.mem_cons, List.not_mem_nil, or_false] at hname
    rcases hname with hname | hname | hname <;> rw [hname] <;> decide
  have hdirectories : occurrencesAmong (.directory 0) x.directories = [] := by
    refine occurrencesAmong_eq_nil fun e he => ?_
    rw [h.directories e he]
    decide
  have hproduct : (c.document.childrenNamed "Product").flatMap
      (occurrencesAmong .product ·.elements) =
        occurrencesAmong .product (looseElements p targetDirId (productPieces p)) := by
    have hchildren : c.document.childrenNamed "Product" = [x.product p] := by
      simp [Element.childrenNamed, h.root]
    rw [hchildren, List.flatMap_singleton, x.elements_product, occurrencesAmong_append,
      occurrencesAmong_append, occurrencesAmong_append, occurrencesAmong_append,
      hquiet h.before, htarget, hfeatures, hquiet h.behind]
    simp
  have hnamed : c.document.descendantsNamed "Directory" =
      x.target p :: Element.allNamed "Directory" x.directories := by
    rw [Element.descendantsNamed_eq_allNamed, h.allNamed_directory]
  rw [occurrences, hproduct, hnamed, List.zipIdx_cons, List.flatMap_cons, x.elements_target,
    occurrencesAmong_append, hdirectories, List.nil_append, pieceOccurrences, ← List.append_assoc]
  refine (List.perm_append_comm.trans ?_)
  refine (occurrences_of_depicts h.depicts 1).append (List.perm_append_comm.trans ?_)
  exact occurrencesAmong_pieces p targetDirId (.directory 0) .product (productPieces p)

/-- The element of a payload stands at a node of the tree, or in the product's own places. -/
structure StandsAt (p : Project) (key : Option Nat × Payload) (o : Occurrence) : Prop
    extends Shown p key.2 o where
  product : key.1 = none → o.holder = if key.2.isLoose then .product else .directory 0
  directory : ∀ i, key.1 = some i →
    ∃ k, ((keptOutlines p).map (·.index))[k]? = some i ∧ o.holder = .directory (k + 1)

/-- The element of a payload and its component are those of a piece. -/
def IsPiece (p : Project) (q : Payload) (o : Occurrence) : Prop :=
  ∃ directory features id, o = Piece.occurrence p directory o.holder ⟨q, features, id⟩

/-- The payloads of a project stand where the project holds them, each as a piece. -/
theorem standsAt_pieceOccurrences (p : Project) : ∃ keys, p.held.Perm keys ∧
    List.Forall₂ (fun key o => StandsAt p key o ∧ IsPiece p key.2 o) keys (pieceOccurrences p) := by
  refine ⟨_, (payloads_perm_housing p).append_right _, List.rel_append ?_ ?_⟩
  · let rooms := (housing p).1.zipIdx 1
    have hrooms : ((housing p).1.flatMap fun r => r.pieces.map fun x =>
        (some r.outline.index, x.payload)) =
          rooms.flatMap fun r => r.1.pieces.map fun x => (some r.1.outline.index, x.payload) := by
      have hfst : rooms.map Prod.fst = (housing p).1 := List.zipIdx_map_fst _ _
      rw [← hfst, List.flatMap_map]
    have hsame : List.Forall₂ (fun r s => r = s ∧ s ∈ rooms) rooms rooms :=
      List.forall₂_same.2 fun r hr => ⟨rfl, hr⟩
    rw [hrooms]
    refine List.rel_flatMap hsame ?_
    rintro r _ ⟨rfl, hr⟩
    obtain ⟨hone, hroom⟩ := List.mem_zipIdx_iff_le_and_getElem?_sub.1 hr
    have hnode : ((keptOutlines p).map (·.index))[r.2 - 1]? = some r.1.outline.index := by
      have houtlines : (housing p).1.map (·.outline) = keptOutlines p := map_outline_house _ _ _
      rw [← houtlines, List.map_map, List.getElem?_map, hroom]
      rfl
    rw [List.forall₂_map_left_iff, List.forall₂_map_right_iff, List.forall₂_same]
    intro x _
    refine ⟨⟨x.shown p _ _, by simp, fun i hi => ⟨r.2 - 1, ?_, ?_⟩⟩, _, x.features, x.id, rfl⟩
    · rw [hnode]
      exact hi
    · rw [Nat.sub_add_cancel hone]
      rfl
  · have hsettings : p.settings.map (fun s => ((none : Option Nat), Payload.setting s)) =
        (productPieces p).map fun x => (none, x.payload) := by
      have hpayloads := congrArg (List.map fun q => ((none : Option Nat), q))
        (map_payload_productPieces p)
      rw [List.map_map, List.map_map] at hpayloads
      exact hpayloads.symm
    rw [hsettings, List.forall₂_map_left_iff, List.forall₂_map_right_iff, List.forall₂_same]
    intro x _
    exact ⟨⟨x.shown p targetDirId _, fun _ => rfl, by simp⟩, _, x.features, x.id, rfl⟩

theorem map_element_pieceOccurrences (p : Project) :
    (pieceOccurrences p).map (·.element) = payloadElements p := by
  have hfst : ((housing p).1.zipIdx 1).map Prod.fst = (housing p).1 := List.zipIdx_map_fst _ _
  rw [pieceOccurrences, payloadElements, List.map_append, List.map_flatMap, List.map_map]
  congr 1
  rw [← hfst, List.flatMap_map, hfst]
  refine List.flatMap_congr fun r _ => ?_
  rw [List.map_map]
  rfl

/-- Every element of a payload in a document stands in one of the places that are looked at. -/
theorem element_occurrences_perm {p : Project} {c : Compiled} {x : Content} (h : Shows p c x) :
    ((occurrences c.document).map (·.element)).Perm
      (c.document.descendants.filter (Payload.isName ·.name)) := by
  refine ((occurrences_perm h).map _).trans ?_
  rw [map_element_pieceOccurrences, Element.descendants_eq_within]
  exact h.filter_isName.symm

/-- Nothing that a manifest declares is lost or doubled on the way to the document: its payloads are
the elements of payloads in the document, each in its place. -/
theorem sites_correspond_occurrences {m : Manifest} {p : Project} {c : Compiled}
    (hpaths : m.hasPaths = true) (hproject : m.toProject = .ok p) (hcompile : p.compile = .ok c) :
    ((keptOutlines p).map (·.index)).Nodup ∧
    List.Forall₂ (ShowsDirectory p) (none :: (keptOutlines p).map fun o => some o.index)
      (c.document.descendantsNamed "Directory") ∧
    ((occurrences c.document).map (·.element)).Perm
      (c.document.descendants.filter (Payload.isName ·.name)) ∧
    ∃ shown, shown.Perm (occurrences c.document) ∧ List.Forall₂ (Placed p) m.sites shown := by
  obtain ⟨x, hx⟩ := shows_of_compile hcompile
  have hgathers := Manifest.gathers_toProject hpaths hproject
  refine ⟨nodup_index_keptOutlines p, showsDirectory_of_shows hx, element_occurrences_perm hx, ?_⟩
  obtain ⟨keys, hkeys, hstands⟩ := standsAt_pieceOccurrences p
  -- The sites are the keys in another order, and so are the elements.
  obtain ⟨shown, hsites, hshown⟩ :=
    List.perm_comp_forall₂ (hgathers.held.symm.trans hkeys) hstands
  refine ⟨shown, hshown.trans (occurrences_perm hx).symm, ?_⟩
  rw [List.forall₂_map_left_iff] at hsites
  refine ((List.forall₂_and_left _ _).2 ⟨hgathers.leads, hsites⟩).imp ?_
  rintro s o ⟨hleads, hstand, -⟩
  refine ⟨hstand.toShown, ?_, ?_⟩
  · intro htrail
    exact hstand.product (by rw [Tree.arrive?, if_pos htrail])
  · intro htrail
    obtain ⟨i, hi⟩ := Option.isSome_iff_exists.1 (hleads htrail)
    obtain ⟨k, hk, hholder⟩ := hstand.directory i (by rw [Tree.arrive?, if_neg htrail, hi])
    exact ⟨i, k, hi, hk, hholder⟩

/-- A manifest of a product with a file in a directory that is declared twice, and an application
to close. -/
def overlappingManifest : Manifest where
  product := { name := "Acme" }
  items := [
    .directory { path := "App/bin", items := [.file { source := "a.txt" }] },
    .directory { path := "APP", items := [.closeApplication { target := "a.exe" }] },
    .environment { name := "HOME", value := some "x" }]

theorem compile_overlappingManifest : ∃ p, overlappingManifest.toProject = .ok p ∧
    ∃ c, p.compile = .ok c := by
  have hrun : (overlappingManifest.toProject.toOption.map fun p =>
      p.compile.toOption.map fun c => c.document.idsOf "Directory") =
        some (some ["TARGETDIR", "App", "INSTALLDIR"]) := by
    decide +kernel
  obtain ⟨p, hp, hrun⟩ := exists_ok_of_toOption_map hrun
  obtain ⟨c, hc, _⟩ := exists_ok_of_toOption_map hrun
  exact ⟨p, hp, c, hc⟩

theorem sites_correspond_occurrences_overlapping :
    overlappingManifest.hasPaths = true ∧ ∃ p, overlappingManifest.toProject = .ok p ∧
      ∃ c, p.compile = .ok c ∧ ((keptOutlines p).map (·.index)).Nodup ∧
        List.Forall₂ (ShowsDirectory p) (none :: (keptOutlines p).map fun o => some o.index)
          (c.document.descendantsNamed "Directory") ∧
        ((occurrences c.document).map (·.element)).Perm
          (c.document.descendants.filter (Payload.isName ·.name)) ∧
        ∃ shown, shown.Perm (occurrences c.document) ∧
          List.Forall₂ (Placed p) overlappingManifest.sites shown := by
  have hpaths : overlappingManifest.hasPaths = true := by decide +kernel
  obtain ⟨p, hp, c, hc⟩ := compile_overlappingManifest
  exact ⟨hpaths, p, hp, c, hc, sites_correspond_occurrences hpaths hp hc⟩

end Compile

end Installer
