import Installer.Proofs.Compile.Surroundings
import Installer.Proofs.DirectoryIds

/-!
# The installation directory

The installation directory is chosen before anything is written, and the user interface is bound to
whatever was chosen. Where empty directories are left out, the one that was chosen may be among
them: then the report and the user interface name a directory that the document does not hold.
-/
namespace Installer

namespace Directory

/-- A directory holds anything but directories, itself or anywhere below it. -/
def Tree.holdsPayloadBelow (t : Tree) (i : Nat) : Bool :=
  (outlineAt? t.outlines i).any (·.any t.holdsPayload)

end Directory

open Identifier Directory Markup Schema

namespace Dialog.Interface

/-- The properties among the elements of a user interface are its own, in their order. -/
theorem childrenNamed_property {ui : Interface} {e : Element} {a b : Allocator}
    (h : ui.emit a = .ok (e, b)) : e.childrenNamed "Property" = ui.properties.map propertyElement := by
  obtain ⟨styles, c, hstyles, h⟩ := Emit.bind_eq_ok.1 h
  obtain ⟨dialogs, d, hdialogs, h⟩ := Emit.bind_eq_ok.1 h
  obtain ⟨rfl, -⟩ := Emit.pure_eq_ok.1 h
  have hstyles : (styles.map (·.element)).filter (·.name == "Property") = [] :=
    Element.filter_name_eq_nil _ _ (by decide) (name_of_mapM_emit hstyles)
  have hrefs : (ui.dialogRefs.map dialogRefElement).filter (·.name == "Property") = [] :=
    Element.filter_name_eq_nil _ "DialogRef" (by decide)
      (List.forall_mem_map.2 fun _ _ => rfl)
  have hactions : ui.sequence.resolve.elements.filter (·.name == "Property") = [] := by
    refine Element.filter_name_eq_nil _ "Publish" (by decide) fun e he => ?_
    obtain ⟨entry, _, he⟩ := List.mem_flatMap.1 he
    obtain ⟨action, _, rfl⟩ := List.mem_map.1 he
    unfold Entry.actionElement
    cases action.event <;> cases action.property <;> cases action.order <;>
      cases action.value.isEmpty <;> rfl
  have hdialogs : dialogs.filter (·.name == "Property") = [] := by
    refine Element.filter_name_eq_nil _ "Dialog" (by decide) fun e he => ?_
    obtain ⟨definition, _, _, _, hemit⟩ := Emit.mem_of_mapM_eq_ok hdialogs he
    obtain ⟨w, _, hw, hemit⟩ := Emit.bind_eq_ok.1 hemit
    obtain ⟨controls, _, _, hemit⟩ := Emit.bind_eq_ok.1 hemit
    obtain ⟨rfl, -⟩ := Emit.pure_eq_ok.1 hemit
    obtain ⟨-, rfl, -⟩ := emit_eq_ok.1 hw
    rw [Element.pushAll_name]
    exact complete_name _ _ _
  have hproperties : (ui.properties.map propertyElement).filter (·.name == "Property") =
      ui.properties.map propertyElement :=
    List.filter_eq_self.2 (List.forall_mem_map.2 fun _ _ => rfl)
  rw [Element.childrenNamed, Element.elements_pushAll, Element.elements_setAll,
    Element.named_elements, List.nil_append]
  simp only [List.filter_append, hstyles, hrefs, hactions, hdialogs, hproperties, List.nil_append,
    List.append_nil]

/-- Among attributes with distinct names, one that was set has its new value only. -/
theorem value_of_mem_setAttribute {name value : String} {as : List (String × String)}
    (h : (as.map (·.1)).Nodup) {b : String × String} (hb : b ∈ setAttribute name value as)
    (hname : b.1 = name) : b.2 = value := by
  induction as with
  | nil => rw [List.mem_singleton.1 hb]
  | cons a as ih =>
    obtain ⟨ha, htail⟩ := List.nodup_cons.1 h
    rw [setAttribute] at hb
    split at hb
    · next hsame =>
      rcases List.mem_cons.1 hb with rfl | hb
      · rfl
      · exact absurd (List.mem_map.2 ⟨b, hb, hname.trans hsame.symm⟩) ha
    · next hother =>
      rcases List.mem_cons.1 hb with rfl | hb
      · exact absurd hname hother
      · exact ih htail hb

/-- A property that is bound has its new value in the document, wherever it stands. -/
theorem value_of_bindInstallDir {ui : Interface} {id : String}
    (hbound : (ui.property? installDirProperty).isSome) {e : Element} {a b : Allocator}
    (h : (ui.bindInstallDir id).emit a = .ok (e, b)) :
    (e.childWhere? "Property" "Id" installDirProperty).bind (·.get? "Value") = some id ∧
      ((ui.properties.map (·.1)).Nodup → ∀ q ∈ e.childrenNamed "Property",
        q.get? "Id" = some installDirProperty → q.get? "Value" = some id) := by
  have hproperties : (ui.bindInstallDir id).properties =
      setAttribute installDirProperty id ui.properties := by
    rw [bindInstallDir, if_pos hbound]
    rfl
  have hnamed := childrenNamed_property h
  rw [hproperties] at hnamed
  have hget : ∀ q : String × String, (propertyElement q).get? "Id" = some q.1 ∧
      (propertyElement q).get? "Value" = some q.2 := fun q => by
    simp [propertyElement, Element.get?_set]
  constructor
  · have hwhere : e.childWhere? "Property" "Id" installDirProperty =
        (e.childrenNamed "Property").find? (·.get? "Id" == some installDirProperty) := by
      rw [Element.childrenNamed, List.find?_filter, Element.childWhere?]
      simp only [Bool.decide_and, Bool.decide_eq_true]
      rfl
    have htest : ((·.get? "Id" == some installDirProperty) ∘ propertyElement) =
        fun q : String × String => q.1 == installDirProperty := by
      funext q
      simp [(hget q).1]
    rw [hwhere, hnamed, List.find?_map, htest, Element.find?_setAttribute, if_pos rfl]
    exact (hget _).2
  · intro hnodup q hq hid
    rw [hnamed] at hq
    obtain ⟨r, hr, rfl⟩ := List.mem_map.1 hq
    rw [(hget r).1] at hid
    rw [(hget r).2, value_of_mem_setAttribute hnodup hr (Option.some.inj hid)]

end Dialog.Interface

namespace Compile

/-- What is kept of outlines is what is not left out with all that is below it. -/
theorem mem_kept_iff (p : Project) {i : Nat} :
    (∀ o : Outline, o.walk.Nodup → (i ∈ (kept p o).map (·.index) ↔
        ∃ u, Tree.outlineAt? [o] i = some u ∧
          (p.options.emptyDirectories = .elide → u.any p.directories.holdsPayload = true))) ∧
      ∀ os : List Outline, (os.flatMap Outline.walk).Nodup →
        (i ∈ (os.flatMap (kept p)).map (·.index) ↔ ∃ u, Tree.outlineAt? os i = some u ∧
          (p.options.emptyDirectories = .elide → u.any p.directories.holdsPayload = true)) := by
  refine Outline.induction ?node ?nil ?cons
  case node =>
    intro j children ih hnodup
    rw [Outline.walk_eq, List.nodup_cons] at hnodup
    rw [kept, keptAll_eq_flatMap]
    by_cases helided : (p.options.emptyDirectories = .elide &&
        !(Outline.mk j children).any p.directories.holdsPayload) = true
    · rw [if_pos helided]
      obtain ⟨hpolicy, hnone⟩ : p.options.emptyDirectories = .elide ∧
          (Outline.mk j children).any p.directories.holdsPayload = false := by
        simpa using helided
      refine iff_of_false (by simp) ?_
      rintro ⟨u, hu, hany⟩
      have hsubset := (Tree.walk_subset_of_outlineAt?.1 _ u hu).2
      obtain ⟨k, hk, hholds⟩ := List.any_eq_true.1 (hany hpolicy)
      exact absurd (List.any_eq_true.2 ⟨k, hsubset hk, hholds⟩) (Bool.eq_false_iff.1 hnone)
    · rw [if_neg helided, List.map_cons, List.mem_cons, ih hnodup.2, Tree.outlineAt?_singleton]
      by_cases hij : i = j
      · simp only [hij, if_true, true_or, Option.some.injEq, exists_eq_left', true_iff]
        simpa using helided
      · simp [hij]
  case nil => simp [Tree.outlineAt?]
  case cons =>
    intro o os ho hos hnodup
    rw [List.flatMap_cons, List.nodup_append'] at hnodup
    obtain ⟨hfirst, hrest, hapart⟩ := hnodup
    rw [List.flatMap_cons, List.map_append, List.mem_append, ho hfirst, hos hrest,
      Tree.outlineAt?_cons o os]
    cases hu : Tree.outlineAt? [o] i with
    | none => simp
    | some u =>
      -- What is found in the first outline is in no other.
      have hnone : Tree.outlineAt? os i = none := by
        rw [Option.eq_none_iff_forall_ne_some]
        intro v hv
        obtain ⟨hi, hsubset⟩ := Tree.walk_subset_of_outlineAt?.1 o u hu
        obtain ⟨hi', hsubset'⟩ := Tree.walk_subset_of_outlineAt?.2 os v hv
        exact hapart (hsubset hi) (hsubset' hi')
      simp [hnone]

/-- A directory is kept unless empty ones are left out and nothing is held in it or below it. -/
theorem mem_keptOutlines_iff {p : Project} {i : Nat} (hi : i < p.directories.size) :
    i ∈ (keptOutlines p).map (·.index) ↔
      (p.options.emptyDirectories = .elide → p.directories.holdsPayloadBelow i = true) := by
  have hwalk : i ∈ p.directories.outlines.flatMap Outline.walk :=
    p.directories.walk_outlines_perm.mem_iff.2 (List.mem_range.2 hi)
  obtain ⟨u, hu⟩ := Option.isSome_iff_exists.1 ((Tree.isSome_outlineAt? i).2 _ hwalk)
  rw [keptOutlines, (mem_kept_iff p).2 _ p.directories.nodup_walk_outlines,
    Tree.holdsPayloadBelow, hu]
  simp

theorem node?_of_chosenInstallDir {p : Project} {i : Nat} (h : (chosenInstallDir p).1 = some i) :
    ∃ n, p.directories.node? i = some n := by
  unfold chosenInstallDir at h
  split at h
  · simp at h
  · split at h
    · next hfound =>
      obtain rfl := Option.some.inj h
      obtain ⟨hlt, -⟩ := List.findIdx?_eq_some_iff_findIdx_eq.1 hfound
      exact ⟨_, List.getElem?_eq_getElem hlt⟩
    · split at h
      · simp at h
      · split at h
        · simp at h
        · next hn =>
          split at h
          · simp at h
          · obtain rfl := Option.some.inj h
            exact ⟨_, hn⟩

/-- The elements of directories with an identifier in a document. -/
def directoriesOf (c : Compiled) (id : String) : List Element :=
  (c.document.descendantsNamed "Directory").filter (·.get? "Id" == some id)

/-- The user interfaces in the product of a document. -/
def interfacesOf (c : Compiled) : List Element :=
  (c.document.childrenNamed "Product").flatMap (·.childrenNamed "UI")

section chosen

variable {p : Project} (hp : p.LeavesDirectoryIds)
include hp

/-- The identifier of the installation directory is given to no other directory. -/
theorem id_eq_installDir_iff {i : Nat} (hi : i ∈ p.directories.outlines.flatMap Outline.walk) :
    (assignDirectories p).id i = "INSTALLDIR" ↔ (chosenInstallDir p).1 = some i := by
  obtain ⟨s, hform⟩ := hasForm_id hp hi
  have horigin : origin p i = .installation ↔ (chosenInstallDir p).1 = some i :=
    ⟨chosenInstallDir_of_origin, fun h => if_pos h⟩
  rw [← horigin]
  by_cases hspecial : ∃ folder, origin p i = .special folder
  · obtain ⟨folder, hfolder⟩ := hspecial
    simp only [HasForm, hfolder] at hform
    obtain ⟨f, hf, rfl⟩ := isFolderId_of_specialFolder? (specialFolder?_of_origin hfolder)
    rw [hform, hfolder]
    simpa using (folder_spec f hf).2.2.2.2
  · exact (origin_of_hasForm hform fun folder h => hspecial ⟨folder, h⟩).1.symm

/-- The directories with the identifier of the installation directory are the one that was chosen,
if it is kept, and no other. -/
theorem showsDirectory_installDir {c : Compiled} (hc : p.compile = .ok c) {i : Nat}
    (hi : (chosenInstallDir p).1 = some i) :
    List.Forall₂ (ShowsDirectory p)
      (if i ∈ (keptOutlines p).map (·.index) then [some i] else [])
      (directoriesOf c "INSTALLDIR") := by
  obtain ⟨x, hx⟩ := shows_of_compile hc
  let test : Option Nat → Bool := fun j =>
    (j.map (assignDirectories p).id).getD targetDirId == "INSTALLDIR"
  have hfiltered : List.Forall₂ (ShowsDirectory p)
      ((none :: (keptOutlines p).map fun o => some o.index).filter test)
      (directoriesOf c "INSTALLDIR") := by
    refine List.rel_filter (fun j e hshows => ?_) (showsDirectory_of_shows hx)
    simp [test, get?_of_showsDirectory hp.attributes hshows]
  have hindexes : ((keptOutlines p).map (·.index)).filter (fun j => test (some j)) =
      ((keptOutlines p).map (·.index)).filter (· == i) := by
    refine List.filter_congr fun j hj => ?_
    have hwalk := ((map_index_kept_sublist p).2 p.directories.outlines).mem hj
    have hid := id_eq_installDir_iff hp hwalk
    rw [hi, Option.some.injEq] at hid
    rw [Bool.eq_iff_iff]
    simpa [test, eq_comm (a := i)] using hid
  have hchosen : (none :: (keptOutlines p).map fun o => some o.index).filter test =
      if i ∈ (keptOutlines p).map (·.index) then [some i] else [] := by
    have hmap : (keptOutlines p).map (fun o => some o.index) =
        ((keptOutlines p).map (·.index)).map some := by
      rw [List.map_map]
      rfl
    have htarget : test none = false := rfl
    rw [List.filter_cons, htarget, hmap, List.filter_map]
    change List.map some (((keptOutlines p).map (·.index)).filter fun j => test (some j)) = _
    rw [hindexes, List.filter_beq, (nodup_index_keptOutlines p).count]
    split <;> rfl
  exact hchosen ▸ hfiltered

end chosen

theorem name_of_interfaceElements {p : Project} {installDir : Option String} {es : List Element}
    {a b : Allocator} (h : interfaceElements p installDir a = .ok (es, b)) :
    ∀ e ∈ es, e.name = "UI" := by
  unfold interfaceElements at h
  cases hui : p.ui with
  | none =>
    simp only [hui] at h
    obtain ⟨rfl, -⟩ := Emit.pure_eq_ok.1 h
    simp
  | some ui =>
    simp only [hui] at h
    split at h
    · obtain ⟨e, _, he, h⟩ := Emit.bind_eq_ok.1 h
      obtain ⟨rfl, -⟩ := Emit.pure_eq_ok.1 h
      obtain ⟨styles, _, _, he⟩ := Emit.bind_eq_ok.1 he
      obtain ⟨dialogs, _, _, he⟩ := Emit.bind_eq_ok.1 he
      obtain ⟨rfl, -⟩ := Emit.pure_eq_ok.1 he
      simp
    · obtain ⟨rfl, -⟩ := Emit.pure_eq_ok.1 h
      simp

/-- What stands before the directories and the closings of applications are no user interfaces. -/
theorem no_interface_opening {p : Project} {placed : Placement} {before : List Element}
    {a b : Allocator} (h : opening p a = .ok ((placed, before), b)) :
    (before ++ placed.parentElements).filter (·.name == "UI") = [] := by
  obtain ⟨settings, _, hplaced, h⟩ := Emit.bind_eq_ok.1 h
  obtain ⟨media, _, hmedia, h⟩ := Emit.bind_eq_ok.1 h
  obtain ⟨upgrade, _, hupgrade, h⟩ := Emit.bind_eq_ok.1 h
  obtain ⟨heq, -⟩ := Emit.pure_eq_ok.1 h
  obtain ⟨rfl, rfl⟩ := Prod.mk.inj heq
  obtain ⟨-, rfl, -⟩ := emit_eq_ok.1 hmedia
  have hupgrade := Element.filter_name_eq_nil "UI" _ (by decide)
    (name_of_mapM_emit hupgrade)
  have hloose : settings.parentElements.filter (·.name == "UI") = [] := by
    rw [(places_processAll (p := p) targetDirId [] hplaced).2.parentElements, List.filter_eq_nil_iff]
    intro e he heq
    have hmem := name_of_mem_within_pieces p targetDirId (List.mem_flatMap.2
      ⟨e, List.mem_append_right _ he, List.mem_cons_self⟩)
    rw [eq_of_beq heq] at hmem
    exact absurd hmem (by decide)
  simp [hupgrade, hloose, packageElement, Media.schema]

/-- What stands behind the features has the user interface that was written, and no other. -/
theorem interfaces_closing {p : Project} {d : DirectoryIds} {behind : List Element}
    {a b : Allocator} (h : closing p d a = .ok (behind, b)) :
    ∃ c, interfaceElements p d.installDirId c = .ok (behind.filter (·.name == "UI"), b) := by
  obtain ⟨properties, c, hproperties, h⟩ := Emit.bind_eq_ok.1 h
  obtain ⟨ui, _, hui, h⟩ := Emit.bind_eq_ok.1 h
  obtain ⟨rfl, rfl⟩ := Emit.pure_eq_ok.1 h
  have hnone := Element.filter_name_eq_nil "UI" _ (by decide)
    (name_of_mapM_emit hproperties)
  have hself : ui.filter (·.name == "UI") = ui :=
    List.filter_eq_self.2 fun e he => beq_iff_eq.2 (name_of_interfaceElements hui e he)
  rw [List.filter_append, hnone, hself]
  exact ⟨c, hui⟩

/-- The product of a document has the user interface that was written, and no other. -/
theorem interfacesOf_compiled {p : Project} {c : Compiled} (hc : p.compile = .ok c) :
    ∃ a b, interfaceElements p c.installDir a = .ok (interfacesOf c, b) := by
  obtain ⟨part, s, _, _, _, hs, rfl⟩ := surroundings_of_compile hc
  have hfeatures : s.features.filter (·.name == "UI") = [] := by
    rw [List.filter_eq_nil_iff]
    intro e he heq
    have hmem := (plain_surroundings hs).2 e (List.mem_flatMap.2 ⟨e, he, List.mem_cons_self⟩)
    rw [eq_of_beq heq] at hmem
    exact absurd hmem (by decide)
  obtain ⟨⟨placed, before⟩, _, hopening, hs⟩ := Emit.bind_eq_ok.1 hs
  obtain ⟨⟨features, warnings⟩, _, _, hs⟩ := Emit.bind_eq_ok.1 hs
  obtain ⟨behind, b, hclosing, hs⟩ := Emit.bind_eq_ok.1 hs
  obtain ⟨rfl, -⟩ := Emit.pure_eq_ok.1 hs
  have hbefore := List.append_eq_nil_iff.1
    ((List.filter_append _ _).symm.trans (no_interface_opening hopening))
  obtain ⟨a, hui⟩ := interfaces_closing hclosing
  refine ⟨a, b, hui.trans ?_⟩
  simp [interfacesOf, Surroundings.compiled, Frame.document, rootElement, Element.childrenNamed,
    productElement, Frame.target, targetDirElement, frameOf, hbefore, hfeatures]

/-- The directory that a document reports as its installation directory is one that names no special
folder and that no other directory shares its identifier with. The document shows it unless empty
directories are left out and nothing is held in it or below it, and in any case the user interface
has it as the directory that may be chosen. -/
theorem installDir_shown_iff {p : Project} (hp : p.LeavesDirectoryIds) {c : Compiled}
    (hc : p.compile = .ok c) {id : String} (hid : c.installDir = some id) :
    (∃ i n, (chosenInstallDir p).1 = some i ∧ p.directories.node? i = some n ∧
      specialFolder? n.name = none ∧
      (∀ e ∈ directoriesOf c id, ShowsDirectory p (some i) e) ∧
      (directoriesOf c id).length ≤ 1 ∧
      ((directoriesOf c id).length = 1 ↔
        (p.options.emptyDirectories = .elide → p.directories.holdsPayloadBelow i = true))) ∧
    ∀ ui, p.ui = some ui → p.options.emitUi = true →
      (ui.property? Dialog.installDirProperty).isSome = true → ∃ e, interfacesOf c = [e] ∧
        (e.childWhere? "Property" "Id" Dialog.installDirProperty).bind (·.get? "Value") = some id ∧
        ((ui.properties.map (·.1)).Nodup → ∀ q ∈ e.childrenNamed "Property",
          q.get? "Id" = some Dialog.installDirProperty → q.get? "Value" = some id) := by
  have hchosen : (chosenInstallDir p).1.map (assignDirectories p).id = some id := by
    rw [← hid]
    obtain ⟨_, _, _, _, _, _, rfl⟩ := surroundings_of_compile hc
    rfl
  obtain ⟨i, hi, hassigned⟩ := Option.map_eq_some_iff.1 hchosen
  obtain ⟨n, hn⟩ := node?_of_chosenInstallDir hi
  have hsize : i < p.directories.size := (List.getElem?_eq_some_iff.1 hn).1
  have hwalk : i ∈ p.directories.outlines.flatMap Outline.walk :=
    p.directories.walk_outlines_perm.mem_iff.2 (List.mem_range.2 hsize)
  obtain rfl : "INSTALLDIR" = id := ((id_eq_installDir_iff hp hwalk).2 hi).symm.trans hassigned
  refine ⟨⟨i, n, hi, hn, ?_, ?_⟩, ?_⟩
  · have hnone := specialFolder?_chosenInstallDir hp hi
    rwa [nodeAt, hn, Option.getD_some] at hnone
  · have hshows := showsDirectory_installDir hp hc hi
    rw [← mem_keptOutlines_iff hsize]
    split at hshows
    · next hkept =>
      obtain ⟨e, es, hshown, hnil, hes⟩ := List.forall₂_cons_left_iff.1 hshows
      obtain rfl := List.forall₂_nil_left_iff.1 hnil
      simp [hes, hkept, hshown]
    · next hleft =>
      rw [List.forall₂_nil_left_iff.1 hshows]
      simp [hleft]
  · intro ui hui hemit hbound
    obtain ⟨a, b, hwritten⟩ := interfacesOf_compiled hc
    simp only [interfaceElements, hui, hemit, if_true, hid] at hwritten
    obtain ⟨e, d, he, hwritten⟩ := Emit.bind_eq_ok.1 hwritten
    obtain ⟨heq, -⟩ := Emit.pure_eq_ok.1 hwritten
    exact ⟨e, heq.symm, Dialog.Interface.value_of_bindInstallDir hbound he⟩

/-- An empty directory. -/
def nothingInside : Declaration where
  path := "App"

/-- The project with an empty directory, which is left out. -/
def leftOutProject : Project where
  name := "Acme"
  directories := (Tree.empty.declare none nothingInside).2
  ui := some .stock
  options := { emptyDirectories := .elide }

theorem leavesDirectoryIds_leftOutProject : leftOutProject.LeavesDirectoryIds := by
  decide +kernel

theorem compile_leftOutProject : ∃ c, leftOutProject.compile = .ok c ∧
    c.installDir = some "INSTALLDIR" ∧ directoriesOf c "INSTALLDIR" = [] := by
  have hrun : (leftOutProject.compile.toOption.map fun c =>
      (c.installDir, (directoriesOf c "INSTALLDIR").length)) = some (some "INSTALLDIR", 0) := by
    decide +kernel
  obtain ⟨c, hc, heq⟩ := exists_ok_of_toOption_map hrun
  obtain ⟨hinstall, hnone⟩ := Prod.mk.inj heq
  exact ⟨c, hc, hinstall, List.length_eq_zero_iff.1 hnone⟩

/-- A report that names an installation directory which the document does not hold. -/
theorem installDir_left_out :
    ({ leftOutProject with directories := {} } : Project).add (.directory nothingInside) =
      .ok leftOutProject ∧
    leftOutProject.LeavesDirectoryIds ∧ ∃ c, leftOutProject.compile = .ok c ∧
      ∃ id, c.installDir = some id ∧ ¬ ∃ e, directoriesOf c id = [e] := by
  obtain ⟨c, hc, hinstall, hnone⟩ := compile_leftOutProject
  exact ⟨rfl, leavesDirectoryIds_leftOutProject, c, hc, _, hinstall, by simp [hnone]⟩

/-- The project with a directory that holds a file, below one that holds nothing. -/
def shownProject : Project :=
  { leftOutProject with
    directories := (Tree.empty.declare none
      { path := "Acme\\App", items := [.file { source := "a.txt" }] }).2 }

theorem installDir_shown_iff_file : shownProject.LeavesDirectoryIds ∧
    ∃ c, shownProject.compile = .ok c ∧ c.installDir = some "INSTALLDIR" ∧
      (directoriesOf c "INSTALLDIR").length = 1 ∧ ∃ e, interfacesOf c = [e] ∧
        (e.childWhere? "Property" "Id" Dialog.installDirProperty).bind (·.get? "Value") =
          some "INSTALLDIR" := by
  have hp : shownProject.LeavesDirectoryIds := by decide +kernel
  have hrun : (shownProject.compile.toOption.map (·.installDir)) = some (some "INSTALLDIR") := by
    decide +kernel
  have hchosen : (chosenInstallDir shownProject).1 = some 1 := by decide +kernel
  obtain ⟨c, hc, hinstall⟩ := exists_ok_of_toOption_map hrun
  obtain ⟨⟨i, n, hi, -, -, -, -, hshown⟩, hbound⟩ := installDir_shown_iff hp hc hinstall
  obtain rfl := Option.some.inj (hchosen.symm.trans hi)
  obtain ⟨e, he, hvalue, -⟩ := hbound _ rfl rfl (by decide)
  have hkept : 1 ∈ (keptOutlines shownProject).map (·.index) := by decide +kernel
  exact ⟨hp, c, hc, hinstall, hshown.2 ((mem_keptOutlines_iff (by decide +kernel)).1 hkept), e, he,
    hvalue⟩

end Compile

end Installer
