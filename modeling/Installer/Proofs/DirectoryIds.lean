import Installer.Proofs.Compile.Elision
import Installer.Proofs.Compile.Numbering
import Installer.Proofs.Identifier.Spelling
import Mathlib.Data.List.Find

/-!
# Identifiers of directories

The allocator keeps clear of the directory above all others and of the installation directory, but
not of special folders, and a special folder gives its identifier to every directory that names it.
So the identifiers of directories are pairwise distinct exactly when no directory names a special
folder whose identifier another directory has, by naming the folder too or by asking the allocator
for just that identifier before anyone else does.
-/
namespace Installer

namespace Text

theorem lower_eq_dot {c : Char} (h : lower c = '.') : c = '.' := by
  unfold lower at h
  split at h
  · next hc =>
    have hletter : ∀ n ≤ 90, 65 ≤ n → Char.ofNat (n + 32) ≠ '.' := by decide
    simp only [Bool.and_eq_true, decide_eq_true_eq, Char.le_def, UInt32.le_iff_toNat_le] at hc
    exact absurd h (hletter c.toNat hc.2 hc.1)
  · exact h

theorem dot_mem_of_sameText {a b : String} (h : sameText a b = true) (ha : '.' ∈ a.toList) :
    '.' ∈ b.toList := by
  have hfold : a.toList.map lower = b.toList.map lower := by
    have hlist := congrArg String.toList (sameText_iff.1 h)
    rwa [fold, fold, String.toList_ofList, String.toList_ofList] at hlist
  have hdot : '.' ∈ b.toList.map lower := hfold ▸ List.mem_map.2 ⟨'.', ha, rfl⟩
  obtain ⟨c, hc, hlower⟩ := List.mem_map.1 hdot
  exact lower_eq_dot hlower ▸ hc

end Text

open Identifier Directory Markup Schema

namespace Compile

/-- A root asks the allocator for the identifier of a special folder, letter case aside. -/
def asksAtRoot (p : Project) (folder : String) (o : Outline) : Bool :=
  origin p o.index = .spelled &&
    Text.sameText (candidate .directory (nodeAt p o.index).name) folder

/-- A directory that does not name the special folder gets its identifier nevertheless: it is the
first root to ask for it, in the very letters. -/
def Borrows (p : Project) (i : Nat) (folder : String) : Prop :=
  ∃ o, p.directories.outlines.find? (asksAtRoot p folder) = some o ∧ o.index = i ∧
    candidate .directory (nodeAt p i).name = folder

/-- A directory names a special folder. -/
def Names (p : Project) (i : Nat) (folder : String) : Prop :=
  specialFolder? (nodeAt p i).name = some folder

section numbering

variable {p : Project} (hp : p.LeavesDirectoryIds)
include hp

/-- All identifiers of directories come from a row of requests. -/
theorem served_assignDirectories : ∃ rs s, Served p rs s ∧ s.given = (assignDirectories p).given ∧
    Asks p none { ids := startingIds p } p.directories.outlines rs s := by
  obtain ⟨rs, hrs⟩ := (asks_number hp).2 p.directories.outlines none { ids := startingIds p }
    (by simp)
  have hnodup : (rs.map (·.index)).Nodup := by
    rw [hrs.indexes]
    exact p.directories.nodup_walk_outlines
  have hserved := (served_start hp).run hp hnodup
  rw [hrs.run] at hserved
  exact ⟨rs, _, hserved, (given_assignDirectories p).symm, hrs⟩

omit hp in
/-- The identifier of a directory is the one that the numbering gave it. -/
theorem mem_given_iff {i : Nat} (hi : i ∈ p.directories.outlines.flatMap Outline.walk)
    (id : String) : (i, id) ∈ (assignDirectories p).given ↔ (assignDirectories p).id i = id := by
  constructor
  · exact id_of_mem_given
  · rintro rfl
    rw [given_eq_map]
    exact List.mem_map_of_mem hi

/-- The identifier of a directory has the form that goes with where it comes from. -/
theorem hasForm_id {i : Nat} (hi : i ∈ p.directories.outlines.flatMap Outline.walk) :
    ∃ s, HasForm p s (i, (assignDirectories p).id i) := by
  obtain ⟨_, s, hserved, hgiven, _⟩ := served_assignDirectories hp
  have hmem := (mem_given_iff hi _).2 rfl
  rw [← hgiven] at hmem
  exact ⟨s, hserved.forms _ hmem⟩

omit hp in
/-- The request of a directory below another has a dot, and no special folder has. -/
theorem below_eq_none_of_asks {r : Request} {folder : String} (hfolder : IsFolderId folder)
    (hplain : ∀ id, r.below = some id → IsPlain id.toList) (h : r.asks p folder = true) :
    r.below = none := by
  cases hbelow : r.below with
  | none => rfl
  | some id =>
    obtain ⟨f, hf, rfl⟩ := hfolder
    obtain ⟨_, hsame⟩ := Bool.and_eq_true_iff.1 h
    have hname : r.name p = id ++ "." ++ (nodeAt p r.index).name := by
      rw [Request.name, hbelow]
      rfl
    rw [hname] at hsame
    exact absurd (Text.dot_mem_of_sameText hsame (dot_mem_candidate (hplain id hbelow) _))
      (dot_not_mem_folder hf)

omit hp in
/-- The first request for a special folder is that of the first root to ask for it. -/
theorem find?_asks {s u : Numbering} {rs : List Request}
    (h : Asks p none s p.directories.outlines rs u) {folder : String}
    (hfolder : IsFolderId folder) : rs.find? (·.asks p folder) =
      (p.directories.outlines.find? (asksAtRoot p folder)).map fun o => ⟨o.index, none⟩ := by
  have hroots : rs.find? (·.asks p folder) =
      (rs.filter (·.below.isNone)).find? (·.asks p folder) := by
    rw [List.find?_filter]
    refine List.find?_congr fun r hr => ?_
    cases hasks : r.asks p folder with
    | false => simp
    | true => simp [below_eq_none_of_asks hfolder (h.plain r hr) hasks]
  rw [hroots, h.roots, Option.isNone_none, if_pos rfl, List.find?_map]
  rfl

/-- The installation directory names no special folder. -/
theorem specialFolder?_chosenInstallDir {i : Nat} (h : (chosenInstallDir p).1 = some i) :
    specialFolder? (nodeAt p i).name = none := by
  have hnone : p.directories.nodes.findIdx? (·.id == some "INSTALLDIR") = none := by
    rw [List.findIdx?_eq_none_iff]
    intro n hn
    simp [hp.ids n hn]
  unfold chosenInstallDir at h
  rw [hp.installDirId] at h
  simp only [hnone] at h
  split at h
  · simp at h
  · split at h
    · simp at h
    · next j _ _ n hn =>
      split at h
      · simp at h
      · next hspecial =>
        obtain rfl : j = i := by simpa using h
        have hid : n.id = none := hp.ids n (List.mem_of_getElem? hn)
        rw [nodeAt_of_node? hn]
        simpa [hid] using hspecial

theorem names_iff {i : Nat} {folder : String} :
    Names p i folder ↔ origin p i = .special folder := by
  constructor
  · intro h
    unfold origin
    split
    · next hinstall =>
      have hnone := specialFolder?_chosenInstallDir hp hinstall
      rw [Names, hnone] at h
      simp at h
    · rw [Names] at h
      simp [h]
  · exact specialFolder?_of_origin

omit hp in
theorem origin_of_borrows {i : Nat} {folder : String} (h : Borrows p i folder) :
    origin p i = .spelled := by
  obtain ⟨o, ho, rfl, _⟩ := h
  have hroot := List.find?_some ho
  simp only [asksAtRoot, Bool.and_eq_true, decide_eq_true_eq] at hroot
  exact hroot.1

/-- What the allocator gives a directory is the identifier of a special folder where the directory
borrows it, and only there. -/
theorem id_eq_folder_iff_borrows {i : Nat}
    (hi : i ∈ p.directories.outlines.flatMap Outline.walk) (horigin : origin p i = .spelled)
    {folder : String} (hfolder : IsFolderId folder) :
    (assignDirectories p).id i = folder ↔ Borrows p i folder := by
  obtain ⟨rs, s, hserved, hgiven, hasks⟩ := served_assignDirectories hp
  obtain ⟨r, hr, rfl⟩ : ∃ r ∈ rs, r.index = i := by
    rw [← hasks.indexes] at hi
    exact List.mem_map.1 hi
  rw [← mem_given_iff hi, ← hgiven, hserved.owners r hr horigin folder hfolder,
    find?_asks hasks hfolder, Option.map_eq_some_iff]
  constructor
  · rintro ⟨⟨o, ho, rfl⟩, hcandidate⟩
    exact ⟨o, ho, rfl, hcandidate⟩
  · rintro ⟨o, ho, hindex, hcandidate⟩
    have hroot : (⟨o.index, none⟩ : Request) ∈ rs.filter (·.below.isNone) := by
      rw [hasks.roots]
      exact List.mem_map.2 ⟨o, List.mem_of_find?_eq_some ho, rfl⟩
    have hnodup : (rs.map (·.index)).Nodup := by
      rw [hasks.indexes]
      exact p.directories.nodup_walk_outlines
    obtain rfl := List.inj_on_of_nodup_map hnodup (List.mem_filter.1 hroot).1 hr hindex
    exact ⟨⟨o, ho, rfl⟩, hcandidate⟩

/-- A directory has the identifier of a special folder if it names the folder or borrows from it,
and only then. -/
theorem id_eq_folder_iff {i : Nat} (hi : i ∈ p.directories.outlines.flatMap Outline.walk)
    {folder : String} (hfolder : IsFolderId folder) :
    (assignDirectories p).id i = folder ↔ Names p i folder ∨ Borrows p i folder := by
  obtain ⟨s, hform⟩ := hasForm_id hp hi
  have hborrows : origin p i ≠ .spelled → ¬ Borrows p i folder :=
    fun hne h => hne (origin_of_borrows h)
  rw [names_iff hp]
  cases horigin : origin p i with
  | installation =>
    simp only [HasForm, horigin] at hform
    obtain ⟨f, hf, rfl⟩ := hfolder
    have hinstall := (folder_spec f hf).2.2.2.2
    simp [hform, hborrows (by simp [horigin]), hinstall.symm]
  | special other =>
    simp only [HasForm, horigin] at hform
    simp [hform, hborrows (by simp [horigin])]
  | rooted =>
    simp only [HasForm, horigin] at hform
    obtain ⟨k, _, hid⟩ := hform
    have hne : rootedId k ≠ folder := by
      rintro rfl
      obtain ⟨f, hf, hrooted⟩ := hfolder
      have htarget := (folder_spec f hf).2.2.2.1
      rw [hrooted, rootedId, String.toList_append] at htarget
      simp [targetDirId] at htarget
    simp [hid, hne, hborrows (by simp [horigin])]
  | spelled => simp [id_eq_folder_iff_borrows hp hi horigin hfolder]

omit hp in
theorem not_isSpelled_rootedId (k : Nat) : ¬ IsSpelled (rootedId k) :=
  not_isSpelled_append_digits (by decide) Nat.toDigits_ne_nil fun _ => Text.isDigit_of_mem_decimal

omit hp in
/-- Apart from special folders, an identifier tells where it comes from. -/
theorem origin_of_hasForm {s : Numbering} {g : Nat × String} (h : HasForm p s g)
    (hg : ∀ folder, origin p g.1 ≠ .special folder) :
    (origin p g.1 = .installation ↔ g.2 = "INSTALLDIR") ∧
      (origin p g.1 = .rooted ↔ ¬ IsSpelled g.2) := by
  have hinstall : IsSpelled "INSTALLDIR" := Or.inr (by decide)
  unfold HasForm at h
  cases horigin : origin p g.1 with
  | special folder => exact absurd horigin (hg folder)
  | installation =>
    simp only [horigin] at h
    simp [h, hinstall]
  | rooted =>
    simp only [horigin] at h
    obtain ⟨k, _, hid⟩ := h
    have hk := not_isSpelled_rootedId k
    have hne : rootedId k ≠ "INSTALLDIR" := fun heq => hk (heq ▸ hinstall)
    simp [hid, hk, hne]
  | spelled =>
    simp only [horigin] at h
    simp [h.2.1, h.2.2.2]

omit hp in
/-- Of two identifiers of the forms of their origins, neither from a special folder, the same text
has the same origin. -/
theorem origin_eq_of_hasForm {s : Numbering} {g h : Nat × String} (hg : HasForm p s g)
    (hh : HasForm p s h) (hgNone : ∀ folder, origin p g.1 ≠ .special folder)
    (hhNone : ∀ folder, origin p h.1 ≠ .special folder) (hid : g.2 = h.2) :
    origin p g.1 = origin p h.1 := by
  obtain ⟨hgInstall, hgRooted⟩ := origin_of_hasForm hg hgNone
  obtain ⟨hhInstall, hhRooted⟩ := origin_of_hasForm hh hhNone
  rw [hid] at hgInstall hgRooted
  have hinstall := hgInstall.trans hhInstall.symm
  have hrooted := hgRooted.trans hhRooted.symm
  cases horigin : origin p g.1 with
  | special folder => exact absurd horigin (hgNone folder)
  | installation => exact (hinstall.1 horigin).symm
  | rooted => exact (hrooted.1 horigin).symm
  | spelled =>
    cases hother : origin p h.1 with
    | special folder => exact absurd hother (hhNone folder)
    | installation => simp [hinstall.2 hother] at horigin
    | rooted => simp [hrooted.2 hother] at horigin
    | spelled => rfl

/-- Directories of one identifier share that of a special folder, which one of them names. -/
theorem names_of_id_eq {i j : Nat} (hi : i ∈ p.directories.outlines.flatMap Outline.walk)
    (hj : j ∈ p.directories.outlines.flatMap Outline.walk) (hij : i ≠ j)
    (hid : (assignDirectories p).id i = (assignDirectories p).id j) :
    ∃ folder, Names p i folder ∨ Names p j folder := by
  obtain ⟨rs, s, hserved, hgiven, -⟩ := served_assignDirectories hp
  have hgi := (mem_given_iff hi _).2 rfl
  have hgj := (mem_given_iff hj _).2 rfl
  rw [← hgiven] at hgi hgj
  by_contra hnone
  have hspecial : ∀ k, k = i ∨ k = j → ∀ folder, origin p k ≠ .special folder := by
    rintro k (rfl | rfl) folder h
    · exact hnone ⟨folder, Or.inl ((names_iff hp).2 h)⟩
    · exact hnone ⟨folder, Or.inr ((names_iff hp).2 h)⟩
  have horigin : origin p i = origin p j := origin_eq_of_hasForm (hserved.forms _ hgi)
    (hserved.forms _ hgj) (hspecial i (by simp)) (hspecial j (by simp)) hid
  have hapart := hserved.apart.forall hgi hgj (by simp [hij])
  cases h : origin p i with
  | special folder => exact hspecial i (by simp) folder h
  | installation =>
    have hchosen := chosenInstallDir_of_origin h
    rw [chosenInstallDir_of_origin (horigin ▸ h)] at hchosen
    exact hij (Option.some.inj hchosen).symm
  | rooted => exact hapart horigin (by rw [h]; rfl) hid
  | spelled => exact hapart horigin (by rw [h]; rfl) hid

/-- No directory has the identifier of the directory above all others. -/
theorem id_ne_targetDirId {i : Nat} (hi : i ∈ p.directories.outlines.flatMap Outline.walk) :
    (assignDirectories p).id i ≠ targetDirId := by
  obtain ⟨s, hform⟩ := hasForm_id hp hi
  intro hid
  cases horigin : origin p i with
  | special folder =>
    simp only [HasForm, horigin, hid] at hform
    obtain ⟨f, hf, rfl⟩ := isFolderId_of_specialFolder? (specialFolder?_of_origin horigin)
    have htarget := (folder_spec f hf).2.2.2.1
    rw [← hform] at htarget
    exact absurd htarget (by decide)
  | installation =>
    simp only [HasForm, horigin, hid] at hform
    exact absurd hform (by decide)
  | rooted =>
    have hspelled : IsSpelled targetDirId := Or.inr (by decide)
    have hrooted := (origin_of_hasForm hform (by simp [horigin])).2.1 horigin
    exact hrooted (by rw [hid]; exact hspelled)
  | spelled =>
    simp only [HasForm, horigin] at hform
    exact hform.2.2.1 hid

omit hp in
/-- The element of a directory has the directory's identifier where no verbatim one replaces it. -/
theorem get?_of_showsDirectory (hattributes : ∀ n ∈ p.directories.nodes,
      n.attributes.get? "Id" = none ∧ n.ownAttributes.get? "Id" = none)
    {i : Option Nat} {e : Element} (h : ShowsDirectory p i e) :
    e.get? "Id" = some ((i.map (assignDirectories p).id).getD targetDirId) := by
  have hown : ∀ (as : Attributes) (e : Element), as.get? "Id" = none →
      (e.setAll as.own).get? "Id" = e.get? "Id" := by
    intro as e has
    rw [get?_setAll_own e as (by decide), has, Option.none_or]
  have hif : ∀ (b : Bool) (as : Attributes) (e : Element), as.get? "Id" = none →
      (e.setAll (if b then [] else as.own)).get? "Id" = e.get? "Id" := by
    intro b as e has
    cases b with
    | true => rfl
    | false => exact hown as e has
  cases h with
  | target inside => simp [targetDirElement, Element.get?_set]
  | node hn inside =>
    obtain ⟨hplain, hownAttributes⟩ := hattributes _ (List.mem_of_getElem? hn)
    have hhead : ∀ (o : Option Node) (e : Element),
        (∀ n, o = some n → n ∈ p.directories.nodes) →
        (e.setAll ((o.map (·.attributes.own)).getD [])).get? "Id" = e.get? "Id" := by
      intro o e ho
      cases o with
      | none => rfl
      | some n => exact hown _ e (hattributes n (ho n rfl)).1
    rw [Element.get?_pushAll, directoryElement, directoryAttributes, Element.setAll_append,
      Element.setAll_append, hown _ _ hownAttributes, hhead, hif _ _ _ hplain]
    · simp [Element.get?_set]
    · intro n hchain
      obtain ⟨j, _, hj⟩ := Option.bind_eq_some_iff.1 hchain
      exact List.mem_of_getElem? hj

omit hp in
theorem ids_of_showsDirectory (hattributes : ∀ n ∈ p.directories.nodes,
      n.attributes.get? "Id" = none ∧ n.ownAttributes.get? "Id" = none)
    {is : List (Option Nat)} {es : List Element} (h : List.Forall₂ (ShowsDirectory p) is es) :
    es.map (·.get? "Id") =
      is.map fun i => some ((i.map (assignDirectories p).id).getD targetDirId) := by
  induction h with
  | nil => rfl
  | cons hie _ ih =>
    rw [List.map_cons, get?_of_showsDirectory hattributes hie, ih, List.map_cons]

/-- The directories of a document have the identifiers of the kept directories, behind that of the
directory above all others. -/
theorem idsOf_directory {c : Compiled} (hc : p.compile = .ok c) :
    c.document.idsOf "Directory" =
      targetDirId :: (keptOutlines p).map fun o => (assignDirectories p).id o.index := by
  obtain ⟨x, hx⟩ := shows_of_compile hc
  have hids := ids_of_showsDirectory hp.attributes (showsDirectory_of_shows hx)
  have hsome : c.document.idsOf "Directory" =
      ((c.document.descendantsNamed "Directory").map (·.get? "Id")).filterMap id := by
    rw [List.filterMap_map]
    rfl
  rw [hsome, hids]
  simp

/-- The identifiers of directories are pairwise distinct exactly when no kept directory names a
special folder that another one names too or borrows from. -/
theorem nodup_directoryIds_iff {c : Compiled} (hc : p.compile = .ok c) :
    (c.document.idsOf "Directory").Nodup ↔
      ∀ o ∈ keptOutlines p, ∀ u ∈ keptOutlines p, o.index ≠ u.index → ∀ folder,
        Names p o.index folder → ¬ Names p u.index folder ∧ ¬ Borrows p u.index folder := by
  have hwalk : ∀ o ∈ keptOutlines p, o.index ∈ p.directories.outlines.flatMap Outline.walk :=
    fun o ho => ((map_index_kept_sublist p).2 _).mem (List.mem_map_of_mem ho)
  have hindex := nodup_index_keptOutlines p
  have hkept : (keptOutlines p).map (fun o => (assignDirectories p).id o.index) =
      ((keptOutlines p).map (·.index)).map (assignDirectories p).id := by
    rw [List.map_map]
    rfl
  rw [idsOf_directory hp hc, hkept, List.nodup_cons, List.nodup_map_iff_inj_on hindex]
  have htarget : targetDirId ∉ ((keptOutlines p).map (·.index)).map (assignDirectories p).id := by
    simp only [List.map_map, List.mem_map, Function.comp_apply, not_exists, not_and]
    exact fun o ho => id_ne_targetDirId hp (hwalk o ho)
  simp only [htarget, not_false_eq_true, true_and, List.forall_mem_map]
  constructor
  · intro hinj o ho u hu hne folder hnames
    have hfolder := isFolderId_of_specialFolder? hnames
    have hid := (id_eq_folder_iff hp (hwalk o ho) hfolder).2 (Or.inl hnames)
    rw [← not_or, ← id_eq_folder_iff hp (hwalk u hu) hfolder]
    exact fun hother => hne (hinj o ho u hu (hid.trans hother.symm))
  · intro hclear o ho u hu hid
    by_contra hne
    have hshared : ∀ v ∈ keptOutlines p, ∀ w ∈ keptOutlines p, v.index ≠ w.index →
        (assignDirectories p).id v.index = (assignDirectories p).id w.index →
        ∀ folder, ¬ Names p v.index folder := by
      intro v hv w hw hvw hsame folder hnames
      have hfolder := isFolderId_of_specialFolder? hnames
      have hv' := (id_eq_folder_iff hp (hwalk v hv) hfolder).2 (Or.inl hnames)
      rcases (id_eq_folder_iff hp (hwalk w hw) hfolder).1 (hsame.symm.trans hv') with h | h
      · exact (hclear v hv w hw hvw folder hnames).1 h
      · exact (hclear v hv w hw hvw folder hnames).2 h
    obtain ⟨folder, hnames | hnames⟩ := names_of_id_eq hp (hwalk o ho) (hwalk u hu) hne hid
    · exact hshared o ho u hu hne hid folder hnames
    · exact hshared u hu o ho (Ne.symm hne) hid.symm folder hnames

end numbering

/-- A directory below a special folder. -/
def belowPlaceholder : Declaration where
  path := "%ProgramFiles%\\App"
  items := [.file { source := "a.txt" }]

/-- A directory below the same special folder in another spelling. -/
def belowLowerCase : Declaration where
  path := "%programfiles%\\Lib"
  items := [.file { source := "b.txt" }]

/-- The project with those directories and nothing else. -/
def twoSpellings : Project where
  name := "Acme"
  directories := ((Tree.empty.declare none belowPlaceholder).2.declare none belowLowerCase).2

theorem leavesDirectoryIds_twoSpellings : twoSpellings.LeavesDirectoryIds := by
  decide +kernel

theorem compile_twoSpellings : ∃ c, twoSpellings.compile = .ok c ∧ c.document.idsOf "Directory" =
    ["TARGETDIR", "ProgramFilesFolder", "INSTALLDIR", "ProgramFilesFolder",
      "ProgramFilesFolder.Lib"] := by
  have hrun : (twoSpellings.compile.toOption.map fun c => c.document.idsOf "Directory") =
      some ["TARGETDIR", "ProgramFilesFolder", "INSTALLDIR", "ProgramFilesFolder",
        "ProgramFilesFolder.Lib"] := by
    decide +kernel
  exact exists_ok_of_toOption_map hrun

/-- Two directories of one identifier, although nobody gave one by hand. -/
theorem directories_of_one_identifier :
    belowPlaceholder.hasPaths = true ∧ belowLowerCase.hasPaths = true ∧
    (({ name := "Acme" } : Project).add (.directory belowPlaceholder)).bind
      (·.add (.directory belowLowerCase)) = .ok twoSpellings ∧
    twoSpellings.LeavesDirectoryIds ∧
    ∃ c, twoSpellings.compile = .ok c ∧ ¬ (c.document.idsOf "Directory").Nodup := by
  obtain ⟨c, hc, hids⟩ := compile_twoSpellings
  refine ⟨by decide, by decide, rfl, leavesDirectoryIds_twoSpellings, c, hc, ?_⟩
  rw [hids]
  decide

theorem nodup_directoryIds_iff_spellings :
    twoSpellings.LeavesDirectoryIds ∧ ∃ c, twoSpellings.compile = .ok c ∧
      ((c.document.idsOf "Directory").Nodup ↔
        ∀ o ∈ keptOutlines twoSpellings, ∀ u ∈ keptOutlines twoSpellings, o.index ≠ u.index →
          ∀ folder, Names twoSpellings o.index folder →
            ¬ Names twoSpellings u.index folder ∧ ¬ Borrows twoSpellings u.index folder) := by
  obtain ⟨c, hc, _⟩ := compile_twoSpellings
  exact ⟨leavesDirectoryIds_twoSpellings, c, hc,
    nodup_directoryIds_iff leavesDirectoryIds_twoSpellings hc⟩

end Compile

end Installer
