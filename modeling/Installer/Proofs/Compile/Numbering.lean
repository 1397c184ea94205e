import Installer.Proofs.Compile.Rooms
import Installer.Proofs.Identifier.Forms
import Mathlib.Data.List.Pairwise

/-!
# Numbering directories

Directories ask for their identifiers one after the other, each with the identifier of the directory
around it. What is known of the identifiers given so far is kept up from request to request, so it
holds of the whole walk over a tree.
-/
namespace Installer
open Identifier Directory Markup Schema

/-- The author leaves the identifiers of all directories to the compiler, which uses the usual one
for the installation directory. -/
structure Project.LeavesDirectoryIds (p : Project) : Prop where
  ids : ∀ n ∈ p.directories.nodes, n.id = none
  attributes : ∀ n ∈ p.directories.nodes,
    n.attributes.get? "Id" = none ∧ n.ownAttributes.get? "Id" = none
  installDirId : p.options.installDirId = some "INSTALLDIR"

instance (p : Project) : Decidable p.LeavesDirectoryIds :=
  decidable_of_iff ((∀ n ∈ p.directories.nodes, n.id = none) ∧
      (∀ n ∈ p.directories.nodes,
        n.attributes.get? "Id" = none ∧ n.ownAttributes.get? "Id" = none) ∧
      p.options.installDirId = some "INSTALLDIR")
    ⟨fun ⟨hi, ha, hd⟩ => ⟨hi, ha, hd⟩, fun h => ⟨h.ids, h.attributes, h.installDirId⟩⟩

namespace Compile

theorem given_directoryId (p : Project) (installDir : Option Nat) (i : Nat) (n : Node)
    (parent : Option String) (s : Numbering) :
    (directoryId p installDir i n parent s).2.given = s.given := by
  unfold directoryId
  split
  · rfl
  · split
    · rfl
    · split
      · rfl
      · split <;> rfl

/-- Identifiers for the directories of an outline, each before those below it. -/
def number (p : Project) (installDir : Option Nat) (parent : Option String) (s : Numbering) :
    Outline → Numbering
  | ⟨i, children⟩ =>
      let (id, s) := directoryId p installDir i (nodeAt p i) parent s
      numberAll (some id) { s with given := s.given ++ [(i, id)] } children
where
  numberAll (parent : Option String) (s : Numbering) : List Outline → Numbering
    | [] => s
    | o :: os => numberAll parent (number p installDir parent s o) os

/-- The directories that wait in front are numbered with all that are below them before the others
have their turn. -/
theorem numberWaiting_cons (p : Project) (installDir : Option Nat) :
    (∀ o above s waiting, numberWaiting p installDir s (⟨o, above⟩ :: waiting) =
        numberWaiting p installDir (number p installDir above s o) waiting) ∧
      ∀ os above s waiting, numberWaiting p installDir s (waitBelow above os ++ waiting) =
        numberWaiting p installDir (number.numberAll p installDir above s os) waiting := by
  refine Outline.induction ?node ?nil ?cons
  case node =>
    intro i children ih above s waiting
    rw [numberWaiting, number]
    exact ih _ _ waiting
  case nil => exact fun _ _ _ => rfl
  case cons =>
    intro o os ho hos above s waiting
    rw [waitBelow, List.map_cons, List.cons_append, ← waitBelow, ho, hos, number.numberAll]

/-- The numbering behind all directories of a project. -/
def numbered (p : Project) : Numbering :=
  number.numberAll p (chosenInstallDir p).1 none { ids := startingIds p } p.directories.outlines

/-- Directories that take their turns in a row of waiting ones have the identifiers that a walk over
the outlines gives them. -/
theorem assignDirectories_eq (p : Project) : assignDirectories p =
    ⟨(numbered p).ids, (numbered p).given, (chosenInstallDir p).1, (chosenInstallDir p).2⟩ := by
  have hwaiting := (numberWaiting_cons p (chosenInstallDir p).1).2 p.directories.outlines none
    { ids := startingIds p } []
  rw [List.append_nil, numberWaiting] at hwaiting
  rw [numbered, ← hwaiting]
  rfl

theorem given_assignDirectories (p : Project) :
    (assignDirectories p).given = (numbered p).given := by
  rw [assignDirectories_eq]

theorem ids_assignDirectories (p : Project) : (assignDirectories p).ids = (numbered p).ids := by
  rw [assignDirectories_eq]

/-- A directory that asks for its identifier, with that of the directory around it. -/
structure Request where
  index : Nat
  below : Option String
deriving DecidableEq

def Request.name (p : Project) (r : Request) : String :=
  hierarchicalName r.below (nodeAt p r.index).name

/-- The identifier that a request is given. -/
def servedId (p : Project) (s : Numbering) (r : Request) : String :=
  (directoryId p (chosenInstallDir p).1 r.index (nodeAt p r.index) r.below s).1

/-- The numbering behind a request. -/
def serve (p : Project) (s : Numbering) (r : Request) : Numbering :=
  let u := (directoryId p (chosenInstallDir p).1 r.index (nodeAt p r.index) r.below s).2
  { u with given := u.given ++ [(r.index, servedId p s r)] }

theorem given_serve (p : Project) (s : Numbering) (r : Request) :
    (serve p s r).given = s.given ++ [(r.index, servedId p s r)] := by
  rw [serve, given_directoryId]

theorem mem_given_serve_of_ne {p : Project} {s : Numbering} {r : Request} {i : Nat}
    (hi : i ≠ r.index) (id : String) : (i, id) ∈ (serve p s r).given ↔ (i, id) ∈ s.given := by
  rw [given_serve]
  simp [hi]

/-- What every request does to a numbering, and two rows of requests do together if each does, all
requests of a project do. -/
theorem numbered_run {p : Project} {R : Numbering → List Nat → Numbering → Prop}
    (hnil : ∀ s, R s [] s)
    (happend : ∀ {s t u is js}, R s is t → R t js u → R s (is ++ js) u)
    (hserve : ∀ s r, R s [r.index] (serve p s r)) :
    R { ids := startingIds p } (p.directories.outlines.flatMap Outline.walk) (numbered p) := by
  have hrun : (∀ o parent s, R s o.walk (number p (chosenInstallDir p).1 parent s o)) ∧
      ∀ os parent s, R s (os.flatMap Outline.walk)
        (number.numberAll p (chosenInstallDir p).1 parent s os) := by
    refine Outline.induction ?node ?nil ?cons
    case node =>
      intro i children ih parent s
      rw [Outline.walk_eq]
      exact happend (hserve s ⟨i, parent⟩) (ih _ _)
    case nil => exact fun _ s => hnil s
    case cons =>
      intro o os ho hos parent s
      rw [List.flatMap_cons]
      exact happend (ho parent s) (hos parent _)
  exact hrun.2 p.directories.outlines none _

/-- Every directory is numbered once, in the order of the walk. -/
theorem indexes_given (p : Project) :
    (assignDirectories p).given.map (·.1) = p.directories.outlines.flatMap Outline.walk := by
  rw [given_assignDirectories]
  refine numbered_run (R := fun s is u => u.given.map (·.1) = s.given.map (·.1) ++ is) ?_ ?_ ?_
  · exact fun _ => (List.append_nil _).symm
  · intro s t u is js hst htu
    rw [htu, hst, List.append_assoc]
  · intro s r
    rw [given_serve, List.map_append]
    rfl

/-- The identifier of a directory is the one that it was given. -/
theorem id_of_mem_given {p : Project} {g : Nat × String} (hg : g ∈ (assignDirectories p).given) :
    (assignDirectories p).id g.1 = g.2 := by
  have hnodup : ((assignDirectories p).given.map (·.1)).Nodup :=
    indexes_given p ▸ p.directories.nodup_walk_outlines
  unfold DirectoryIds.id
  cases hfind : (assignDirectories p).given.find? (·.1 == g.1) with
  | none => simpa using List.find?_eq_none.1 hfind g hg
  | some h =>
    have hindex : h.1 = g.1 := by simpa using List.find?_some hfind
    rw [List.inj_on_of_nodup_map hnodup (List.mem_of_find?_eq_some hfind) hg hindex]
    rfl

theorem given_eq_map (p : Project) : (assignDirectories p).given =
    (p.directories.outlines.flatMap Outline.walk).map fun i => (i, (assignDirectories p).id i) := by
  rw [← indexes_given, List.map_map]
  exact (List.map_id _).symm.trans
    (List.map_congr_left fun g hg => Prod.ext rfl (id_of_mem_given hg).symm)

/-- Where a directory has its identifier from. -/
inductive Origin where
  | installation
  | special (folder : String)
  | rooted
  | spelled
deriving DecidableEq

/-- Where a directory has its identifier from if its author gave none. -/
def origin (p : Project) (i : Nat) : Origin :=
  if (chosenInstallDir p).1 = some i then .installation
  else match specialFolder? (nodeAt p i).name with
    | some folder => .special folder
    | none =>
        if (nodeAt p i).parent.isNone && isRooted (nodeAt p i).name then .rooted else .spelled

theorem specialFolder?_of_origin {p : Project} {i : Nat} {folder : String}
    (h : origin p i = .special folder) : specialFolder? (nodeAt p i).name = some folder := by
  unfold origin at h
  split at h
  · simp at h
  · split at h
    · next hfolder => rw [hfolder, Origin.special.inj h]
    · split at h <;> simp at h

theorem chosenInstallDir_of_origin {p : Project} {i : Nat} (h : origin p i = .installation) :
    (chosenInstallDir p).1 = some i := by
  unfold origin at h
  split at h
  · next hchosen => exact hchosen
  · split at h
    · simp at h
    · split at h <;> simp at h

/-- The identifier of the k-th rooted path. -/
def rootedId (k : Nat) : String :=
  targetDirId ++ String.ofList (Text.decimal k)

theorem isPlain_reserved : IsPlain "INSTALLDIR".toList ∧ IsPlain targetDirId.toList := by
  decide

theorem rootedId_injective : Function.Injective rootedId := by
  intro j k h
  have hlist := congrArg String.toList h
  rw [rootedId, rootedId, String.toList_append, String.toList_append, String.toList_ofList,
    String.toList_ofList] at hlist
  exact Text.decimal_injective (List.append_cancel_left hlist)

theorem nodeAt_id {p : Project} (h : ∀ n ∈ p.directories.nodes, n.id = none) (i : Nat) :
    (nodeAt p i).id = none := by
  unfold nodeAt
  cases hn : p.directories.node? i with
  | none => rfl
  | some n => exact h n (List.mem_of_getElem? hn)

section requests

variable {p : Project} (hp : p.LeavesDirectoryIds)
include hp

/-- What a directory is given depends on where it has its identifier from. -/
theorem directoryId_eq (r : Request) (s : Numbering) :
    directoryId p (chosenInstallDir p).1 r.index (nodeAt p r.index) r.below s =
      match origin p r.index with
      | .installation => ("INSTALLDIR", s)
      | .special folder => (folder, s)
      | .rooted => (rootedId (s.rooted + 1), { s with rooted := s.rooted + 1 })
      | .spelled => ((s.ids.allocate .directory (r.name p)).1,
          { s with ids := (s.ids.allocate .directory (r.name p)).2 }) := by
  unfold directoryId origin
  rw [nodeAt_id hp.ids, hp.installDirId]
  by_cases hinstall : (chosenInstallDir p).1 = some r.index
  · simp [hinstall]
  · simp only [hinstall, if_false]
    cases specialFolder? (nodeAt p r.index).name with
    | some folder => rfl
    | none =>
      cases (nodeAt p r.index).parent.isNone && isRooted (nodeAt p r.index).name with
      | true => rfl
      | false => rfl

theorem isPlain_servedId (s : Numbering) (r : Request) : IsPlain (servedId p s r).toList := by
  rw [servedId, directoryId_eq hp]
  cases horigin : origin p r.index with
  | installation => exact isPlain_reserved.1
  | special folder =>
    exact isPlain_of_isFolderId (isFolderId_of_specialFolder? (specialFolder?_of_origin horigin))
  | rooted =>
    change IsPlain (rootedId (s.rooted + 1)).toList
    rw [rootedId, String.toList_append, String.toList_ofList]
    exact isPlain_reserved.2.append fun c hc => isPlain_of_isDigit (Text.isDigit_of_mem_decimal hc)
  | spelled => exact s.ids.isPlain_allocate .directory (r.name p)

/-- From `s` comes `u` by serving requests, one for each directory of some outlines in the order of
the walk. -/
structure Asks (p : Project) (parent : Option String) (s : Numbering) (os : List Outline)
    (rs : List Request) (u : Numbering) : Prop where
  run : rs.foldl (serve p) s = u
  indexes : rs.map (·.index) = os.flatMap Outline.walk
  roots : rs.filter (·.below.isNone) =
    if parent.isNone then os.map fun o => ⟨o.index, none⟩ else []
  plain : ∀ r ∈ rs, ∀ id, r.below = some id → IsPlain id.toList

theorem asks_number :
    (∀ o parent s, (∀ id, parent = some id → IsPlain id.toList) →
      ∃ rs, Asks p parent s [o] rs (number p (chosenInstallDir p).1 parent s o)) ∧
    ∀ os parent s, (∀ id, parent = some id → IsPlain id.toList) →
      ∃ rs, Asks p parent s os rs (number.numberAll p (chosenInstallDir p).1 parent s os) := by
  refine Outline.induction ?node ?nil ?cons
  case node =>
    intro i children ih parent s hparent
    let r : Request := ⟨i, parent⟩
    have hid : ∀ id, some (servedId p s r) = some id → IsPlain id.toList := by
      rintro id ⟨⟩
      exact isPlain_servedId hp s r
    obtain ⟨rs, hrs⟩ := ih (some (servedId p s r)) (serve p s r) hid
    refine ⟨r :: rs, ?_, ?_, ?_, ?_⟩
    · rw [List.foldl_cons, hrs.run, number]
      rfl
    · rw [List.map_cons, hrs.indexes, List.flatMap_singleton, Outline.walk_eq]
    · have hbelow : rs.filter (·.below.isNone) = [] := hrs.roots
      rw [List.filter_cons, hbelow]
      cases parent <;> rfl
    · exact List.forall_mem_cons.2 ⟨hparent, hrs.plain⟩
  case nil =>
    intro parent s _
    exact ⟨[], rfl, rfl, by simp, by simp⟩
  case cons =>
    intro o os ho hos parent s hparent
    obtain ⟨rs, hrs⟩ := ho parent s hparent
    obtain ⟨qs, hqs⟩ := hos parent (number p (chosenInstallDir p).1 parent s o) hparent
    refine ⟨rs ++ qs, ?_, ?_, ?_, ?_⟩
    · rw [List.foldl_append, hrs.run, hqs.run]
      rfl
    · rw [List.map_append, hrs.indexes, hqs.indexes]
      simp
    · rw [List.filter_append, hrs.roots, hqs.roots]
      cases parent <;> rfl
    · exact List.forall_mem_append.2 ⟨hrs.plain, hqs.plain⟩

end requests

/-- The directory asks the allocator for the identifier of a special folder, letter case aside. -/
def Request.asks (p : Project) (folder : String) (r : Request) : Bool :=
  origin p r.index = .spelled && Text.sameText (candidate .directory (r.name p)) folder

/-- An identifier has the form that goes with where it comes from. -/
def HasForm (p : Project) (s : Numbering) (g : Nat × String) : Prop :=
  match origin p g.1 with
  | .installation => g.2 = "INSTALLDIR"
  | .special folder => g.2 = folder
  | .rooted => ∃ k ≤ s.rooted, g.2 = rootedId k
  | .spelled => g.2 ∈ s.ids.taken ∧ IsSpelled g.2 ∧ g.2 ≠ targetDirId ∧ g.2 ≠ "INSTALLDIR"

/-- The origins that never give an identifier twice. -/
def Origin.isCounted : Origin → Bool
  | .rooted => true
  | .spelled => true
  | _ => false

/-- Identifiers are different where both come from one counted origin. -/
def Apart (p : Project) (g h : Nat × String) : Prop :=
  origin p g.1 = origin p h.1 → (origin p g.1).isCounted = true → g.2 ≠ h.2

instance (p : Project) : Std.Symm (Apart p) where
  symm _ _ h := fun horigin hcounted hid => h horigin.symm (horigin ▸ hcounted) hid.symm

/-- What is known of a numbering that served some requests. -/
structure Served (p : Project) (rs : List Request) (s : Numbering) : Prop where
  indexes : s.given.map (·.1) = rs.map (·.index)
  forms : ∀ g ∈ s.given, HasForm p s g
  apart : s.given.Pairwise (Apart p)
  reserved : targetDirId ∈ s.ids.taken ∧ "INSTALLDIR" ∈ s.ids.taken
  counted : ∀ folder, (s.ids.repeats? .directory (Text.fold folder)).isSome ↔
    (rs.find? (·.asks p folder)).isSome
  folders : ∀ folder, IsFolderId folder → folder ∈ s.ids.taken →
    (s.ids.repeats? .directory (Text.fold folder)).isSome
  owners : ∀ r ∈ rs, origin p r.index = .spelled → ∀ folder, IsFolderId folder →
    ((r.index, folder) ∈ s.given ↔
      rs.find? (·.asks p folder) = some r ∧ candidate .directory (r.name p) = folder)

section serve

variable {p : Project} (hp : p.LeavesDirectoryIds) {s : Numbering}
include hp

theorem ids_serve (r : Request) : (serve p s r).ids =
    if origin p r.index = .spelled then (s.ids.allocate .directory (r.name p)).2 else s.ids := by
  unfold serve
  rw [directoryId_eq hp]
  cases origin p r.index <;> rfl

theorem rooted_serve (r : Request) : (serve p s r).rooted =
    if origin p r.index = .rooted then s.rooted + 1 else s.rooted := by
  unfold serve
  rw [directoryId_eq hp]
  cases origin p r.index <;> rfl

theorem servedId_of_spelled {r : Request} (h : origin p r.index = .spelled) :
    servedId p s r = (s.ids.allocate .directory (r.name p)).1 := by
  rw [servedId, directoryId_eq hp, h]

theorem servedId_of_rooted {r : Request} (h : origin p r.index = .rooted) :
    servedId p s r = rootedId (s.rooted + 1) := by
  rw [servedId, directoryId_eq hp, h]

theorem taken_serve (r : Request) : ∀ id ∈ s.ids.taken, id ∈ (serve p s r).ids.taken := by
  intro id hid
  rw [ids_serve hp]
  split
  · rw [Allocator.taken_allocate]
    exact List.mem_cons_of_mem _ hid
  · exact hid

theorem hasForm_mono (r : Request) {g : Nat × String} (h : HasForm p s g) :
    HasForm p (serve p s r) g := by
  unfold HasForm at h ⊢
  split
  · next horigin => simpa [horigin] using h
  · next horigin => simpa [horigin] using h
  · next horigin =>
    simp only [horigin] at h
    obtain ⟨k, hk, hid⟩ := h
    refine ⟨k, ?_, hid⟩
    rw [rooted_serve hp]
    split <;> omega
  · next horigin =>
    simp only [horigin] at h
    exact ⟨taken_serve hp r _ h.1, h.2⟩

theorem hasForm_serve (r : Request) (hreserved : targetDirId ∈ s.ids.taken ∧
    "INSTALLDIR" ∈ s.ids.taken) : HasForm p (serve p s r) (r.index, servedId p s r) := by
  cases horigin : origin p r.index with
  | installation => simp [HasForm, horigin, servedId, directoryId_eq hp]
  | special folder => simp [HasForm, horigin, servedId, directoryId_eq hp]
  | rooted =>
    simp only [HasForm, horigin]
    exact ⟨s.rooted + 1, by simp [rooted_serve hp, horigin], servedId_of_rooted hp horigin⟩
  | spelled =>
    have hid := servedId_of_spelled hp (s := s) horigin
    have hnew : servedId p s r ∉ s.ids.taken := by
      rw [hid]
      exact s.ids.allocate_not_mem .directory (r.name p)
    simp only [HasForm, horigin]
    refine ⟨?_, ?_, fun h => hnew (h ▸ hreserved.1), fun h => hnew (h ▸ hreserved.2)⟩
    · rw [ids_serve hp, if_pos horigin, Allocator.taken_allocate, hid]
      exact List.mem_cons_self
    · rw [hid]
      exact s.ids.isSpelled_allocate .directory (r.name p)

/-- A counted identifier is new. -/
theorem servedId_ne {r : Request} {g : Nat × String} (hg : HasForm p s g)
    (horigin : origin p g.1 = origin p r.index) (hcounted : (origin p g.1).isCounted = true) :
    g.2 ≠ servedId p s r := by
  unfold HasForm at hg
  cases h : origin p g.1 with
  | installation => simp [h, Origin.isCounted] at hcounted
  | special folder => simp [h, Origin.isCounted] at hcounted
  | rooted =>
    simp only [h] at hg
    obtain ⟨k, hk, hid⟩ := hg
    rw [servedId_of_rooted hp (horigin ▸ h), hid]
    intro heq
    have := rootedId_injective heq
    omega
  | spelled =>
    simp only [h] at hg
    rw [servedId_of_spelled hp (horigin ▸ h)]
    intro heq
    exact s.ids.allocate_not_mem .directory (r.name p) (heq ▸ hg.1)

theorem isSome_repeats?_serve (r : Request) (folder : String) :
    ((serve p s r).ids.repeats? .directory (Text.fold folder)).isSome ↔
      (s.ids.repeats? .directory (Text.fold folder)).isSome ∨ r.asks p folder = true := by
  rw [ids_serve hp, Request.asks, Bool.and_eq_true, decide_eq_true_eq, Text.sameText_iff]
  split
  · next horigin =>
    rw [Allocator.isSome_repeats?_allocate]
    simp only [horigin, true_and]
    exact or_comm
  · next horigin => simp [horigin]

/-- Serving a request keeps up that a special folder whose identifier is in use was asked for. -/
theorem isSome_repeats?_of_mem_taken {r : Request} {folder : String} (hfolder : IsFolderId folder)
    (h : folder ∈ s.ids.taken → (s.ids.repeats? .directory (Text.fold folder)).isSome)
    (htaken : folder ∈ (serve p s r).ids.taken) :
    ((serve p s r).ids.repeats? .directory (Text.fold folder)).isSome := by
  rw [isSome_repeats?_serve hp]
  rw [ids_serve hp] at htaken
  split at htaken
  · next horigin =>
    rcases List.mem_cons.1 htaken with hid | htaken
    · obtain ⟨hcandidate, _⟩ :=
        (s.ids.allocate_eq_folder_iff hfolder .directory (r.name p)).1 hid.symm
      exact Or.inr (by simp [Request.asks, horigin, hcandidate, Text.sameText])
    · exact Or.inl (h htaken)
  · exact Or.inl (h htaken)

/-- A new request gets the identifier of a special folder by asking for it in the very letters, if
nobody has asked for the folder before. -/
theorem Served.mem_given_serve {rs : List Request} {r : Request} (h : Served p rs s)
    (hr : r.index ∉ rs.map (·.index)) (horigin : origin p r.index = .spelled) {folder : String}
    (hfolder : IsFolderId folder) : (r.index, folder) ∈ (Compile.serve p s r).given ↔
      rs.find? (·.asks p folder) = none ∧ candidate .directory (r.name p) = folder := by
  have hold : (r.index, folder) ∉ s.given := fun hmem =>
    hr (h.indexes ▸ List.mem_map_of_mem (f := (·.1)) hmem)
  have hgiven : (r.index, folder) ∈ (Compile.serve p s r).given ↔ servedId p s r = folder := by
    rw [given_serve]
    simp [hold, eq_comm]
  have hasked := h.counted folder
  rw [hgiven, servedId_of_spelled hp horigin,
    s.ids.allocate_eq_folder_iff hfolder .directory (r.name p)]
  constructor
  · rintro ⟨hcandidate, hrepeats, _⟩
    exact ⟨by simpa [hrepeats] using hasked, hcandidate⟩
  · rintro ⟨hnone, hcandidate⟩
    have hrepeats : s.ids.repeats? .directory (Text.fold folder) = none := by
      simpa [hnone] using hasked
    refine ⟨hcandidate, hrepeats, fun htaken => ?_⟩
    have hsome := h.folders folder hfolder htaken
    simp [hrepeats] at hsome

/-- Serving a request keeps up what is known of a numbering. -/
theorem Served.serve {rs : List Request} {r : Request} (h : Served p rs s)
    (hr : r.index ∉ rs.map (·.index)) : Served p (rs ++ [r]) (serve p s r) := by
  constructor
  case indexes => rw [given_serve, List.map_append, List.map_append, h.indexes]; rfl
  case forms =>
    rw [given_serve]
    refine List.forall_mem_append.2 ⟨fun g hg => hasForm_mono hp r (h.forms g hg), ?_⟩
    exact List.forall_mem_singleton.2 (hasForm_serve hp r h.reserved)
  case apart =>
    rw [given_serve]
    refine List.pairwise_append.2 ⟨h.apart, List.pairwise_singleton _ _, ?_⟩
    intro g hg k hk horigin hcounted
    rw [List.mem_singleton.1 hk] at horigin ⊢
    exact servedId_ne hp (h.forms g hg) horigin hcounted
  case reserved =>
    exact ⟨taken_serve hp r _ h.reserved.1, taken_serve hp r _ h.reserved.2⟩
  case counted =>
    intro folder
    rw [isSome_repeats?_serve hp, h.counted, List.find?_append, Option.isSome_or,
      Bool.or_eq_true, List.find?_singleton]
    cases r.asks p folder <;> simp
  case folders =>
    intro folder hfolder
    exact isSome_repeats?_of_mem_taken hp hfolder (h.folders folder hfolder)
  case owners =>
    intro q hq horigin folder hfolder
    rw [List.find?_append]
    rcases List.mem_append.1 hq with hq | hq
    · -- An earlier request: the new one is another.
      have hne : q.index ≠ r.index := fun heq => hr (heq ▸ List.mem_map_of_mem hq)
      rw [mem_given_serve_of_ne hne, h.owners q hq horigin folder hfolder]
      cases hfind : rs.find? (·.asks p folder) with
      | some x => rfl
      | none =>
        have hother : r ≠ q := fun heq => hne (by rw [heq])
        simp [hother]
    · -- The new request: nobody may have asked for the folder before.
      obtain rfl := List.mem_singleton.1 hq
      rw [h.mem_given_serve hp hr horigin hfolder]
      refine and_congr_left fun hcandidate => ?_
      have hasks : q.asks p folder = true := by
        simp [Request.asks, horigin, hcandidate, Text.sameText]
      cases hfind : rs.find? (·.asks p folder) with
      | none => simp [hasks]
      | some x =>
        have hother : x ≠ q := fun heq =>
          hr (heq ▸ List.mem_map_of_mem (List.mem_of_find?_eq_some hfind))
        simp [hother]

/-- What is known of a numbering is known behind all requests. -/
theorem Served.run {rs : List Request} (h : Served p [] s) (hrs : (rs.map (·.index)).Nodup) :
    Served p rs (rs.foldl (Compile.serve p) s) := by
  induction rs using List.reverseRecOn with
  | nil => exact h
  | append_singleton rs r ih =>
    rw [List.map_append, List.nodup_append'] at hrs
    obtain ⟨hfront, _, hdisjoint⟩ := hrs
    rw [List.foldl_append]
    exact (ih hfront).serve hp fun hr => hdisjoint hr (by simp)

/-- Nothing has been asked for where the numbering starts. -/
theorem served_start : Served p [] { ids := startingIds p } := by
  have htaken : (startingIds p).taken = ["INSTALLDIR", targetDirId] := by
    unfold startingIds
    rw [hp.installDirId]
    rfl
  have hcounters : (startingIds p).counters = [] := by
    unfold startingIds
    rw [hp.installDirId]
    rfl
  refine ⟨rfl, by simp, .nil, by simp [htaken], ?_, ?_, by simp⟩
  · intro folder
    simp [Allocator.repeats?, hcounters]
  · intro folder hfolder hmem
    obtain ⟨f, hf, rfl⟩ := hfolder
    obtain ⟨_, _, _, htarget, hinstall⟩ := folder_spec f hf
    rw [htaken, List.mem_cons, List.mem_singleton] at hmem
    rcases hmem with hmem | hmem
    · exact absurd hmem hinstall
    · rw [hmem] at htarget
      exact absurd htarget (by decide)

end serve

end Compile

end Installer
