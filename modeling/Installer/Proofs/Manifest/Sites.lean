import Installer.Manifest.Basic
import Installer.Proofs.Directory.Payloads

/-!
# What a manifest declares where

A manifest gives each of its payloads a trail, as a declaration does. The project of a manifest
holds every payload where its trail leads, and those without a trail among the product's own
settings.
-/
namespace Installer
open Schema Directory

namespace Manifest

/-- The payloads that an item of a manifest brings itself. -/
def ItemOf.payloads : ItemOf Folder → List Payload
  | .directory _ => []
  | .file f => [.file f]
  | .files s => s.files.map fun source => .file { source }
  | .shortcut s => [.shortcut s]
  | .registry r => [.setting (.registry r)]
  | .environment v => [.setting (.environment v)]
  | .closeApplication c => [.setting (.closeApplication c.toCloseApplication)]

/-- The payloads of a directory of a manifest, those of nested directories behind their paths. -/
def Folder.sites : Folder → List Site
  | ⟨path, _, _, _, _, items⟩ =>
      (sitesAmong items).map fun s => ⟨segments path ++ s.trail, s.payload⟩
where
  sitesAmong : List (ItemOf Folder) → List Site
    | [] => []
    | .directory d :: items => d.sites ++ sitesAmong items
    | item :: items => item.payloads.map (⟨[], ·⟩) ++ sitesAmong items

def sites (m : Manifest) : List Site :=
  Folder.sites.sitesAmong m.items

/-- The path of a directory and those of all directories in it are nonempty. -/
def Folder.hasPaths : Folder → Bool
  | ⟨path, _, _, _, _, items⟩ => path != "" && pathsAmong items
where
  pathsAmong : List (ItemOf Folder) → Bool
    | [] => true
    | .directory d :: items => d.hasPaths && pathsAmong items
    | _ :: items => pathsAmong items

/-- All paths in a manifest are nonempty. -/
def hasPaths (m : Manifest) : Bool :=
  Folder.hasPaths.pathsAmong m.items

/-- Directories of a manifest and rows of items, by what they are made of. -/
theorem Folder.induction {motive : Folder → Prop} {row : List (ItemOf Folder) → Prop}
    (folder : ∀ path id features installDir attributes items, row items →
      motive ⟨path, id, features, installDir, attributes, items⟩)
    (nil : row []) (directory : ∀ d items, motive d → row items → row (.directory d :: items))
    (other : ∀ (item : ItemOf Folder) items, (∀ d, item ≠ .directory d) → row items →
      row (item :: items)) :
    (∀ d, motive d) ∧ ∀ items, row items := by
  have hd : ∀ d, motive d :=
    @Folder.rec motive row (fun item => ∀ d, item = .directory d → motive d)
      folder nil
      (fun item items hitem hitems => by
        cases item with
        | directory d => exact directory d items (hitem d rfl) hitems
        | _ => exact other _ items (by simp) hitems)
      (fun d hd e h => by cases h; exact hd)
      (by simp) (by simp) (by simp) (by simp) (by simp) (by simp)
  refine ⟨hd, fun items => ?_⟩
  induction items with
  | nil => exact nil
  | cons item items ih =>
    cases item with
    | directory d => exact directory d items (hd d) ih
    | _ => exact other _ items (by simp) ih

/-- A directory of a manifest declares what its declaration declares. -/
theorem toDeclaration_spec :
    (∀ d : Folder, d.toDeclaration.sites = d.sites ∧ d.toDeclaration.hasPaths = d.hasPaths) ∧
    ∀ items, Declaration.sites.sitesAmong (Folder.toDeclaration.toItems items) =
        Folder.sites.sitesAmong items ∧
      Declaration.hasPaths.pathsAmong (Folder.toDeclaration.toItems items) =
        Folder.hasPaths.pathsAmong items := by
  refine Folder.induction ?folder ?nil ?directory ?other
  case folder =>
    intro path id features installDir attributes items ih
    rw [Folder.toDeclaration, Declaration.sites, Folder.sites, Declaration.hasPaths,
      Folder.hasPaths, ih.1, ih.2]
    exact ⟨rfl, rfl⟩
  case nil => exact ⟨rfl, rfl⟩
  case directory =>
    intro d items hd hitems
    rw [Folder.toDeclaration.toItems, Declaration.sites.sitesAmong, Folder.sites.sitesAmong,
      Declaration.hasPaths.pathsAmong, Folder.hasPaths.pathsAmong, hd.1, hd.2, hitems.1, hitems.2]
    exact ⟨rfl, rfl⟩
  case other =>
    intro item items hitem ih
    cases item with
    | directory d => exact absurd rfl (hitem d)
    | files s =>
      refine ⟨?_, ih.2⟩
      rw [Folder.toDeclaration.toItems, Declaration.sites.sitesAmong, Folder.sites.sitesAmong,
        ih.1]
      · simp [Directory.ItemOf.payloads, ItemOf.payloads, Files.toFileSet, Function.comp_def]
      · simp
      · simp
    | _ =>
      refine ⟨?_, ih.2⟩
      exact congrArg _ ih.1

end Manifest

namespace Project

/-- The payloads of a project, each with the number of the node that holds it. The product's own
settings have no node. -/
def held (p : Project) : List (Option Nat × Payload) :=
  p.directories.payloads ++ p.settings.map fun s => (none, Payload.setting s)

/-- A project holds payloads where their trails lead. -/
structure Gathers (p : Project) (sites : List Site) : Prop where
  founded : Tree.Founded p.directories
  leads : ∀ s ∈ sites, s.trail ≠ [] → (p.directories.lead? none s.trail).isSome
  held : p.held.Perm (sites.map fun s => (p.directories.arrive? none s.trail, s.payload))

variable {p u : Project} {sites : List Site}

/-- What a directory declares for the tree, it declares for the project. -/
theorem Gathers.declare (hp : p.Gathers sites) {d : Declaration} (hd : d.hasPaths = true) :
    Gathers { p with directories := (p.directories.declare none d).2 } (sites ++ d.sites) := by
  have hreceives := Tree.receives_declare hp.founded (Tree.holds_none _) hd
  constructor
  · exact hreceives.founded
  · intro s hs htrail
    rcases List.mem_append.1 hs with hs | hs
    · obtain ⟨i, hi⟩ := Option.isSome_iff_exists.1 (hp.leads s hs htrail)
      exact Option.isSome_iff_exists.2 ⟨i, Tree.lead?_mono hreceives.grows hi⟩
    · exact hreceives.leads s hs htrail
  · -- What was there stays where it is.
    have hold : sites.map (fun s =>
        ((p.directories.declare none d).2.arrive? none s.trail, s.payload)) =
        sites.map fun s => (p.directories.arrive? none s.trail, s.payload) := by
      refine List.map_congr_left fun s hs => ?_
      by_cases htrail : s.trail = []
      · simp [Tree.arrive?, htrail]
      · obtain ⟨i, hi⟩ := Option.isSome_iff_exists.1 (hp.leads s hs htrail)
        simp [Tree.arrive?, htrail, hi, Tree.lead?_mono hreceives.grows hi]
    rw [List.map_append, hold]
    refine (hreceives.payloads.append_right _).trans ?_
    rw [List.append_assoc]
    refine (List.perm_append_comm.append_left _).trans ?_
    rw [← List.append_assoc]
    exact hp.held.append_right _

/-- A setting of the product has no trail. -/
theorem Gathers.setting (hp : p.Gathers sites) (s : Setting) :
    Gathers { p with settings := p.settings ++ [s] } (sites ++ [⟨[], .setting s⟩]) := by
  constructor
  · exact hp.founded
  · intro r hr htrail
    rcases List.mem_append.1 hr with hr | hr
    · exact hp.leads r hr htrail
    · rw [List.mem_singleton.1 hr] at htrail
      exact absurd rfl htrail
  · have hlast : p.directories.arrive? none [] = none := rfl
    rw [List.map_append, List.map_singleton, hlast, Project.held, List.map_append,
      ← List.append_assoc]
    exact hp.held.append_right _

/-- What adding an item can do: declare a directory, append a setting, or leave both alone. -/
theorem add_cases {item : Directory.Item} (h : p.add item = .ok u) :
    (∃ d, item = .directory d ∧ u = { p with directories := (p.directories.declare none d).2 }) ∨
    (∃ s, item = .setting s ∧ u = { p with settings := p.settings ++ [s] }) ∨
    ((∀ d, item ≠ .directory d) ∧ item.payloads = [] ∧ u.directories = p.directories ∧
      u.settings = p.settings) := by
  cases item with
  | directory d =>
    cases hm : d.misplaced? with
    | some e =>
      simp [Project.add, addDirectory, Tree.add, hm, bind, Except.bind, Except.map] at h
    | none =>
      have hu : { p with directories := (p.directories.declare none d).2 } = u := by
        simpa [Project.add, addDirectory, Tree.add, hm, bind, Except.bind, Except.map, pure,
          Except.pure] using h
      exact Or.inl ⟨d, rfl, hu.symm⟩
  | setting s => exact Or.inr (Or.inl ⟨s, rfl, (Except.ok.inj h).symm⟩)
  | feature f | property q | media m | dialog d =>
    obtain rfl := Except.ok.inj h
    exact Or.inr (Or.inr ⟨by simp, rfl, rfl, rfl⟩)
  | file f | files s | shortcut s => simp [Project.add] at h

/-- Items added to a project are gathered one after the other. -/
theorem gathers_addAll {items : List Directory.Item} (hp : p.Gathers sites)
    (hpaths : Declaration.hasPaths.pathsAmong items = true) (h : p.addAll items = .ok u) :
    u.Gathers (sites ++ Declaration.sites.sitesAmong items) := by
  induction items generalizing p sites with
  | nil =>
    obtain rfl : p = u := by simpa [addAll, pure, Except.pure] using h
    simpa [Declaration.sites.sitesAmong] using hp
  | cons item items ih =>
    rw [addAll, List.foldlM_cons] at h
    cases hadd : p.add item with
    | error e => simp [hadd, bind, Except.bind] at h
    | ok v =>
      rw [hadd] at h
      obtain ⟨d, rfl, rfl⟩ | ⟨s, rfl, rfl⟩ | ⟨hitem, hnone, hdirectories, hsettings⟩ :=
        add_cases hadd
      · rw [Declaration.hasPaths.pathsAmong, Bool.and_eq_true] at hpaths
        have hrest := ih (hp.declare hpaths.1) hpaths.2 h
        rwa [List.append_assoc] at hrest
      · have hrest := ih (hp.setting s) hpaths h
        rwa [List.append_assoc] at hrest
      · have hv : v.Gathers sites := by
          constructor
          · rw [hdirectories]
            exact hp.founded
          · rw [hdirectories]
            exact hp.leads
          · rw [held, hdirectories, hsettings]
            exact hp.held
        rw [Declaration.pathsAmong_cons hitem] at hpaths
        rw [Declaration.sitesAmong_cons hitem, hnone]
        exact ih hv hpaths h

end Project

/-- A manifest becomes a project by adding its items to an empty one, after the check. -/
theorem Manifest.toProject_eq_ok {m : Manifest} {p : Project} (h : m.toProject = .ok p) :
    m.validate = .ok () ∧ ∃ version u,
      (m.emptyProject version).addAll (Folder.toDeclaration.toItems m.items) = .ok u ∧
        { u with ui := m.ui.map Ui.toInterface } = p := by
  unfold Manifest.toProject at h
  cases hvalid : m.validate with
  | error e => simp [hvalid, bind, Except.bind] at h
  | ok _ =>
    cases hversion : Version.parse m.product.version with
    | error e => simp [hvalid, hversion, bind, Except.bind, Except.mapError] at h
    | ok version =>
      cases hadd : (m.emptyProject version).addAll (Folder.toDeclaration.toItems m.items) with
      | error e => simp [hvalid, hversion, hadd, bind, Except.bind, Except.mapError] at h
      | ok u =>
        refine ⟨rfl, version, u, hadd, ?_⟩
        simpa [hvalid, hversion, hadd, bind, Except.bind, Except.mapError, pure,
          Except.pure] using h

/-- The project of a manifest holds every payload where its trail leads. -/
theorem Manifest.gathers_toProject {m : Manifest} {p : Project} (hpaths : m.hasPaths = true)
    (h : m.toProject = .ok p) : p.Gathers m.sites := by
  obtain ⟨_, version, u, hadd, rfl⟩ := Manifest.toProject_eq_ok h
  have hempty : (m.emptyProject version).Gathers [] :=
    ⟨Tree.founded_empty, by simp, .nil⟩
  obtain ⟨hsites, hsame⟩ := toDeclaration_spec.2 m.items
  have hgathers := Project.gathers_addAll hempty (hsame ▸ hpaths) hadd
  rw [hsites, List.nil_append] at hgathers
  exact ⟨hgathers.founded, hgathers.leads, hgathers.held⟩

end Installer
