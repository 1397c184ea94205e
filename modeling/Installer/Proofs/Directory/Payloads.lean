import Installer.Proofs.Directory.Growth
import Mathlib.Data.List.Perm.Basic

/-!
# What declarations put where

A payload is one thing to install or to do: a file, a shortcut or a setting. A declaration gives
each of its payloads a trail, the segments of the paths of all declarations around it. Adding a
declaration puts every payload on the node to which its trail leads, and loses and doubles none.
-/
namespace Installer

/-- What a directory can hold besides directories. -/
inductive Payload where
  | file (f : File)
  | shortcut (s : Shortcut)
  | setting (s : Setting)
deriving DecidableEq

/-- A payload with the segments of all paths declared around it. Without any, it belongs to the
product as a whole. -/
structure Site where
  trail : List String
  payload : Payload
deriving DecidableEq

namespace Directory

/-- The payloads that an item brings itself. -/
def ItemOf.payloads {Folder : Type} : ItemOf Folder → List Payload
  | .file f => [.file f]
  | .files s => s.files.map .file
  | .shortcut s => [.shortcut s]
  | .setting s => [.setting s]
  | _ => []

/-- The payloads of a declaration, those of nested declarations behind their paths. -/
def Declaration.sites : Declaration → List Site
  | ⟨path, _, _, _, _, items⟩ =>
      (sitesAmong items).map fun s => ⟨segments path ++ s.trail, s.payload⟩
where
  sitesAmong : List (ItemOf Declaration) → List Site
    | [] => []
    | .directory d :: items => d.sites ++ sitesAmong items
    | item :: items => item.payloads.map (⟨[], ·⟩) ++ sitesAmong items

/-- The path of the declaration and those of all declarations in it are nonempty. -/
def Declaration.hasPaths : Declaration → Bool
  | ⟨path, _, _, _, _, items⟩ => path != "" && pathsAmong items
where
  pathsAmong : List (ItemOf Declaration) → Bool
    | [] => true
    | .directory d :: items => d.hasPaths && pathsAmong items
    | _ :: items => pathsAmong items

/-- Declarations and rows of items, by what they are made of. -/
theorem Declaration.induction {motive : Declaration → Prop}
    {row : List (ItemOf Declaration) → Prop}
    (declaration : ∀ path id features attributes installDir items, row items →
      motive ⟨path, id, features, attributes, installDir, items⟩)
    (nil : row [])
    (directory : ∀ d items, motive d → row items → row (.directory d :: items))
    (other : ∀ (item : ItemOf Declaration) items, (∀ d, item ≠ .directory d) → row items →
      row (item :: items)) :
    (∀ d, motive d) ∧ ∀ items, row items := by
  have hd : ∀ d, motive d :=
    @Declaration.rec motive row (fun item => ∀ d, item = .directory d → motive d)
      declaration nil
      (fun item items hitem hitems => by
        cases item with
        | directory d => exact directory d items (hitem d rfl) hitems
        | _ => exact other _ items (by simp) hitems)
      (fun d hd e h => by cases h; exact hd)
      (by simp) (by simp) (by simp) (by simp) (by simp) (by simp) (by simp) (by simp)
  refine ⟨hd, fun items => ?_⟩
  induction items with
  | nil => exact nil
  | cons item items ih =>
    cases item with
    | directory d => exact directory d items (hd d) ih
    | _ => exact other _ items (by simp) ih

section other

variable {item : ItemOf Declaration} (h : ∀ d, item ≠ .directory d)
  (items : List (ItemOf Declaration))
include h

theorem Declaration.sitesAmong_cons : sites.sitesAmong (item :: items) =
    item.payloads.map (⟨[], ·⟩) ++ sites.sitesAmong items := by
  cases item with
  | directory d => exact absurd rfl (h d)
  | _ => rfl

theorem Declaration.pathsAmong_cons :
    hasPaths.pathsAmong (item :: items) = hasPaths.pathsAmong items := by
  cases item with
  | directory d => exact absurd rfl (h d)
  | _ => rfl

theorem Tree.declareItems_cons (t : Tree) (i : Nat) : declare.declareItems t i (item :: items) =
    declare.declareItems (t.modify i (hold · item)) i items := by
  cases item with
  | directory d => exact absurd rfl (h d)
  | _ => rfl

end other

/-- The payloads of a node, in the order in which they are written. -/
def Node.payloads (n : Node) : List Payload :=
  n.files.map .file ++ n.fileSets.flatMap (·.files.map .file) ++ n.shortcuts.map .shortcut ++
    n.settings.map .setting

namespace Tree

/-- The payloads of nodes that are numbered from `k` on, each with the number of its node. -/
def payloadsFrom (k : Nat) : List Node → List (Option Nat × Payload)
  | [] => []
  | n :: ns => n.payloads.map (some k, ·) ++ payloadsFrom (k + 1) ns

def payloads (t : Tree) : List (Option Nat × Payload) :=
  payloadsFrom 0 t.nodes

theorem payloadsFrom_append (k : Nat) (ns ms : List Node) :
    payloadsFrom k (ns ++ ms) = payloadsFrom k ns ++ payloadsFrom (k + ns.length) ms := by
  induction ns generalizing k with
  | nil => simp [payloadsFrom]
  | cons n ns ih =>
    rw [List.cons_append, payloadsFrom, ih, payloadsFrom, List.append_assoc, List.length_cons]
    congr 3
    omega

theorem payloadsFrom_eq_nil {k : Nat} {ns : List Node} (h : ∀ n ∈ ns, n.payloads = []) :
    payloadsFrom k ns = [] := by
  induction ns generalizing k with
  | nil => rfl
  | cons n ns ih =>
    rw [payloadsFrom, h n (by simp), ih fun m hm => h m (by simp [hm])]
    rfl

theorem payloadsFrom_modify {f : Node → Node} {ps : List Payload}
    (hf : ∀ n, (f n).payloads.Perm (n.payloads ++ ps)) {ns : List Node} {i : Nat}
    (hi : i < ns.length) (k : Nat) :
    (payloadsFrom k (ns.modify i f)).Perm (payloadsFrom k ns ++ ps.map (some (k + i), ·)) := by
  induction ns generalizing i k with
  | nil => simp at hi
  | cons n ns ih =>
    cases i with
    | zero =>
      rw [List.modify_zero_cons, payloadsFrom, payloadsFrom]
      have hn := ((hf n).map ((some k, ·) : Payload → Option Nat × Payload)).append_right
        (payloadsFrom (k + 1) ns)
      refine hn.trans ?_
      rw [List.map_append, List.append_assoc, List.append_assoc]
      exact List.perm_append_comm.append_left _
    | succ i =>
      rw [List.modify_succ_cons, payloadsFrom, payloadsFrom, List.append_assoc]
      have hrest := ih (i := i) (by simpa using hi) (k + 1)
      rw [show k + 1 + i = k + (i + 1) by omega] at hrest
      exact hrest.append_left _

theorem payloads_modify (t : Tree) {i : Nat} (hi : i < t.size) {f : Node → Node}
    {ps : List Payload} (hf : ∀ n, (f n).payloads.Perm (n.payloads ++ ps)) :
    (t.modify i f).payloads.Perm (t.payloads ++ ps.map (some i, ·)) := by
  have h := payloadsFrom_modify hf hi 0
  rwa [Nat.zero_add] at h

theorem payloads_modify_of_eq (t : Tree) (i : Nat) {f : Node → Node}
    (hf : ∀ n, (f n).payloads = n.payloads) : (t.modify i f).payloads = t.payloads := by
  have hfrom : ∀ (ns : List Node) (i k : Nat),
      payloadsFrom k (ns.modify i f) = payloadsFrom k ns := by
    intro ns
    induction ns with
    | nil => intro i k; rw [List.modify_nil]
    | cons n ns ih =>
      intro i k
      cases i with
      | zero => rw [List.modify_zero_cons, payloadsFrom, payloadsFrom, hf]
      | succ i => rw [List.modify_succ_cons, payloadsFrom, payloadsFrom, ih]
  exact hfrom t.nodes i 0

/-- An item that is no directory brings its payloads and nothing else. -/
theorem payloads_hold (n : Node) (item : Item) :
    (hold n item).payloads.Perm (n.payloads ++ item.payloads) := by
  rw [List.perm_iff_count]
  intro q
  cases item with
  | directory | feature | property | media | dialog => simp [hold, ItemOf.payloads]
  | file | files | shortcut | setting =>
    simp only [hold, Node.payloads, ItemOf.payloads, List.map_append, List.flatMap_append,
      List.count_append, List.map_cons, List.map_nil, List.flatMap_cons, List.flatMap_nil,
      List.append_nil]
    omega

/-- Where a trail leads from `parent`: an empty one stays there. -/
def arrive? (t : Tree) (parent : Option Nat) (ss : List String) : Option Nat :=
  if ss = [] then parent else t.lead? parent ss

theorem arrive?_append {t : Tree} {parent : Option Nat} {ss : List String} {i : Nat}
    (hi : t.lead? parent ss = some i) (ts : List String) :
    t.arrive? parent (ss ++ ts) = t.arrive? (some i) ts := by
  have hss : ss ≠ [] := ne_nil_of_lead? hi
  by_cases hts : ts = []
  · simp [arrive?, hts, hss, hi]
  · simp [arrive?, hts, hss, lead?_append hi hts]

/-- From `t` comes `u` by putting each payload where its trail leads from `parent`. -/
structure Receives (t : Tree) (parent : Option Nat) (sites : List Site) (u : Tree) : Prop where
  grows : t.skeleton <+: u.skeleton
  founded : Founded u
  leads : ∀ s ∈ sites, s.trail ≠ [] → (u.lead? parent s.trail).isSome
  payloads : u.payloads.Perm
    (t.payloads ++ sites.map fun s => (u.arrive? parent s.trail, s.payload))

namespace Receives

variable {t u v : Tree} {parent : Option Nat} {xs ys : List Site}

theorem of_same (ht : Founded t) (parent : Option Nat) (hs : u.skeleton = t.skeleton)
    (hp : u.payloads = t.payloads) : Receives t parent [] u where
  grows := by rw [hs]
  founded := ht.congr hs
  leads := by simp
  payloads := by simp [hp]

/-- What has arrived stays where it is. -/
theorem arrive?_mono (h : Receives t parent xs u) (huv : u.skeleton <+: v.skeleton) {s : Site}
    (hs : s ∈ xs) : v.arrive? parent s.trail = u.arrive? parent s.trail := by
  by_cases htrail : s.trail = []
  · simp [arrive?, htrail]
  · obtain ⟨i, hi⟩ := Option.isSome_iff_exists.1 (h.leads s hs htrail)
    simp [arrive?, htrail, hi, lead?_mono huv hi]

theorem trans (h : Receives t parent xs u) (h' : Receives u parent ys v) :
    Receives t parent (xs ++ ys) v where
  grows := h.grows.trans h'.grows
  founded := h'.founded
  leads := by
    intro s hs htrail
    rcases List.mem_append.1 hs with hs | hs
    · obtain ⟨i, hi⟩ := Option.isSome_iff_exists.1 (h.leads s hs htrail)
      rw [lead?_mono h'.grows hi]
      rfl
    · exact h'.leads s hs htrail
  payloads := by
    have hxs : xs.map (fun s => (v.arrive? parent s.trail, s.payload)) =
        xs.map fun s => (u.arrive? parent s.trail, s.payload) :=
      List.map_congr_left fun s hs => by rw [h.arrive?_mono h'.grows hs]
    rw [List.map_append, hxs, ← List.append_assoc]
    exact h'.payloads.trans (h.payloads.append_right _)

/-- What a directory receives, its parent receives behind the way to the directory. -/
theorem under {ss : List String} {i : Nat} (h : Receives t (some i) xs u)
    (hi : t.lead? parent ss = some i) :
    Receives t parent (xs.map fun s => ⟨ss ++ s.trail, s.payload⟩) u where
  grows := h.grows
  founded := h.founded
  leads := by
    intro s hs _
    obtain ⟨r, hr, rfl⟩ := List.mem_map.1 hs
    have hu := lead?_mono h.grows hi
    by_cases htrail : r.trail = []
    · simp [htrail, hu]
    · rw [lead?_append hu htrail]
      exact h.leads r hr htrail
  payloads := by
    have hu := lead?_mono h.grows hi
    simpa [Function.comp_def, arrive?_append hu] using h.payloads

/-- An item that is no directory is received where it is put. -/
theorem hold (ht : Founded t) {i : Nat} (hi : i < t.size) (item : Item) :
    Receives t (some i) (item.payloads.map (⟨[], ·⟩)) (t.modify i (Tree.hold · item)) where
  grows := by
    rw [skeleton_hold]
  founded := ht.congr (skeleton_hold t i item)
  leads := by
    intro s hs htrail
    obtain ⟨q, _, rfl⟩ := List.mem_map.1 hs
    exact absurd rfl htrail
  payloads := by
    simpa [Function.comp_def, arrive?] using payloads_modify t hi fun n => payloads_hold n item

theorem overlay (ht : Founded t) (hp : t.Holds parent) {path : String} (features : List String)
    (hpath : segments path ≠ []) :
    Receives t parent [] (t.overlay parent path features).tree where
  grows := (overlay_leads ht hp features hpath).1
  founded := ht.overlay hp features hpath
  leads := by simp
  payloads := by
    obtain ⟨i, _, hm⟩ | ⟨ys, s, ss, _, _, _, hm⟩ := overlay_cases t parent features hpath
    · rw [hm]
      simp [payloads_modify_of_eq t i (f := (·.addFeatures features)) fun n => rfl]
    · have hnone : ∀ n ∈ chainNodes t.size ((t.lead? parent ys).or parent) features s ss,
          n.payloads = [] := by
        intro n hn
        obtain ⟨name, above, continues, rfl⟩ := mem_chainNodes hn
        rfl
      rw [hm]
      simp [Tree.payloads, payloadsFrom_append, payloadsFrom_eq_nil hnone]

theorem giveAttributes (m : Overlay) (hm : Founded m.tree) (parent : Option Nat)
    (attributes : Schema.Attributes) : Receives m.tree parent [] (giveAttributes m attributes) := by
  refine of_same hm parent (skeleton_giveAttributes m attributes) ?_
  unfold Tree.giveAttributes
  cases m.head with
  | none => exact payloads_modify_of_eq _ _ fun _ => rfl
  | some head => exact payloads_modify_of_eq _ _ fun _ => rfl

theorem mark (ht : Founded t) (parent : Option Nat) (i : Nat) (id : Option String)
    (installDir : Bool) : Receives t parent [] (t.mark i id installDir) :=
  of_same ht parent (skeleton_mark t i id installDir) (payloads_modify_of_eq _ _ fun _ => rfl)

end Receives

/-- A declaration with its items is received below the parent, items in their directory. -/
theorem receives_declare_and_items :
    (∀ d : Declaration, ∀ (t : Tree) (parent : Option Nat), d.hasPaths = true → Founded t →
      t.Holds parent → Receives t parent d.sites (t.declare parent d).2) ∧
    ∀ items : List (ItemOf Declaration), ∀ (t : Tree) (i : Nat),
      Declaration.hasPaths.pathsAmong items = true → Founded t → i < t.size →
      Receives t (some i) (Declaration.sites.sitesAmong items)
        (declare.declareItems t i items) := by
  refine Declaration.induction ?declaration ?nil ?directory ?other
  case declaration =>
    intro path id features attributes installDir items ih t parent hpaths ht hp
    rw [Declaration.hasPaths, Bool.and_eq_true, bne_iff_ne] at hpaths
    have hpath := segments_ne_nil hpaths.1
    let m := t.overlay parent path features
    have hm : Receives t parent [] m.tree := .overlay ht hp features hpath
    have hgiven : Receives t parent [] (giveAttributes m attributes) :=
      hm.trans (.giveAttributes m hm.founded parent attributes)
    have hmarked : Receives t parent [] ((giveAttributes m attributes).mark m.leaf id installDir) :=
      hgiven.trans (.mark hgiven.founded parent m.leaf id installDir)
    have hleads : ((giveAttributes m attributes).mark m.leaf id installDir).lead? parent
        (segments path) = some m.leaf := by
      refine lead?_mono ?_ (overlay_leads ht hp features hpath).2
      exact (Receives.giveAttributes m hm.founded parent attributes).grows.trans
        (Receives.mark hgiven.founded parent m.leaf id installDir).grows
    exact hmarked.trans ((ih _ m.leaf hpaths.2 hmarked.founded (lead?_lt hleads)).under hleads)
  case nil =>
    intro t i _ ht _
    exact .of_same ht _ rfl rfl
  case directory =>
    intro d items hd hitems t i hpaths ht hi
    rw [Declaration.hasPaths.pathsAmong, Bool.and_eq_true] at hpaths
    have hfirst := hd t (some i) hpaths.1 ht (holds_some_iff.2 hi)
    have hsize : t.size ≤ (t.declare (some i) d).2.size := by
      simpa using hfirst.grows.length_le
    exact hfirst.trans (hitems _ i hpaths.2 hfirst.founded (by omega))
  case other =>
    intro item items hitem ih t i hpaths ht hi
    have hfirst := Receives.hold ht hi item
    rw [Declaration.pathsAmong_cons hitem] at hpaths
    rw [Declaration.sitesAmong_cons hitem, declareItems_cons hitem]
    exact hfirst.trans (ih _ i hpaths hfirst.founded (by rwa [size_modify]))

/-- A declaration puts its payloads where their trails lead, and nothing else anywhere. -/
theorem receives_declare {t : Tree} (ht : Founded t) {parent : Option Nat} (hp : t.Holds parent)
    {d : Declaration} (hd : d.hasPaths = true) :
    Receives t parent d.sites (t.declare parent d).2 :=
  receives_declare_and_items.1 d t parent hd ht hp

end Tree

end Directory

end Installer
