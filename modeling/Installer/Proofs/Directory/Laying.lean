import Installer.Proofs.Directory.Payloads
import Installer.Proofs.Directory.Trails

/-!
# Laying paths

A path that is laid over a tree makes exactly the directories of its leading rows of segments that
are not there yet, and a declaration lays its own path and, below that, the paths declared in it.
Two siblings never get names of one directory, since a chain is made only where no child has the
name of its first segment. So they have none after any run of calls.
-/
namespace Installer.Directory

/-- The rows of segments of a declaration's paths, those of nested declarations behind its own. -/
def Declaration.trails : Declaration → List (List String)
  | ⟨path, _, _, _, _, items⟩ => segments path :: (trailsAmong items).map (segments path ++ ·)
where
  trailsAmong : List (ItemOf Declaration) → List (List String)
    | [] => []
    | .directory d :: items => d.trails ++ trailsAmong items
    | _ :: items => trailsAmong items

theorem Declaration.trailsAmong_cons {item : ItemOf Declaration} (h : ∀ d, item ≠ .directory d)
    (items : List (ItemOf Declaration)) :
    trails.trailsAmong (item :: items) = trails.trailsAmong items := by
  cases item with
  | directory d => exact absurd rfl (h d)
  | _ => rfl

namespace Tree

theorem links_append (cursor : Nat) (features ss rs : List String) :
    links cursor features (ss ++ rs) =
      links cursor features ss ++ links (cursor + ss.length) features rs := by
  induction ss generalizing cursor with
  | nil => rfl
  | cons s ss ih =>
    rw [List.cons_append, links, ih, links, List.cons_append, List.length_cons]
    congr 3
    omega

section chain

variable {t : Tree} {parent : Option Nat} {features : List String} {s : String} {ss : List String}

variable (ht : Founded t) (hp : t.Holds parent) (hs : t.child? parent s = none)
include ht hp hs

/-- A chain stands apart where no child of its parent has the name of its first segment. -/
theorem Apart.chain (hapart : Apart t) (features ss : List String) :
    Apart ⟨t.nodes ++ chainNodes t.size parent features s ss⟩ := by
  have hnone : ∀ {i : Nat} {name : String}, t.skeleton[i]? = some (name, parent) →
      sameName name s ≠ true := by
    intro i name hi hname
    rw [child?_eq_findIdx?, List.findIdx?_eq_none_iff] at hs
    have hnamed : isChildNamed parent s (name, parent) = true := isChildNamed_iff.2 ⟨rfl, hname⟩
    rw [hs (name, parent) (List.mem_of_getElem? hi)] at hnamed
    exact Bool.false_ne_true hnamed
  have hold : ∀ {i k : Nat} {name : String}, i < t.size →
      t.skeleton[i]? = some (name, some k) → k < t.size := by
    intro i k name hi hn
    have := ht i k name hn
    omega
  intro i j name other above hi hj hsame
  rcases chain_cases hi with ⟨hlti, hni⟩ | ⟨rfl, rfl, rfl⟩ | ⟨hgti, rfl⟩
  · rcases chain_cases hj with ⟨_, hnj⟩ | ⟨rfl, rfl, rfl⟩ | ⟨hgtj, rfl⟩
    · exact hapart i j name other above hni hnj hsame
    · exact absurd hsame (hnone hni)
    · have := hold hlti hni
      omega
  · rcases chain_cases hj with ⟨_, hnj⟩ | ⟨rfl, _, _⟩ | ⟨hgtj, rfl⟩
    · exact absurd (sameName_symm hsame) (hnone hnj)
    · rfl
    · have := hp _ rfl
      omega
  · rcases chain_cases hj with ⟨hltj, hnj⟩ | ⟨rfl, rfl, rfl⟩ | ⟨hgtj, habove⟩
    · have := hold hltj hnj
      omega
    · have := hp _ rfl
      omega
    · have : i - 1 = j - 1 := Option.some.inj habove
      omega

/-- Each node of a chain is where a leading row of its segments leads. -/
theorem lead?_take_chain (features : List String) {k : Nat} (hk : k ≤ ss.length) :
    lead? ⟨t.nodes ++ chainNodes t.size parent features s ss⟩ parent (s :: ss.take k) =
      some (t.size + k) := by
  have hshort := lead?_chain ht hp features (ss.take k) hs
  rw [List.length_take, Nat.min_eq_left hk] at hshort
  refine lead?_mono ?_ hshort
  have hnodes : chainNodes t.size parent features s ss =
      chainNodes t.size parent features s (ss.take k) ++
        links (t.size + (ss.take k).length) features (ss.drop k) := by
    rw [chainNodes, ← List.take_append_drop k ss, links_append, List.take_append_drop]
    rfl
  rw [hnodes, ← List.append_assoc]
  exact ⟨skeleton ⟨links (t.size + (ss.take k).length) features (ss.drop k)⟩,
    (skeleton_append ⟨t.nodes ++ chainNodes t.size parent features s (ss.take k)⟩ _).symm⟩

end chain

/-- Each node that is made for a path is where a leading row of the path's segments leads. -/
theorem exists_lead?_overlay {t : Tree} (ht : Founded t) {parent : Option Nat} (hp : t.Holds parent)
    {path : String} (features : List String) (hpath : segments path ≠ []) {i : Nat}
    (hi : t.size ≤ i) (hlt : i < (t.overlay parent path features).tree.size) :
    ∃ front, front ≠ [] ∧ front <+: segments path ∧
      (t.overlay parent path features).tree.lead? parent front = some i := by
  obtain ⟨hgrows, -⟩ := overlay_leads ht hp features hpath
  obtain ⟨j, -, hm⟩ | ⟨ys, s, ss, hsegs, hys, hs, hm⟩ := overlay_cases t parent features hpath
  · rw [hm, size_modify] at hlt
    omega
  · rw [hm] at hlt hgrows ⊢
    rw [size_chain] at hlt
    have hk : i - t.size ≤ ss.length := by omega
    have hchain := lead?_take_chain ht (hp.or_lead? ys) hs features hk
    rw [show t.size + (i - t.size) = i by omega] at hchain
    refine ⟨ys ++ s :: ss.take (i - t.size), by simp, ?_, ?_⟩
    · rw [hsegs, List.prefix_append_right_inj, List.cons_prefix_cons]
      exact ⟨rfl, List.take_prefix _ _⟩
    · cases ys with
      | nil => exact hchain
      | cons y ys =>
        obtain ⟨j, hj⟩ := hys (by simp)
        rw [hj, Option.some_or] at hchain hgrows ⊢
        rw [lead?_append (lead?_mono hgrows hj) (by simp)]
        exact hchain

/-- From `t` comes `u` by making the directories of trails from `parent` on, and no others. -/
structure Lays (t : Tree) (parent : Option Nat) (trails : List (List String)) (u : Tree) :
    Prop where
  grows : t.skeleton <+: u.skeleton
  founded : Founded u
  apart : Apart u
  leads : ∀ ss ∈ trails, ∃ i, u.lead? parent ss = some i
  reached : ∀ i, t.size ≤ i → i < u.size →
    ∃ ss ∈ trails, ∃ front, front <+: ss ∧ u.lead? parent front = some i

namespace Lays

variable {t u v : Tree} {parent : Option Nat} {xs ys : List (List String)}

theorem size_le (h : Lays t parent xs u) : t.size ≤ u.size := by
  simpa using h.grows.length_le

theorem holds (h : Lays t parent xs u) {above : Option Nat} (ha : t.Holds above) :
    u.Holds above := by
  intro i hi
  exact (ha i hi).trans_le h.size_le

theorem of_same (ht : Founded t) (hapart : Apart t) (parent : Option Nat)
    (hs : u.skeleton = t.skeleton) : Lays t parent [] u where
  grows := by rw [hs]
  founded := ht.congr hs
  apart := hapart.congr hs
  leads := by simp
  reached := by
    intro i hi hlt
    have hsize : u.size = t.size := by
      simpa using congrArg List.length hs
    omega

theorem trans (h : Lays t parent xs u) (h' : Lays u parent ys v) :
    Lays t parent (xs ++ ys) v where
  grows := h.grows.trans h'.grows
  founded := h'.founded
  apart := h'.apart
  leads := by
    intro ss hss
    rcases List.mem_append.1 hss with hss | hss
    · obtain ⟨i, hi⟩ := h.leads ss hss
      exact ⟨i, lead?_mono h'.grows hi⟩
    · exact h'.leads ss hss
  reached := by
    intro i hi hlt
    by_cases hold : i < u.size
    · obtain ⟨ss, hss, front, hfront, hlead⟩ := h.reached i hi hold
      exact ⟨ss, List.mem_append_left _ hss, front, hfront, lead?_mono h'.grows hlead⟩
    · obtain ⟨ss, hss, front, hfront, hlead⟩ := h'.reached i (by omega) hlt
      exact ⟨ss, List.mem_append_right _ hss, front, hfront, hlead⟩

/-- What is laid below a directory is laid behind the way to it. -/
theorem under {ss : List String} {i : Nat} (h : Lays t (some i) xs u)
    (hi : t.lead? parent ss = some i) : Lays t parent (xs.map (ss ++ ·)) u where
  grows := h.grows
  founded := h.founded
  apart := h.apart
  leads := by
    intro rs hrs
    obtain ⟨qs, hqs, rfl⟩ := List.mem_map.1 hrs
    obtain ⟨j, hj⟩ := h.leads qs hqs
    exact ⟨j, (lead?_append (lead?_mono h.grows hi) (ne_nil_of_lead? hj)).trans hj⟩
  reached := by
    intro j hj hlt
    obtain ⟨qs, hqs, front, hfront, hlead⟩ := h.reached j hj hlt
    refine ⟨ss ++ qs, List.mem_map_of_mem hqs, ss ++ front, ?_, ?_⟩
    · exact (List.prefix_append_right_inj ss).2 hfront
    · exact (lead?_append (lead?_mono h.grows hi) (ne_nil_of_lead? hlead)).trans hlead

/-- A path is laid over a tree: what is there of it stays, the rest is made. -/
theorem overlay (ht : Founded t) (hapart : Apart t) (hp : t.Holds parent) {path : String}
    (features : List String) (hpath : segments path ≠ []) :
    Lays t parent [segments path] (t.overlay parent path features).tree := by
  obtain ⟨hgrows, hleads⟩ := overlay_leads ht hp features hpath
  refine ⟨hgrows, ht.overlay hp features hpath, ?apart, by simpa using ⟨_, hleads⟩, ?reached⟩
  case apart =>
    obtain ⟨i, -, hm⟩ | ⟨zs, s, ss, -, -, hs, hm⟩ := overlay_cases t parent features hpath
    · rw [hm]
      exact hapart.congr (skeleton_modify t i (by simp) (by simp))
    · rw [hm]
      exact Apart.chain ht (hp.or_lead? zs) hs hapart features ss
  case reached =>
    intro i hi hlt
    obtain ⟨front, -, hfront, hlead⟩ := exists_lead?_overlay ht hp features hpath hi hlt
    exact ⟨segments path, by simp, front, hfront, hlead⟩

end Lays

/-- A declaration lays its paths from the parent on, and items lay theirs from their directory. -/
theorem lays_declare_and_items :
    (∀ d : Declaration, ∀ (t : Tree) (parent : Option Nat), d.hasPaths = true → Founded t →
      Apart t → t.Holds parent → Lays t parent d.trails (t.declare parent d).2) ∧
    ∀ items : List (ItemOf Declaration), ∀ (t : Tree) (i : Nat),
      Declaration.hasPaths.pathsAmong items = true → Founded t → Apart t → i < t.size →
      Lays t (some i) (Declaration.trails.trailsAmong items)
        (declare.declareItems t i items) := by
  refine Declaration.induction ?declaration ?nil ?directory ?other
  case declaration =>
    intro path id features attributes installDir items ih t parent hpaths ht hapart hp
    rw [Declaration.hasPaths, Bool.and_eq_true, bne_iff_ne] at hpaths
    have hpath := segments_ne_nil hpaths.1
    let m := t.overlay parent path features
    have hm : Lays t parent [segments path] m.tree := .overlay ht hapart hp features hpath
    have hsame : ((giveAttributes m attributes).mark m.leaf id installDir).skeleton =
        m.tree.skeleton := by
      rw [skeleton_mark, skeleton_giveAttributes]
    have hmarked := hm.trans (.of_same hm.founded hm.apart parent hsame)
    have hlead : ((giveAttributes m attributes).mark m.leaf id installDir).lead? parent
        (segments path) = some m.leaf :=
      lead?_mono (by rw [hsame]) (overlay_leads ht hp features hpath).2
    have hitems := ih _ m.leaf hpaths.2 hmarked.founded hmarked.apart (lead?_lt hlead)
    exact hmarked.trans (hitems.under hlead)
  case nil =>
    intro t i _ ht hapart _
    exact .of_same ht hapart _ rfl
  case directory =>
    intro d items hd hitems t i hpaths ht hapart hi
    rw [Declaration.hasPaths.pathsAmong, Bool.and_eq_true] at hpaths
    have hfirst := hd t (some i) hpaths.1 ht hapart (holds_some_iff.2 hi)
    have hsize := hfirst.size_le
    exact hfirst.trans (hitems _ i hpaths.2 hfirst.founded hfirst.apart (by omega))
  case other =>
    intro item items hitem ih t i hpaths ht hapart hi
    have hfirst := Lays.of_same ht hapart (some i) (skeleton_hold t i item)
    have hsize := hfirst.size_le
    rw [Declaration.pathsAmong_cons hitem] at hpaths
    rw [Declaration.trailsAmong_cons hitem, declareItems_cons hitem]
    exact hfirst.trans (ih _ i hpaths hfirst.founded hfirst.apart (by omega))

end Tree

/-- A call on a tree of directories. -/
inductive Call where
  | merge (path : String) (features : List String)
  | add (d : Declaration)

namespace Call

/-- The tree after a call below `parent`. A declaration that is refused leaves the tree alone. -/
def run (t : Tree) (parent : Option Nat) : Call → Tree
  | .merge path features => (t.merge parent path features).2
  | .add d =>
      match t.add parent d with
      | .ok (_, u) => u
      | .error _ => t

/-- All paths of the call are nonempty. -/
def hasPaths : Call → Bool
  | .merge path _ => path != ""
  | .add d => d.hasPaths

/-- The rows of segments of the paths that the call merges, those of nested declarations whole. -/
def trails : Call → List (List String)
  | .merge path _ => [segments path]
  | .add d => if d.misplaced?.isSome then [] else d.trails

end Call

namespace Tree

/-- The trees that calls with nonempty paths make, each call at the roots or under a node. -/
inductive Reachable : Tree → Prop
  | empty : Reachable .empty
  | call {t : Tree} {parent : Option Nat} {c : Call} (ht : Reachable t) (hp : t.Holds parent)
      (hc : c.hasPaths = true) : Reachable (c.run t parent)

theorem merge_eq_overlay (t : Tree) (parent : Option Nat) (path : String)
    (features : List String) : t.merge parent path features =
      ((t.overlay parent path features).leaf, (t.overlay parent path features).tree) := rfl

/-- A call lays its trails. -/
theorem lays_run {t : Tree} {parent : Option Nat} {c : Call} (ht : Founded t) (hapart : Apart t)
    (hp : t.Holds parent) (hc : c.hasPaths = true) :
    Lays t parent c.trails (c.run t parent) := by
  cases c with
  | merge path features =>
    rw [Call.hasPaths, bne_iff_ne] at hc
    rw [Call.run, merge_eq_overlay]
    exact .overlay ht hapart hp features (segments_ne_nil hc)
  | add d =>
    rw [Call.run, add, Call.trails]
    cases d.misplaced? with
    | some e => exact .of_same ht hapart parent rfl
    | none => exact lays_declare_and_items.1 d t parent hc ht hapart hp

theorem Reachable.founded_and_apart {t : Tree} (h : Reachable t) : Founded t ∧ Apart t := by
  induction h with
  | empty => exact ⟨founded_empty, apart_empty⟩
  | call _ hp hc ih =>
    have hlays := lays_run ih.1 ih.2 hp hc
    exact ⟨hlays.founded, hlays.apart⟩

end Tree

end Installer.Directory
