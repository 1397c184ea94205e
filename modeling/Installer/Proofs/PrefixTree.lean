import Installer.Proofs.Directory.Laying
import Mathlib.Order.Interval.Set.Nat

/-!
# Directories as a prefix tree

Whatever paths and declarations are laid over a tree, from the roots or from any node on, siblings
keep names of different directories, and a path that was just merged is found where it was merged.
From the roots the nodes are the leading rows of segments of all paths, one node for each up to the
spelling of names. So neither their number nor their paths depend on the order of the calls; only
the spelling of a name does, which is that of the first call to make its node.
-/
namespace Installer.Directory.Tree

/-- The tree that calls make at the roots, one after the other. -/
def build (cs : List Call) : Tree :=
  cs.foldl (fun t c => c.run t none) .empty

theorem lays_build {cs : List Call} (hcs : ∀ c ∈ cs, c.hasPaths = true) :
    Lays .empty none (cs.flatMap Call.trails) (build cs) := by
  induction cs using List.reverseRecOn with
  | nil => exact .of_same founded_empty apart_empty none rfl
  | append_singleton cs c ih =>
    have hrest := ih fun d hd => hcs d (by simp [hd])
    have hlast := lays_run hrest.founded hrest.apart (holds_none _) (hcs c (by simp))
    rw [build, List.foldl_append, List.flatMap_append, List.flatMap_singleton]
    exact hrest.trans hlast

theorem reachable_build {cs : List Call} (hcs : ∀ c ∈ cs, c.hasPaths = true) :
    (build cs).Reachable := by
  induction cs using List.reverseRecOn with
  | nil => exact .empty
  | append_singleton cs c ih =>
    rw [build, List.foldl_append]
    exact .call (ih fun d hd => hcs d (by simp [hd])) (holds_none _) (hcs c (by simp))

/-- The path of a node, up to the spelling of names. -/
def place (t : Tree) (i : Nat) : Quotient trailSetoid :=
  Quotient.mk trailSetoid (t.trail i)

/-- The paths of the nodes, up to the spelling of names. -/
def places (t : Tree) : Set (Quotient trailSetoid) :=
  t.place '' Set.Iio t.size

/-- The nonempty leading rows of trails, up to the spelling of names. -/
def fronts (trails : List (List String)) : Set (Quotient trailSetoid) :=
  Quotient.mk trailSetoid '' {front | front ≠ [] ∧ ∃ ss ∈ trails, front <+: ss}

/-- The nodes of a tree made from nothing are the leading rows of what was laid at the roots. -/
theorem Lays.bijOn_fronts {u : Tree} {trails : List (List String)}
    (h : Lays .empty none trails u) : Set.BijOn u.place (Set.Iio u.size) (fronts trails) := by
  refine Set.BijOn.mk ?mapsTo ?injOn ?surjOn
  case mapsTo =>
    intro i hi
    obtain ⟨ss, hss, front, hfront, hlead⟩ := h.reached i (Nat.zero_le i) hi
    have hsame := ((lead?_roots_iff h.founded h.apart).1 hlead).2
    exact ⟨front, ⟨ne_nil_of_lead? hlead, ss, hss, hfront⟩,
      Quotient.sound (equivalence_sameTrail.symm hsame)⟩
  case injOn =>
    intro i hi j hj hij
    have hsame : SameTrail (u.trail i) (u.trail j) := Quotient.exact hij
    exact eq_of_sameTrail h.founded h.apart hi hj hsame
  case surjOn =>
    rintro _ ⟨front, ⟨hne, ss, hss, hfront⟩, rfl⟩
    obtain ⟨j, hj⟩ := h.leads ss hss
    obtain ⟨i, hi⟩ := lead?_front hne hfront hj
    obtain ⟨hlt, hsame⟩ := (lead?_roots_iff h.founded h.apart).1 hi
    exact ⟨i, hlt, Quotient.sound hsame⟩

theorem fronts_congr {xs ys : List (List String)} (h : ∀ ss, ss ∈ xs ↔ ss ∈ ys) :
    fronts xs = fronts ys := by
  simp only [fronts, h]

/-- The nodes are as many as their paths. -/
theorem Lays.size_eq_ncard {u : Tree} {trails : List (List String)}
    (h : Lays .empty none trails u) : u.size = (fronts trails).ncard := by
  rw [← h.bijOn_fronts.image_eq, h.bijOn_fronts.injOn.ncard_image, Set.ncard_Iio_nat]

/-- Directories are a prefix tree. Siblings name different directories after any run of calls; a
path that was merged is found where it was merged; and calls at the roots make one node for each
leading row of segments, up to the spelling of names, in whatever order they are made. -/
theorem directories_prefix_tree :
    (∀ t : Tree, t.Reachable → ∀ parent, ∀ i ∈ t.level parent, ∀ j ∈ t.level parent, i ≠ j →
      ∀ n m, t.node? i = some n → t.node? j = some m → sameName n.name m.name = false) ∧
    (∀ (t : Tree) (parent : Option Nat) (path : String) (features : List String),
      t.Reachable → t.Holds parent → path ≠ "" →
      (t.merge parent path features).2.find? parent path =
        some (t.merge parent path features).1) ∧
    ∀ cs : List Call, (∀ c ∈ cs, c.hasPaths = true) →
      Set.BijOn (build cs).place (Set.Iio (build cs).size) (fronts (cs.flatMap Call.trails)) ∧
      ∀ ds : List Call, ds.Perm cs →
        (build ds).size = (build cs).size ∧ (build ds).places = (build cs).places := by
  refine ⟨?siblings, ?merged, ?roots⟩
  case siblings =>
    intro t ht parent i hi j hj hij n m hn hm
    rw [← Bool.not_eq_true]
    intro hname
    exact hij (ht.founded_and_apart.2.level hi hj hn hm hname)
  case merged =>
    intro t parent path features ht hp hpath
    rw [merge_eq_overlay, find?_eq_lead?]
    exact (overlay_leads ht.founded_and_apart.1 hp features (segments_ne_nil hpath)).2
  case roots =>
    intro cs hcs
    have hlays := lays_build hcs
    refine ⟨hlays.bijOn_fronts, fun ds hperm => ?_⟩
    have hother := lays_build fun d hd => hcs d (hperm.mem_iff.1 hd)
    have hfronts : fronts (ds.flatMap Call.trails) = fronts (cs.flatMap Call.trails) :=
      fronts_congr fun ss => (hperm.flatMap_right Call.trails).mem_iff
    constructor
    · rw [hother.size_eq_ncard, hlays.size_eq_ncard, hfronts]
    · rw [places, places, hother.bijOn_fronts.image_eq, hlays.bijOn_fronts.image_eq, hfronts]

/-- Two paths with a first directory in common, in two spellings. -/
def siblingCalls : List Call :=
  [.merge "Acme\\App" [], .merge "acme/Docs" []]

theorem directories_prefix_tree_siblings :
    (∀ c ∈ siblingCalls, c.hasPaths = true) ∧ (build siblingCalls).Reachable ∧
      (build siblingCalls).skeleton = [("Acme", none), ("App", some 0), ("Docs", some 0)] ∧
      sameName "App" "Docs" = false ∧
      (build siblingCalls).Holds (some 0) ∧
      ((build siblingCalls).merge (some 0) "docs" []).2.find? (some 0) "docs" =
        some ((build siblingCalls).merge (some 0) "docs" []).1 ∧
      Set.BijOn (build siblingCalls).place (Set.Iio (build siblingCalls).size)
        (fronts (siblingCalls.flatMap Call.trails)) ∧
      (build siblingCalls.reverse).size = 3 ∧
      (build siblingCalls.reverse).places = (build siblingCalls).places := by
  have hpaths : ∀ c ∈ siblingCalls, c.hasPaths = true := by decide
  have hreachable := reachable_build hpaths
  have hskeleton : (build siblingCalls).skeleton =
      [("Acme", none), ("App", some 0), ("Docs", some 0)] := by
    decide +kernel
  have hsize : (build siblingCalls).size = 3 := by
    rw [← length_skeleton, hskeleton]
    rfl
  have hholds : (build siblingCalls).Holds (some 0) := holds_some_iff.2 (by omega)
  obtain ⟨hsiblings, hmerged, hroots⟩ := directories_prefix_tree
  obtain ⟨n, hn⟩ : ∃ n, (build siblingCalls).node? 1 = some n :=
    ⟨_, List.getElem?_eq_getElem (show 1 < (build siblingCalls).size by omega)⟩
  obtain ⟨m, hm⟩ : ∃ m, (build siblingCalls).node? 2 = some m :=
    ⟨_, List.getElem?_eq_getElem (show 2 < (build siblingCalls).size by omega)⟩
  have happ := getElem?_skeleton hn
  have hdocs := getElem?_skeleton hm
  rw [hskeleton] at happ hdocs
  have hapart := hsiblings _ hreachable (some 0) 1 (mem_level_iff.2 ⟨"App", by rw [hskeleton]; rfl⟩)
    2 (mem_level_iff.2 ⟨"Docs", by rw [hskeleton]; rfl⟩) (by decide) n m hn hm
  rw [← (Prod.mk.inj (Option.some.inj happ)).1, ← (Prod.mk.inj (Option.some.inj hdocs)).1] at hapart
  have hfound := hmerged _ (some 0) "docs" [] hreachable hholds (by decide)
  obtain ⟨hbij, horder⟩ := hroots siblingCalls hpaths
  obtain ⟨hcount, hplaces⟩ := horder siblingCalls.reverse (List.reverse_perm _)
  exact ⟨hpaths, hreachable, hskeleton, hapart, hholds, hfound, hbij, hcount.trans hsize, hplaces⟩

end Installer.Directory.Tree
