import Installer.Proofs.Directory.Growth

/-!
# Walking along the leading parts of a path

A path is merged by looking up its leading parts one after the other, each of them from the start.
That comes to the same as walking along its segments once, always to the first child with the name
of the next segment: the look-ups find the directories of the longest such walk, in their order,
and nothing behind it.
-/
namespace Installer.Directory
open Identifier

/-- The leading part at each place has one segment more than there are parts before it. -/
theorem map_segments_pathPrefixes_take (path : String) :
    (pathPrefixes path).map segments =
      (List.range (segments path).length).map fun k => (segments path).take (k + 1) := by
  rw [map_segments_pathPrefixes]
  generalize segments path = ss
  apply List.ext_getElem
  · simp
  · intro k hk hk'
    simp [List.getElem_tail]

theorem pathPrefixes_of_rooted {path : String} (h : isRooted path = true) :
    pathPrefixes path = [path] := by
  rw [pathPrefixes, segments_of_rooted h]
  rfl

namespace Tree

variable {t : Tree} {parent : Option Nat}

/-- The node is there and has a name that names the same directory as the segment. -/
def IsNamed (t : Tree) (s : String) (i : Nat) : Prop :=
  ∃ n, t.node? i = some n ∧ sameName n.name s = true

/-- Of the children of a node, or of the roots, the first that a segment names. -/
def FirstNamed (t : Tree) (parent : Option Nat) (s : String) (i : Nat) : Prop :=
  t.IsNamed s i ∧ ∃ before behind, t.level parent = before ++ i :: behind ∧
    ∀ j ∈ before, ¬t.IsNamed s j

/-- A walk along segments: each step goes from a node to the first of its children that the next
segment names. It may stop anywhere. -/
inductive Walk (t : Tree) : Option Nat → List String → List Nat → Prop
  | stop (parent : Option Nat) (ss : List String) : Walk t parent ss []
  | step {parent : Option Nat} {s : String} {ss : List String} {i : Nat} {is : List Nat}
      (hi : t.FirstNamed parent s i) (his : Walk t (some i) ss is) :
      Walk t parent (s :: ss) (i :: is)

/-- A walk along segments that no other walk along them is longer than. -/
structure LongestWalk (t : Tree) (parent : Option Nat) (ss : List String) (is : List Nat) :
    Prop where
  walk : t.Walk parent ss is
  longest : ∀ js, t.Walk parent ss js → js.length ≤ is.length

theorem child?_eq_some_iff_firstNamed {s : String} {i : Nat} :
    t.child? parent s = some i ↔ t.FirstNamed parent s i := by
  have hnamed : ∀ j, ((t.node? j).any fun n => sameName n.name s) = true ↔ t.IsNamed s j := by
    intro j
    simp [IsNamed, Option.any_eq_true]
  rw [child?, List.find?_eq_some_iff_append, FirstNamed, hnamed]
  simp only [Bool.not_eq_true', ← Bool.not_eq_true, hnamed]

/-- The walks along segments are the beginnings of one of them. -/
theorem walk_iff_prefix_follow {ss : List String} {is : List Nat} :
    t.Walk parent ss is ↔ is <+: t.follow parent ss := by
  induction ss generalizing parent is with
  | nil =>
    rw [follow, List.prefix_nil]
    constructor
    · rintro ⟨⟩
      rfl
    · rintro rfl
      exact .stop parent []
  | cons s ss ih =>
    constructor
    · intro h
      cases h with
      | stop => exact List.nil_prefix
      | step hi his =>
        rw [follow, child?_eq_some_iff_firstNamed.2 hi]
        exact List.cons_prefix_cons.2 ⟨rfl, ih.1 his⟩
    · intro h
      cases is with
      | nil => exact .stop parent _
      | cons i is =>
        rw [follow] at h
        cases hc : t.child? parent s with
        | none => simp [hc] at h
        | some j =>
          rw [hc] at h
          obtain ⟨rfl, his⟩ := List.cons_prefix_cons.1 h
          exact .step (child?_eq_some_iff_firstNamed.1 hc) (ih.2 his)

theorem longestWalk_iff {ss : List String} {is : List Nat} :
    t.LongestWalk parent ss is ↔ is = t.follow parent ss := by
  constructor
  · intro h
    have hlength := h.longest _ (walk_iff_prefix_follow.2 (List.prefix_refl _))
    exact (walk_iff_prefix_follow.1 h.walk).eq_of_length_le hlength
  · rintro rfl
    refine ⟨walk_iff_prefix_follow.2 (List.prefix_refl _), ?_⟩
    intro js hjs
    exact (walk_iff_prefix_follow.1 hjs).length_le

/-- A leading row of segments leads where the walk along all of them is then, if it comes so far. -/
theorem lead?_take {ss : List String} {k : Nat} (hk : k < ss.length) :
    t.lead? parent (ss.take (k + 1)) = (t.follow parent ss)[k]? := by
  induction ss generalizing parent k with
  | nil => simp at hk
  | cons s ss ih =>
    rw [List.take_succ_cons, lead?, follow]
    cases hc : t.child? parent s with
    | none => simp
    | some i =>
      rw [Option.bind_some]
      cases k with
      | zero => rfl
      | succ k =>
        rw [List.length_cons] at hk
        rw [List.getElem?_cons_succ, ← ih (by omega)]
        cases ss with
        | nil => simp at hk
        | cons r ss => rfl

theorem map_find?_pathPrefixes (path : String) :
    (pathPrefixes path).map (t.find? parent) =
      (List.range (segments path).length).map ((t.followed parent path)[·]?) := by
  have hfind : t.find? parent = t.lead? parent ∘ segments :=
    funext fun q => find?_eq_lead? t parent q
  rw [hfind, ← List.map_map, map_segments_pathPrefixes_take, List.map_map, followed_eq_follow]
  apply List.map_congr_left
  intro k hk
  exact lead?_take (List.mem_range.1 hk)

/-- What is made of a path of `count` segments behind a walk along the first of them: nothing where
the walk takes them all, and else a chain for the others that begins below the end of the walk. -/
inductive LaidBehind (t : Tree) (parent : Option Nat) (walk : List Nat) (count : Nat)
    (m : Overlay) : Prop
  | whole (hwalk : walk.length = count) (hhead : m.head = none)
      (hleaf : walk.getLast? = some m.leaf) (hsize : m.tree.size = t.size)
  | behind (hwalk : walk.length < count) (hhead : m.head = some t.size)
      (hparent : (m.tree.node? t.size).map (·.parent) = some (walk.getLast?.or parent))
      (hleaf : m.leaf + 1 = m.tree.size) (hsize : m.tree.size + walk.length = t.size + count)

theorem laidBehind_chain (t : Tree) (parent : Option Nat) (walk : List Nat) {count : Nat}
    (s : String) (ss features : List String) (hcount : walk.length + ss.length + 1 = count) :
    t.LaidBehind parent walk count ⟨some t.size, t.size + ss.length,
      ⟨t.nodes ++ chainNodes t.size (walk.getLast?.or parent) features s ss⟩⟩ := by
  apply LaidBehind.behind
  · omega
  · rfl
  · simp [node?, size, chainNodes]
  · rw [size_chain]
  · rw [size_chain]
    omega

/-- A path is laid behind the longest walk along its segments. An empty path has one segment to be
made, which is nameless. -/
theorem laidBehind_overlay (t : Tree) (parent : Option Nat) (path : String)
    (features : List String) :
    t.LaidBehind parent (t.followed parent path) (max 1 (segments path).length)
      (t.overlay parent path features) := by
  have hle : (t.followed parent path).length ≤ (segments path).length := by
    obtain ⟨ys, zs, hsplit, hlength, -⟩ := follow_split t parent (segments path)
    rw [followed_eq_follow, hlength, hsplit, List.length_append]
    omega
  rw [overlay]
  cases hlast : (t.followed parent path).getLast? with
  | none =>
    have hnone : t.followed parent path = [] := List.getLast?_eq_none_iff.1 hlast
    have hcount : (chainSegments path).2.length + 1 = max 1 (segments path).length := by
      unfold chainSegments
      cases hsegments : segments path with
      | nil => rfl
      | cons s ss =>
        show ss.length + 1 = max 1 (ss.length + 1)
        omega
    have hchain := laidBehind_chain t parent [] (chainSegments path).1 (chainSegments path).2 features
      (show 0 + _ + 1 = max 1 (segments path).length by omega)
    simpa [hnone, chain_eq] using hchain
  | some last =>
    have hpos : 0 < (t.followed parent path).length := by
      apply List.length_pos_iff.2
      intro hnone
      simp [hnone] at hlast
    cases hdrop : (segments path).drop (t.followed parent path).length with
    | nil =>
      have hall := List.drop_eq_nil_iff.1 hdrop
      exact .whole (by omega) rfl hlast (size_modify t last _)
    | cons s ss =>
      have hlength := congrArg List.length hdrop
      rw [List.length_drop, List.length_cons] at hlength
      have hchain := laidBehind_chain t parent (t.followed parent path) s ss features
        (show _ = max 1 (segments path).length by omega)
      rw [hlast, Option.some_or] at hchain
      simpa [chain_eq] using hchain

/-- Walking along the leading parts of a path agrees with walking along its segments. The leading
part at each place splits into just the segments up to there, and a rooted path is its only one. A
look-up of each of them, made from the same start, finds the directories of the longest walk along
the segments, in their order, and nothing where the walk has ended. And it is behind that walk that
a path is merged. -/
theorem prefixes_walk_segments (t : Tree) (parent : Option Nat) (path : String) :
    ((pathPrefixes path).map segments =
        (List.range (segments path).length).map fun k => (segments path).take (k + 1)) ∧
      (isRooted path = true → pathPrefixes path = [path]) ∧
      ((pathPrefixes path).map (t.find? parent) =
        (List.range (segments path).length).map ((t.followed parent path)[·]?)) ∧
      (∀ is, t.LongestWalk parent (segments path) is ↔ is = t.followed parent path) ∧
      ∀ features, t.LaidBehind parent (t.followed parent path) (max 1 (segments path).length)
        (t.overlay parent path features) := by
  refine ⟨map_segments_pathPrefixes_take path, pathPrefixes_of_rooted, map_find?_pathPrefixes path,
    ?_, laidBehind_overlay t parent path⟩
  intro is
  rw [longestWalk_iff, followed_eq_follow]

/-- A rooted path is looked up as a whole, in any letter case. -/
theorem prefixes_walk_segments_rooted :
    isRooted "C:\\Acme" = true ∧ pathPrefixes "C:\\Acme" = ["C:\\Acme"] ∧
      (Tree.empty.merge none "c:\\acme" []).2.LongestWalk none (segments "C:\\Acme") [0] := by
  have h := prefixes_walk_segments (Tree.empty.merge none "c:\\acme" []).2 none "C:\\Acme"
  exact ⟨by decide +kernel, h.2.1 (by decide +kernel), (h.2.2.2.1 [0]).2 (by decide +kernel)⟩

/-- A segment that looks like a drive is none inside a path. -/
example : (pathPrefixes "Acme//C:\\x").map segments =
    [["Acme"], ["Acme", "C:"], ["Acme", "C:", "x"]] := by decide +kernel

end Tree

end Installer.Directory
