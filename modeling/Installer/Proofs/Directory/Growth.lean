import Installer.Directory.Tree
import Installer.Proofs.Directory.Segments
import Mathlib.Tactic.Common

/-!
# Growth of directory trees

Look-ups in a tree read nothing but the names and parents of its nodes, its skeleton. Declarations
extend the skeleton at its end only, so a row of segments that leads to a directory leads there for
good. `overlay_cases` says once and for all what laying a path over a tree can do.
-/
namespace Installer.Directory

section accumulate

variable {α β : Type} (f : List β → α → β)

/-- Values for the entries of a list, each from the values of the entries before it. -/
def accumulate (xs : List α) : List β :=
  xs.foldl (fun ys x => ys ++ [f ys x]) []

theorem accumulate_concat (xs : List α) (x : α) :
    accumulate f (xs ++ [x]) = accumulate f xs ++ [f (accumulate f xs) x] := by
  simp [accumulate, List.foldl_append]

@[simp] theorem length_accumulate (xs : List α) : (accumulate f xs).length = xs.length := by
  induction xs using List.reverseRecOn with
  | nil => rfl
  | append_singleton xs x ih => simp [accumulate_concat, ih]

theorem accumulate_prefix (xs ys : List α) : accumulate f xs <+: accumulate f (xs ++ ys) := by
  induction ys using List.reverseRecOn with
  | nil => simp
  | append_singleton ys y ih =>
    rw [← List.append_assoc, accumulate_concat]
    exact ih.trans (List.prefix_append _ _)

/-- Values stay as they are when entries are added. -/
theorem getElem?_accumulate_mono {xs ys : List α} (h : xs <+: ys) {i : Nat} (hi : i < xs.length) :
    (accumulate f ys)[i]? = (accumulate f xs)[i]? := by
  obtain ⟨more, rfl⟩ := h
  obtain ⟨rest, hrest⟩ := accumulate_prefix f xs more
  rw [← hrest, List.getElem?_append_left (by simpa using hi)]

theorem getElem?_accumulate_take (xs : List α) {i j : Nat} (hij : j < i) (hi : i ≤ xs.length) :
    (accumulate f (xs.take i))[j]? = (accumulate f xs)[j]? := by
  refine (getElem?_accumulate_mono f (List.take_prefix i xs) ?_).symm
  rw [List.length_take]
  omega

/-- The value of an entry comes from the values before it. -/
theorem getElem?_accumulate {xs : List α} {i : Nat} {x : α} (h : xs[i]? = some x) :
    (accumulate f xs)[i]? = some (f (accumulate f (xs.take i)) x) := by
  obtain ⟨hi, hget⟩ := List.getElem?_eq_some_iff.1 h
  have hlength : (accumulate f (xs.take i)).length = i := by
    rw [length_accumulate, List.length_take]
    omega
  have hlast : (accumulate f (xs.take i ++ [x]))[i]? =
      some (f (accumulate f (xs.take i)) x) := by
    rw [accumulate_concat, List.getElem?_append_right (by omega), hlength, Nat.sub_self]
    rfl
  rw [← hlast]
  refine getElem?_accumulate_mono f ?_ (by rw [List.length_append, List.length_take]; simp; omega)
  rw [← hget, List.take_append_getElem hi]
  exact List.take_prefix _ _

end accumulate

@[simp] theorem sameName_self (s : String) : sameName s s = true := by
  unfold sameName
  split <;> simp [Text.sameText]

namespace Tree

/-- The names and parents of the nodes. -/
def skeleton (t : Tree) : List (String × Option Nat) :=
  t.nodes.map fun n => (n.name, n.parent)

@[simp] theorem length_skeleton (t : Tree) : t.skeleton.length = t.size := by
  simp [skeleton, size]

theorem getElem?_skeleton {t : Tree} {i : Nat} {n : Node} (h : t.node? i = some n) :
    t.skeleton[i]? = some (n.name, n.parent) := by
  rw [skeleton, List.getElem?_map]
  exact congrArg (Option.map _) h

theorem exists_node? {t : Tree} {i : Nat} (hi : i < t.size) : ∃ n, t.node? i = some n :=
  ⟨_, List.getElem?_eq_getElem hi⟩

theorem lt_of_node? {t : Tree} {i : Nat} {n : Node} (h : t.node? i = some n) : i < t.size :=
  (List.getElem?_eq_some_iff.1 h).1

theorem ext_node? {t u : Tree} (h : ∀ i, t.node? i = u.node? i) : t = u :=
  congrArg mk (List.ext_getElem? h)

theorem node?_push (t : Tree) (n : Node) (i : Nat) :
    (t.push n).node? i = if i = t.size then some n else t.node? i := by
  rw [node?, push, node?]
  rcases Nat.lt_trichotomy i t.size with hi | rfl | hi
  · rw [List.getElem?_append_left hi, if_neg hi.ne]
  · simp [size]
  · rw [List.getElem?_eq_none (by rw [List.length_append]; exact hi), if_neg hi.ne',
      List.getElem?_eq_none hi.le]

/-- Every parent is an earlier node. -/
def Founded (t : Tree) : Prop :=
  ∀ (i p : Nat) (name : String), t.skeleton[i]? = some (name, some p) → p < i

/-- A parent to be is a node of the tree, or none for a root. -/
def Holds (t : Tree) (parent : Option Nat) : Prop :=
  ∀ p, parent = some p → p < t.size

theorem founded_empty : Founded .empty := by
  intro i p name h
  simp [skeleton, empty] at h

theorem holds_none (t : Tree) : t.Holds none := by
  intro p h
  simp at h

theorem holds_some_iff {t : Tree} {i : Nat} : t.Holds (some i) ↔ i < t.size := by
  simp [Holds]

theorem Founded.lt_size {t : Tree} (h : Founded t) {n : String × Option Nat} (hn : n ∈ t.skeleton)
    {p : Nat} (hp : n.2 = some p) : p < t.size := by
  obtain ⟨i, hi, rfl⟩ := List.getElem_of_mem hn
  have hlt := h i p t.skeleton[i].1 (by rw [List.getElem?_eq_getElem hi, ← hp])
  rw [length_skeleton] at hi
  omega

/-- A node of a skeleton is a child of `parent` that a segment names. -/
def isChildNamed (parent : Option Nat) (s : String) (n : String × Option Nat) : Bool :=
  n.2 == parent && sameName n.1 s

/-- The numbered level is searched by number, the skeleton by position. -/
theorem find?_level_from (t : Tree) (parent : Option Nat) (s : String) (ns : List Node) (k : Nat)
    (hk : ∀ j, t.node? (k + j) = ns[j]?) :
    ((ns.zipIdx k).filterMap fun n => if n.1.parent = parent then some n.2 else none).find?
        (fun i => (t.node? i).any fun n => sameName n.name s) =
      (ns.findIdx? fun n => isChildNamed parent s (n.name, n.parent)).map (k + ·) := by
  induction ns generalizing k with
  | nil => rfl
  | cons n ns ih =>
    have hn : t.node? k = some n := by simpa using hk 0
    have hrest := ih (k + 1) fun j => by
      rw [show k + 1 + j = k + (j + 1) by omega]
      simpa using hk (j + 1)
    have hshift : ∀ o : Option Nat, o.map (k + 1 + ·) = (o.map (· + 1)).map (k + ·) := by
      intro o
      cases o with
      | none => rfl
      | some j => simp only [Option.map_some]; congr 1; omega
    rw [hshift] at hrest
    rw [List.zipIdx_cons, List.filterMap_cons, List.findIdx?_cons]
    by_cases hp : n.parent = parent
    · by_cases hs : sameName n.name s = true
      · simp [hp, hn, hs, isChildNamed]
      · simp only [hp, if_true, List.find?_cons, hn, Option.any_some, hs, hrest, isChildNamed]
        simp
    · simp only [hp, if_false, hrest, isChildNamed, beq_eq_false_iff_ne.2 hp]
      simp

theorem child?_eq_findIdx? (t : Tree) (parent : Option Nat) (s : String) :
    t.child? parent s = t.skeleton.findIdx? (isChildNamed parent s) := by
  rw [child?, level, find?_level_from t parent s t.nodes 0 (by simp [node?]), skeleton,
    List.findIdx?_map]
  simp [Function.comp_def]

theorem child?_mono {t u : Tree} (h : t.skeleton <+: u.skeleton) {parent : Option Nat} {s : String}
    {i : Nat} (hi : t.child? parent s = some i) : u.child? parent s = some i := by
  obtain ⟨more, hmore⟩ := h
  rw [child?_eq_findIdx?] at hi ⊢
  rw [← hmore, List.findIdx?_append, hi]
  rfl

theorem child?_lt {t : Tree} {parent : Option Nat} {s : String} {i : Nat}
    (h : t.child? parent s = some i) : i < t.size := by
  rw [child?_eq_findIdx?] at h
  obtain ⟨hlt, _⟩ := List.findIdx?_eq_some_iff_getElem.1 h
  simpa using hlt

/-- Where a row of segments leads from the children of `parent`, or from the roots. -/
def lead? (t : Tree) (parent : Option Nat) : List String → Option Nat
  | [] => none
  | s :: ss => (t.child? parent s).bind (t.descend · ss)

theorem ne_nil_of_lead? {t : Tree} {parent : Option Nat} {ss : List String} {i : Nat}
    (h : t.lead? parent ss = some i) : ss ≠ [] := by
  rintro rfl
  simp [lead?] at h

theorem find?_eq_lead? (t : Tree) (parent : Option Nat) (path : String) :
    t.find? parent path = t.lead? parent (segments path) := by
  rw [find?]
  cases segments path <;> rfl

theorem descend_append (t : Tree) (i : Nat) (ss ts : List String) :
    t.descend i (ss ++ ts) = (t.descend i ss).bind (t.descend · ts) := by
  induction ss generalizing i with
  | nil => simp [descend]
  | cons s ss ih =>
    simp only [List.cons_append, descend]
    cases t.child? (some i) s with
    | none => rfl
    | some j => simpa using ih j

theorem descend_mono {t u : Tree} (h : t.skeleton <+: u.skeleton) {i j : Nat} {ss : List String}
    (hi : t.descend i ss = some j) : u.descend i ss = some j := by
  induction ss generalizing i with
  | nil => exact hi
  | cons s ss ih =>
    rw [descend] at hi
    obtain ⟨k, hk, hrest⟩ := Option.bind_eq_some_iff.1 hi
    rw [descend, child?_mono h hk]
    exact ih hrest

theorem lead?_mono {t u : Tree} (h : t.skeleton <+: u.skeleton) {parent : Option Nat} {i : Nat}
    {ss : List String} (hi : t.lead? parent ss = some i) : u.lead? parent ss = some i := by
  cases ss with
  | nil => simp [lead?] at hi
  | cons s ss =>
    obtain ⟨k, hk, hrest⟩ := Option.bind_eq_some_iff.1 hi
    rw [lead?, child?_mono h hk]
    exact descend_mono h hrest

/-- Behind a directory the walk goes on from there. -/
theorem lead?_append {t : Tree} {parent : Option Nat} {ss ts : List String} {i : Nat}
    (hi : t.lead? parent ss = some i) (hts : ts ≠ []) :
    t.lead? parent (ss ++ ts) = t.lead? (some i) ts := by
  cases ss with
  | nil => simp [lead?] at hi
  | cons s ss =>
    obtain ⟨k, hk, hrest⟩ := Option.bind_eq_some_iff.1 hi
    rw [List.cons_append, lead?, hk, Option.bind_some, descend_append, hrest, Option.bind_some]
    cases ts with
    | nil => exact absurd rfl hts
    | cons r ts => rfl

/-- The directories on the way along a row of segments, as far as they are there. -/
def follow (t : Tree) (parent : Option Nat) : List String → List Nat
  | [] => []
  | s :: ss =>
      match t.child? parent s with
      | none => []
      | some i => i :: t.follow (some i) ss

theorem takeWhile_lead?_eq_follow (t : Tree) (parent : Option Nat) (ss : List String) :
    ((ss.inits.tail.map (t.lead? parent)).takeWhile (·.isSome)).filterMap id =
      t.follow parent ss := by
  induction ss generalizing parent with
  | nil => rfl
  | cons s ss ih =>
    rw [List.inits_cons, List.tail_cons, follow]
    cases hc : t.child? parent s with
    | none =>
      cases ss with
      | nil => simp [lead?, hc]
      | cons r ss => simp [lead?, hc]
    | some i =>
      have hi := ih (some i)
      cases ss with
      | nil => simp [lead?, hc, descend, follow]
      | cons r ss =>
        change _ = i :: t.follow (some i) (r :: ss)
        rw [← hi]
        simp [Function.comp_def, lead?, hc, descend]

/-- The look-ups by text follow the segments. -/
theorem followed_eq_follow (t : Tree) (parent : Option Nat) (path : String) :
    t.followed parent path = t.follow parent (segments path) := by
  rw [followed, ← takeWhile_lead?_eq_follow, ← map_segments_pathPrefixes, List.map_map]
  have hfind : t.find? parent = t.lead? parent ∘ segments :=
    funext fun q => find?_eq_lead? t parent q
  rw [hfind]

/-- The nodes that continue one another below `cursor`, the last node so far. -/
def links (cursor : Nat) (features : List String) : List String → List Node
  | [] => []
  | s :: ss =>
      { name := s, parent := some cursor, continues := true, features } ::
        links (cursor + 1) features ss

theorem mem_links {cursor : Nat} {features ss : List String} {n : Node}
    (h : n ∈ links cursor features ss) :
    ∃ name above, n = { name, parent := some above, continues := true, features } := by
  induction ss generalizing cursor with
  | nil => simp [links] at h
  | cons s ss ih =>
    rcases List.mem_cons.1 h with rfl | h
    · exact ⟨s, cursor, rfl⟩
    · exact ih h

theorem extend_eq_links (t : Tree) (cursor : Nat) (features ss : List String)
    (h : t.size = cursor + 1) :
    t.extend cursor features ss = (cursor + ss.length, ⟨t.nodes ++ links cursor features ss⟩) := by
  induction ss generalizing t cursor with
  | nil => simp [extend, links]
  | cons s ss ih =>
    rw [extend, ih _ _ (by simp [push, size])]
    simp [h, push, links]
    omega

/-- The nodes of a new chain behind `size` nodes. -/
def chainNodes (size : Nat) (parent : Option Nat) (features : List String) (s : String)
    (ss : List String) : List Node :=
  { name := s, parent, features } :: links size features ss

/-- A new chain consists of nodes that have features and nothing else. -/
theorem mem_chainNodes {size : Nat} {parent : Option Nat} {features : List String} {s : String}
    {ss : List String} {n : Node} (h : n ∈ chainNodes size parent features s ss) :
    ∃ name above continues, n = { name, parent := above, continues, features } := by
  rcases List.mem_cons.1 h with rfl | h
  · exact ⟨s, parent, false, rfl⟩
  · obtain ⟨name, above, rfl⟩ := mem_links h
    exact ⟨name, some above, true, rfl⟩

theorem length_links (cursor : Nat) (features ss : List String) :
    (links cursor features ss).length = ss.length := by
  induction ss generalizing cursor with
  | nil => rfl
  | cons s ss ih => rw [links, List.length_cons, ih, List.length_cons]

theorem chain_eq (t : Tree) (parent : Option Nat) (s : String) (ss features : List String) :
    t.chain parent s ss features =
      (t.size, t.size + ss.length, ⟨t.nodes ++ chainNodes t.size parent features s ss⟩) := by
  rw [chain, extend_eq_links _ _ _ _ (by simp [push, size])]
  simp [push, chainNodes]

theorem size_chain {t : Tree} {parent : Option Nat} {features : List String} {s : String}
    {ss : List String} :
    size ⟨t.nodes ++ chainNodes t.size parent features s ss⟩ = t.size + ss.length + 1 := by
  simp only [size, chainNodes, List.length_append, List.length_cons, length_links]
  omega

/-- What is there of a path is a leading row of its segments, and no child of the last directory
there has the name of the next segment. -/
theorem follow_split (t : Tree) (parent : Option Nat) (ss : List String) :
    ∃ ys zs, ss = ys ++ zs ∧ (t.follow parent ss).length = ys.length ∧
      (t.follow parent ss).getLast? = t.lead? parent ys ∧
      (ys ≠ [] → ∃ i, t.lead? parent ys = some i) ∧
      ∀ r rs, zs = r :: rs → t.child? ((t.lead? parent ys).or parent) r = none := by
  induction ss generalizing parent with
  | nil => exact ⟨[], [], rfl, rfl, rfl, by simp, by simp⟩
  | cons s ss ih =>
    rw [follow]
    cases hc : t.child? parent s with
    | none =>
      refine ⟨[], s :: ss, rfl, rfl, rfl, by simp, fun r rs h => ?_⟩
      obtain ⟨rfl, rfl⟩ := List.cons.inj h
      exact hc
    | some i =>
      obtain ⟨ys, zs, hss, hlen, hlast, hsome, hnext⟩ := ih (some i)
      -- Behind the first segment the walk is the one from `i`.
      have hstep : t.lead? parent (s :: ys) = (t.lead? (some i) ys).or (some i) := by
        cases ys with
        | nil => simp [lead?, hc, descend]
        | cons y ys =>
          obtain ⟨j, hj⟩ := hsome (by simp)
          rw [hj]
          simpa [lead?, hc, descend] using hj
      refine ⟨s :: ys, zs, by rw [hss, List.cons_append], by simpa using hlen, ?_, ?_, ?_⟩
      · change (i :: t.follow (some i) ss).getLast? = _
        rw [List.getLast?_cons, hlast, hstep]
        cases t.lead? (some i) ys <;> rfl
      · intro _
        rw [hstep]
        cases t.lead? (some i) ys <;> simp
      · intro r rs hzs
        have hnext := hnext r rs hzs
        rw [hstep]
        cases hys : t.lead? (some i) ys with
        | none => simpa [hys] using hnext
        | some j => simpa [hys] using hnext

/-- Laying a path over a tree either ends at a directory that is there, which gets the features, or
makes a chain of new directories where the path leaves the tree. -/
theorem overlay_cases (t : Tree) (parent : Option Nat) {path : String} (features : List String)
    (hpath : segments path ≠ []) :
    (∃ i, t.lead? parent (segments path) = some i ∧
        t.overlay parent path features = ⟨none, i, t.modify i (·.addFeatures features)⟩) ∨
      ∃ ys s ss, segments path = ys ++ s :: ss ∧
        (ys ≠ [] → ∃ i, t.lead? parent ys = some i) ∧
        t.child? ((t.lead? parent ys).or parent) s = none ∧
        t.overlay parent path features =
          ⟨some t.size, t.size + ss.length,
            ⟨t.nodes ++ chainNodes t.size ((t.lead? parent ys).or parent) features s ss⟩⟩ := by
  obtain ⟨ys, zs, hsplit, hlen, hlast, hsome, hnext⟩ := follow_split t parent (segments path)
  rw [overlay, followed_eq_follow, hlast, hlen]
  cases zs with
  | nil =>
    rw [List.append_nil] at hsplit
    obtain ⟨i, hi⟩ := hsome (hsplit ▸ hpath)
    exact Or.inl ⟨i, hsplit ▸ hi, by simp [hi, hsplit]⟩
  | cons s ss =>
    refine Or.inr ⟨ys, s, ss, hsplit, hsome, hnext s ss rfl, ?_⟩
    cases hlead : t.lead? parent ys with
    | none =>
      have hys : ys = [] := by
        by_contra hne
        obtain ⟨i, hi⟩ := hsome hne
        simp [hlead] at hi
      have hsegments : segments path = s :: ss := by simpa [hys] using hsplit
      simp [chainSegments, hsegments, chain_eq]
    | some i => simp [hsplit, chain_eq]

theorem skeleton_modify (t : Tree) (i : Nat) {f : Node → Node}
    (hname : ∀ n, (f n).name = n.name) (hparent : ∀ n, (f n).parent = n.parent) :
    (t.modify i f).skeleton = t.skeleton := by
  refine List.ext_getElem? fun j => ?_
  simp only [skeleton, modify, List.getElem?_map, List.getElem?_modify]
  cases t.nodes[j]? with
  | none => rfl
  | some n => by_cases h : i = j <;> simp [h, hname, hparent]

theorem node?_modify (t : Tree) (i : Nat) (f : Node → Node) (j : Nat) :
    (t.modify i f).node? j = if i = j then (t.node? j).map f else t.node? j := by
  rw [node?, modify, List.getElem?_modify, node?]
  split <;> simp

@[simp] theorem size_modify (t : Tree) (i : Nat) (f : Node → Node) :
    (t.modify i f).size = t.size := by
  simp [size, modify]

theorem modify_of_same (t : Tree) (i : Nat) {f : Node → Node} (hf : ∀ n, f n = n) :
    t.modify i f = t := by
  refine ext_node? fun j => ?_
  rw [node?_modify, funext hf]
  split <;> simp

theorem skeleton_append (t : Tree) (ns : List Node) :
    skeleton ⟨t.nodes ++ ns⟩ = t.skeleton ++ skeleton ⟨ns⟩ := by
  simp [skeleton]

/-- The links of a chain are found one after the other. -/
theorem descend_links {u : Tree} {base : List (String × Option Nat)} {cursor : Nat}
    {features ss : List String} (hu : u.skeleton = base ++ skeleton ⟨links cursor features ss⟩)
    (hlen : base.length = cursor + 1) (hbase : ∀ n ∈ base, ∀ p, n.2 = some p → p < cursor) :
    u.descend cursor ss = some (cursor + ss.length) := by
  induction ss generalizing base cursor with
  | nil => simp [descend]
  | cons s ss ih =>
    have hfirst : skeleton ⟨links cursor features (s :: ss)⟩ =
        (s, some cursor) :: skeleton ⟨links (cursor + 1) features ss⟩ := rfl
    have hnone : base.findIdx? (isChildNamed (some cursor) s) = none := by
      rw [List.findIdx?_eq_none_iff]
      intro n hn
      have hne : n.2 ≠ some cursor := fun h => (hbase n hn cursor h).false
      simp [isChildNamed, hne]
    have hchild : u.child? (some cursor) s = some (cursor + 1) := by
      rw [child?_eq_findIdx?, hu, hfirst, List.findIdx?_append, hnone]
      simp [List.findIdx?_cons, isChildNamed, hlen]
    have hrest : u.descend (cursor + 1) ss = some (cursor + 1 + ss.length) := by
      refine ih (by rw [hu, hfirst, List.append_cons]) (by simp [hlen]) ?_
      intro n hn p hp
      rcases List.mem_append.1 hn with hn | hn
      · have := hbase n hn p hp
        omega
      · have hn : n = (s, some cursor) := by simpa using hn
        have hp : cursor = p := by simpa [hn] using hp
        omega
    rw [descend, hchild, Option.bind_some, hrest, List.length_cons]
    congr 1
    omega

/-- The head of a chain and its links are found one after the other. -/
theorem lead?_chain {t : Tree} (ht : Founded t) {parent : Option Nat} (hp : t.Holds parent)
    (features : List String) {s : String} (ss : List String) (hs : t.child? parent s = none) :
    lead? ⟨t.nodes ++ chainNodes t.size parent features s ss⟩ parent (s :: ss) =
      some (t.size + ss.length) := by
  have hskeleton : skeleton ⟨t.nodes ++ chainNodes t.size parent features s ss⟩ =
      (t.skeleton ++ [(s, parent)]) ++ skeleton ⟨links t.size features ss⟩ := by
    rw [skeleton_append]
    simp [skeleton, chainNodes]
  have hchild : child? ⟨t.nodes ++ chainNodes t.size parent features s ss⟩ parent s =
      some t.size := by
    rw [child?_eq_findIdx?] at hs
    rw [child?_eq_findIdx?, hskeleton, List.append_assoc, List.findIdx?_append, hs]
    simp [List.findIdx?_cons, isChildNamed]
  rw [lead?, hchild, Option.bind_some]
  refine descend_links hskeleton (by simp) fun n hn p hnp => ?_
  rcases List.mem_append.1 hn with hn | hn
  · exact ht.lt_size hn hnp
  · have hn : n = (s, parent) := by simpa using hn
    exact hp p (by simpa [hn] using hnp)

theorem descend_lt {t : Tree} {i j : Nat} {ss : List String} (hi : i < t.size)
    (h : t.descend i ss = some j) : j < t.size := by
  induction ss generalizing i with
  | nil =>
    obtain rfl : i = j := by simpa [descend] using h
    exact hi
  | cons s ss ih =>
    obtain ⟨k, hk, hrest⟩ := Option.bind_eq_some_iff.1 h
    exact ih (child?_lt hk) hrest

theorem lead?_lt {t : Tree} {parent : Option Nat} {ss : List String} {i : Nat}
    (h : t.lead? parent ss = some i) : i < t.size := by
  cases ss with
  | nil => simp [lead?] at h
  | cons s ss =>
    obtain ⟨k, hk, hrest⟩ := Option.bind_eq_some_iff.1 h
    exact descend_lt (child?_lt hk) hrest

/-- Where a walk ends, or stays if it goes nowhere, there is a node. -/
theorem Holds.or_lead? {t : Tree} {parent : Option Nat} (hp : t.Holds parent) (ss : List String) :
    t.Holds ((t.lead? parent ss).or parent) := by
  cases hlead : t.lead? parent ss with
  | none => exact hp
  | some i => exact holds_some_iff.2 (lead?_lt hlead)

/-- Laying any path over a tree, an empty one too, ends at the directory that the path names or else
makes a chain of new directories, below a directory that is there or at the roots. -/
theorem overlay_eq {t : Tree} {parent : Option Nat} (hp : t.Holds parent) (path : String)
    (features : List String) :
    (∃ i, t.find? parent path = some i ∧
        t.overlay parent path features = ⟨none, i, t.modify i (·.addFeatures features)⟩) ∨
      t.find? parent path = none ∧ ∃ above s ss, t.Holds above ∧
        t.overlay parent path features = ⟨some t.size, t.size + ss.length,
          ⟨t.nodes ++ chainNodes t.size above features s ss⟩⟩ := by
  rw [find?_eq_lead?]
  by_cases hpath : segments path = []
  · refine Or.inr ⟨by rw [hpath, lead?], parent, path, [], hp, ?_⟩
    simp [overlay, followed_eq_follow, hpath, follow, chainSegments, chain_eq]
  · obtain hfound | ⟨ys, s, ss, hsegs, hys, hs, hm⟩ := overlay_cases t parent features hpath
    · exact Or.inl hfound
    · refine Or.inr ⟨?_, _, s, ss, hp.or_lead? ys, hm⟩
      rw [hsegs]
      cases ys with
      | nil => rw [List.nil_append, lead?, show t.child? parent s = none from hs, Option.bind_none]
      | cons y ys =>
        obtain ⟨i, hi⟩ := hys (by simp)
        rw [hi, Option.some_or] at hs
        rw [lead?_append hi (by simp), lead?, hs, Option.bind_none]

/-- The last node of a path is in the tree over which the path was laid. -/
theorem leaf_overlay_lt {t : Tree} {parent : Option Nat} (hp : t.Holds parent) (path : String)
    (features : List String) :
    (t.overlay parent path features).leaf < (t.overlay parent path features).tree.size := by
  obtain ⟨i, hi, hm⟩ | ⟨-, above, s, ss, -, hm⟩ := overlay_eq hp path features
  · rw [find?_eq_lead?] at hi
    rw [hm, size_modify]
    exact lead?_lt hi
  · rw [hm, size_chain]
    exact Nat.lt_succ_self _

theorem lt_of_mem_followed {t : Tree} {parent : Option Nat} {path : String} {i : Nat}
    (h : i ∈ t.followed parent path) : i < t.size := by
  obtain ⟨found, hfound, rfl⟩ := List.mem_filterMap.1 h
  obtain ⟨front, -, hfront⟩ := List.mem_map.1 ((List.takeWhile_sublist _).mem hfound)
  rw [find?_eq_lead?] at hfront
  exact lead?_lt hfront

@[simp] theorem addFeatures_name (n : Node) (features : List String) :
    (n.addFeatures features).name = n.name := rfl

@[simp] theorem addFeatures_parent (n : Node) (features : List String) :
    (n.addFeatures features).parent = n.parent := rfl

/-- A directory that is given features has its own and those. -/
theorem mem_features_addFeatures {n : Node} {features : List String} {f : String} :
    f ∈ (n.addFeatures features).features ↔ f ∈ n.features ∨ f ∈ features := by
  change f ∈ features.foldl (fun fs f => if f ∈ fs then fs else fs ++ [f]) n.features ↔ _
  generalize n.features = fs
  induction features generalizing fs with
  | nil => simp
  | cons g features ih =>
    rw [List.foldl_cons, ih, List.mem_cons]
    by_cases hg : g ∈ fs
    · rw [if_pos hg]
      exact ⟨fun h => h.imp_right Or.inr, fun h => h.elim Or.inl fun h => h.elim
        (fun h => Or.inl (h ▸ hg)) Or.inr⟩
    · rw [if_neg hg, List.mem_append, List.mem_singleton, or_assoc]

/-- Laying a path over a tree extends its skeleton, and afterwards the path leads to the last of its
directories. -/
theorem overlay_leads {t : Tree} (ht : Founded t) {parent : Option Nat} (hp : t.Holds parent)
    {path : String} (features : List String) (hpath : segments path ≠ []) :
    t.skeleton <+: (t.overlay parent path features).tree.skeleton ∧
      (t.overlay parent path features).tree.lead? parent (segments path) =
        some (t.overlay parent path features).leaf := by
  obtain ⟨i, hi, hm⟩ | ⟨ys, s, ss, hsegs, hys, hs, hm⟩ := overlay_cases t parent features hpath
  · have hsame : (t.modify i (·.addFeatures features)).skeleton = t.skeleton :=
      skeleton_modify t i (by simp) (by simp)
    rw [hm]
    exact ⟨by rw [hsame], lead?_mono (by rw [hsame]) hi⟩
  · rw [hm, hsegs]
    have hgrow : t.skeleton <+: skeleton ⟨t.nodes ++ chainNodes t.size
        ((t.lead? parent ys).or parent) features s ss⟩ := by
      rw [skeleton_append]
      exact List.prefix_append _ _
    refine ⟨hgrow, ?_⟩
    cases ys with
    | nil => exact lead?_chain ht hp features ss hs
    | cons y ys =>
      obtain ⟨i, hi⟩ := hys (by simp)
      rw [hi, Option.some_or] at hs hgrow ⊢
      rw [lead?_append (lead?_mono hgrow hi) (by simp)]
      exact lead?_chain ht (holds_some_iff.2 (lead?_lt hi)) features ss hs

/-- A link is the child of the node before it. -/
theorem parent_of_mem_links {cursor k : Nat} {features ss : List String}
    {n : String × Option Nat} (h : (skeleton ⟨links cursor features ss⟩)[k]? = some n) :
    n.2 = some (cursor + k) := by
  induction ss generalizing cursor k with
  | nil => simp [skeleton, links] at h
  | cons s ss ih =>
    change ((s, some cursor) :: skeleton ⟨links (cursor + 1) features ss⟩)[k]? = some n at h
    cases k with
    | zero =>
      obtain rfl : (s, some cursor) = n := by simpa using h
      rfl
    | succ k =>
      rw [ih (by simpa using h)]
      congr 1
      omega

/-- A node of a tree with a chain is an old one, the first of the chain, or a later one. -/
theorem chain_cases {t : Tree} {parent : Option Nat} {features : List String} {s : String}
    {ss : List String} {i : Nat} {name : String} {above : Option Nat}
    (h : (skeleton ⟨t.nodes ++ chainNodes t.size parent features s ss⟩)[i]? = some (name, above)) :
    (i < t.size ∧ t.skeleton[i]? = some (name, above)) ∨
      (i = t.size ∧ name = s ∧ above = parent) ∨ (t.size < i ∧ above = some (i - 1)) := by
  have hskeleton : skeleton ⟨t.nodes ++ chainNodes t.size parent features s ss⟩ =
      t.skeleton ++ (s, parent) :: skeleton ⟨links t.size features ss⟩ := skeleton_append t _
  rw [hskeleton] at h
  by_cases hi : i < t.size
  · rw [List.getElem?_append_left (by simpa using hi)] at h
    exact Or.inl ⟨hi, h⟩
  · rw [List.getElem?_append_right (by simpa using hi), length_skeleton] at h
    cases hk : i - t.size with
    | zero =>
      rw [hk] at h
      obtain ⟨hname, hparent⟩ : s = name ∧ parent = above := by simpa using h
      exact Or.inr (Or.inl ⟨by omega, hname.symm, hparent.symm⟩)
    | succ k =>
      rw [hk, List.getElem?_cons_succ] at h
      have habove := parent_of_mem_links h
      refine Or.inr (Or.inr ⟨by omega, habove.trans ?_⟩)
      congr 1
      omega

/-- A chain names parents that are there already. -/
theorem Founded.chain {t : Tree} (ht : Founded t) {parent : Option Nat} (hp : t.Holds parent)
    (features : List String) (s : String) (ss : List String) :
    Founded ⟨t.nodes ++ chainNodes t.size parent features s ss⟩ := by
  intro i p name h
  rcases chain_cases h with ⟨_, hold⟩ | ⟨rfl, _, habove⟩ | ⟨hgt, habove⟩
  · exact ht i p name hold
  · exact hp p habove.symm
  · have : p = i - 1 := Option.some.inj habove
    omega

theorem Founded.congr {t u : Tree} (ht : Founded t) (h : u.skeleton = t.skeleton) : Founded u := by
  intro i p name hu
  exact ht i p name (h ▸ hu)

theorem Founded.overlay {t : Tree} (ht : Founded t) {parent : Option Nat} (hp : t.Holds parent)
    {path : String} (features : List String) (hpath : segments path ≠ []) :
    Founded (t.overlay parent path features).tree := by
  obtain ⟨i, _, hm⟩ | ⟨ys, s, ss, _, _, _, hm⟩ := overlay_cases t parent features hpath
  · rw [hm]
    exact ht.congr (skeleton_modify t i (by simp) (by simp))
  · rw [hm]
    exact ht.chain (hp.or_lead? ys) features s ss

theorem skeleton_giveAttributes (m : Overlay) (attributes : Schema.Attributes) :
    (giveAttributes m attributes).skeleton = m.tree.skeleton := by
  unfold giveAttributes
  cases m.head with
  | none => exact skeleton_modify _ _ (fun _ => rfl) fun _ => rfl
  | some head => exact skeleton_modify _ _ (fun _ => rfl) fun _ => rfl

theorem skeleton_mark (t : Tree) (i : Nat) (id : Option String) (installDir : Bool) :
    (t.mark i id installDir).skeleton = t.skeleton :=
  skeleton_modify _ _ (fun _ => rfl) fun _ => rfl

theorem skeleton_hold (t : Tree) (i : Nat) (item : Item) :
    (t.modify i (hold · item)).skeleton = t.skeleton :=
  skeleton_modify t i (fun n => by cases item <;> rfl) fun n => by cases item <;> rfl

end Tree

end Installer.Directory
