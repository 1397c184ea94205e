import Installer.Proofs.Directory.Growth
import Mathlib.Data.List.Nodup

/-!
# Children and chains

The children of a node, the node that it continues and the head of its chain are not stored but read
off all nodes. When nodes are added behind the others, children are added behind the others too, and
the chains of the nodes that were there stay as they are as long as no new node continues one of
them.
-/
namespace Installer.Directory.Tree

/-- The positions, counted from `k`, at which a skeleton has children of `parent`. -/
def levelFrom (parent : Option Nat) (k : Nat) (ns : List (String × Option Nat)) : List Nat :=
  (ns.zipIdx k).filterMap fun n => if n.1.2 = parent then some n.2 else none

theorem level_eq_levelFrom (t : Tree) (parent : Option Nat) :
    t.level parent = levelFrom parent 0 t.skeleton := by
  rw [level, levelFrom, skeleton, List.zipIdx_map, List.filterMap_map]
  rfl

theorem levelFrom_append (parent : Option Nat) (k : Nat) (ns ms : List (String × Option Nat)) :
    levelFrom parent k (ns ++ ms) =
      levelFrom parent k ns ++ levelFrom parent (k + ns.length) ms := by
  rw [levelFrom, List.zipIdx_append, List.filterMap_append]
  rfl

theorem levelFrom_sublist (parent : Option Nat) (k : Nat) (ns : List (String × Option Nat)) :
    (levelFrom parent k ns).Sublist (List.range' k ns.length) := by
  induction ns generalizing k with
  | nil => exact List.nil_sublist _
  | cons n ns ih =>
    rw [levelFrom, List.zipIdx_cons, List.filterMap_cons, List.length_cons, List.range'_succ]
    by_cases hn : n.2 = parent
    · rw [if_pos hn]
      exact (ih (k + 1)).cons_cons k
    · rw [if_neg hn]
      exact (ih (k + 1)).cons k

theorem le_of_mem_levelFrom {parent : Option Nat} {k i : Nat} {ns : List (String × Option Nat)}
    (h : i ∈ levelFrom parent k ns) : k ≤ i :=
  (List.mem_range'_1.1 ((levelFrom_sublist parent k ns).mem h)).1

/-- The nodes of a level stand in the order of their making. -/
theorem pairwise_level (t : Tree) (parent : Option Nat) : (t.level parent).Pairwise (· < ·) := by
  rw [level_eq_levelFrom]
  exact (List.pairwise_lt_range' (s := 0) (n := t.skeleton.length)).sublist
    (levelFrom_sublist parent 0 t.skeleton)

/-- The nodes of a level are those with its parent. -/
theorem mem_level_iff {t : Tree} {parent : Option Nat} {i : Nat} :
    i ∈ t.level parent ↔ ∃ name, t.skeleton[i]? = some (name, parent) := by
  rw [level, List.mem_filterMap]
  constructor
  · rintro ⟨⟨n, k⟩, hmem, hlevel⟩
    by_cases hparent : n.parent = parent
    · obtain rfl : k = i := by simpa [hparent] using hlevel
      have hn : t.nodes[k]? = some n := List.mem_zipIdx_iff_getElem?.1 hmem
      exact ⟨n.name, by rw [skeleton, List.getElem?_map, hn, Option.map_some, hparent]⟩
    · simp [hparent] at hlevel
  · rintro ⟨name, hi⟩
    rw [skeleton, List.getElem?_map] at hi
    obtain ⟨n, hn, hname⟩ := Option.map_eq_some_iff.1 hi
    have hparent : n.parent = parent := congrArg Prod.snd hname
    exact ⟨(n, i), List.mem_zipIdx_iff_getElem?.2 hn, by rw [if_pos hparent]⟩

theorem lt_of_mem_level {t : Tree} {parent : Option Nat} {i : Nat} (h : i ∈ t.level parent) :
    i < t.size := by
  obtain ⟨name, hi⟩ := mem_level_iff.1 h
  simpa using (List.getElem?_eq_some_iff.1 hi).1

/-- A tree that grows gets new children behind those that are there. -/
theorem level_of_grows {t u : Tree} (h : t.skeleton <+: u.skeleton) (parent : Option Nat) :
    ∃ new, u.level parent = t.level parent ++ new ∧ ∀ i ∈ new, t.size ≤ i := by
  obtain ⟨more, hmore⟩ := h
  refine ⟨levelFrom parent t.size more, ?_, fun i => le_of_mem_levelFrom⟩
  rw [level_eq_levelFrom, level_eq_levelFrom, ← hmore, levelFrom_append, Nat.zero_add,
    length_skeleton]

theorem eq_of_mem_level {t : Tree} {p q : Option Nat} {i : Nat} (hp : i ∈ t.level p)
    (hq : i ∈ t.level q) : p = q := by
  obtain ⟨name, hi⟩ := mem_level_iff.1 hp
  obtain ⟨other, hi'⟩ := mem_level_iff.1 hq
  rw [hi] at hi'
  exact congrArg Prod.snd (Option.some.inj hi')

/-- Every node is a root or a child of one node, and is so once. -/
theorem levels_perm {t : Tree} (ht : Founded t) :
    (t.roots ++ (List.range t.size).flatMap t.children).Perm (List.range t.size) := by
  have hnodup : ∀ parent, (t.level parent).Nodup := fun parent =>
    (t.pairwise_level parent).imp fun h => h.ne
  rw [List.perm_ext_iff_of_nodup ?nodup List.nodup_range]
  case nodup =>
    refine List.nodup_append.2 ⟨hnodup none, List.nodup_flatMap.2 ⟨fun i _ => hnodup (some i), ?_⟩,
      ?_⟩
    · refine List.nodup_range.pairwise_of_forall_ne fun i _ j _ hij => ?_
      intro k hi hj
      exact hij (Option.some.inj (eq_of_mem_level hi hj))
    · rintro i hi _ hj rfl
      obtain ⟨j, -, hj⟩ := List.mem_flatMap.1 hj
      cases eq_of_mem_level hi hj
  intro i
  rw [List.mem_append, List.mem_flatMap, List.mem_range]
  constructor
  · rintro (hi | ⟨j, -, hi⟩)
    · exact lt_of_mem_level hi
    · exact lt_of_mem_level hi
  · intro hi
    obtain ⟨n, hn⟩ := exists_node? hi
    have hlevel : i ∈ t.level n.parent := mem_level_iff.2 ⟨n.name, getElem?_skeleton hn⟩
    cases hp : n.parent with
    | none =>
      rw [hp] at hlevel
      exact Or.inl hlevel
    | some p =>
      rw [hp] at hlevel
      have hlt := ht i p n.name (hp ▸ getElem?_skeleton hn)
      exact Or.inr ⟨p, List.mem_range.2 (by omega), hlevel⟩

theorem level_congr {t u : Tree} (h : u.skeleton = t.skeleton) (parent : Option Nat) :
    u.level parent = t.level parent := by
  rw [level_eq_levelFrom, level_eq_levelFrom, h]

theorem skeleton_push (t : Tree) (n : Node) :
    (t.push n).skeleton = t.skeleton ++ [(n.name, n.parent)] :=
  skeleton_append t [n]

/-- A new node is the last child of its parent. -/
theorem level_push (t : Tree) (n : Node) (parent : Option Nat) :
    (t.push n).level parent = t.level parent ++ if n.parent = parent then [t.size] else [] := by
  rw [level_eq_levelFrom, level_eq_levelFrom, skeleton_push, levelFrom_append, length_skeleton,
    Nat.zero_add]
  congr 1
  by_cases h : n.parent = parent <;> simp [levelFrom, h]

theorem Founded.push {t : Tree} (ht : Founded t) {n : Node} (hp : t.Holds n.parent) :
    Founded (t.push n) := by
  intro i p name h
  rw [skeleton_push] at h
  rcases Nat.lt_trichotomy i t.size with hi | rfl | hi
  · rw [List.getElem?_append_left (by simpa using hi)] at h
    exact ht i p name h
  · rw [List.getElem?_append_right (by simp), length_skeleton, Nat.sub_self] at h
    exact hp p (congrArg Prod.snd (Option.some.inj h))
  · rw [List.getElem?_eq_none (by simp; omega)] at h
    cases h

/-- For each node the node that it continues, if any. -/
def continuations (t : Tree) : List (Option Nat) :=
  t.nodes.map Node.continued?

@[simp] theorem length_continuations (t : Tree) : t.continuations.length = t.size := by
  simp [continuations, size]

theorem getElem?_continuations {t : Tree} {i : Nat} {n : Node} (h : t.node? i = some n) :
    t.continuations[i]? = some n.continued? := by
  rw [continuations, List.getElem?_map]
  exact congrArg (Option.map _) h

theorem continuations_modify (t : Tree) (i : Nat) {f : Node → Node}
    (hf : ∀ n, (f n).continued? = n.continued?) :
    (t.modify i f).continuations = t.continuations := by
  refine List.ext_getElem? fun j => ?_
  simp only [continuations, modify, List.getElem?_map, List.getElem?_modify]
  cases t.nodes[j]? with
  | none => rfl
  | some n => by_cases h : i = j <;> simp [h, hf]

/-- The first node of a new chain continues none, every other one the node before it. -/
theorem continuations_chain (t : Tree) (above : Option Nat) (features : List String) (s : String)
    (ss : List String) : continuations ⟨t.nodes ++ chainNodes t.size above features s ss⟩ =
      t.continuations ++ none :: (List.range' t.size ss.length).map some := by
  have hlinks : ∀ (cursor : Nat) (ss : List String),
      (links cursor features ss).map Node.continued? =
        (List.range' cursor ss.length).map some := by
    intro cursor ss
    induction ss generalizing cursor with
    | nil => rfl
    | cons s ss ih =>
      rw [links, List.map_cons, ih, List.length_cons, List.range'_succ, List.map_cons]
      rfl
  rw [continuations, List.map_append, chainNodes, List.map_cons, hlinks]
  rfl

theorem isContinued_iff {t : Tree} {i : Nat} :
    t.isContinued i = true ↔ some i ∈ t.continuations := by
  simp [isContinued, continuations, List.any_eq_true]

/-- The head of a node's chain from the node that it continues and the heads before it. -/
def headFrom (heads : List (Option Nat)) (c : Option Nat) : Option Nat :=
  c.map fun p => ((heads[p]?).join).getD p

theorem chainHeads_eq_accumulate (t : Tree) :
    t.chainHeads = accumulate headFrom t.continuations := by
  rw [chainHeads, accumulate, continuations, List.foldl_map]
  rfl

/-- Heads of chains stay as they are when nodes are added. -/
theorem chainHead?_of_grows {t u : Tree} (h : t.continuations <+: u.continuations) {i : Nat}
    (hi : i < t.size) : u.chainHead? i = t.chainHead? i := by
  rw [chainHead?, chainHead?, chainHeads_eq_accumulate, chainHeads_eq_accumulate,
    getElem?_accumulate_mono headFrom h (by simpa using hi)]

/-- The head of a node's chain is that of the node that it continues, or else this node itself. -/
theorem chainHead?_eq {t : Tree} {i : Nat} {c : Option Nat} (hi : t.continuations[i]? = some c)
    (hc : ∀ p, c = some p → p < i) :
    t.chainHead? i = c.map fun p => (t.chainHead? p).getD p := by
  rw [chainHead?, chainHeads_eq_accumulate, getElem?_accumulate headFrom hi, Option.join_some,
    headFrom]
  cases c with
  | none => rfl
  | some p =>
    have hlt := (List.getElem?_eq_some_iff.1 hi).1
    rw [Option.map_some, Option.map_some,
      getElem?_accumulate_take headFrom _ (hc p rfl) (by omega), ← chainHeads_eq_accumulate]
    rfl

theorem Founded.continued?_lt {t : Tree} (ht : Founded t) {i p : Nat} {n : Node}
    (hn : t.node? i = some n) (hp : n.continued? = some p) : p < i := by
  have hparent : n.parent = some p := by
    unfold Node.continued? at hp
    split at hp
    · exact hp
    · simp at hp
  exact ht i p n.name (hparent ▸ getElem?_skeleton hn)

/-- The head of a chain comes before the nodes that continue it. -/
theorem chainHead?_lt {t : Tree} (ht : Founded t) {i h : Nat} (hi : t.chainHead? i = some h) :
    h < i := by
  induction i using Nat.strongRecOn generalizing h with
  | ind i ih =>
    by_cases hlt : i < t.size
    · obtain ⟨n, hn⟩ := exists_node? hlt
      have hfounded : ∀ p, n.continued? = some p → p < i := fun p => ht.continued?_lt hn
      rw [chainHead?_eq (getElem?_continuations hn) hfounded, Option.map_eq_some_iff] at hi
      obtain ⟨p, hp, hhead⟩ := hi
      have hpi := hfounded p hp
      cases hph : t.chainHead? p with
      | none =>
        rw [hph, Option.getD_none] at hhead
        omega
      | some k =>
        have hk := ih p hpi hph
        rw [hph, Option.getD_some] at hhead
        omega
    · have hnone : t.chainHead? i = none := by
        rw [chainHead?, chainHeads_eq_accumulate, List.getElem?_eq_none (by simpa using hlt),
          Option.join_none]
      rw [hnone] at hi
      simp at hi

theorem chainHead?_congr {t u : Tree} (h : u.continuations = t.continuations) (i : Nat) :
    u.chainHead? i = t.chainHead? i := by
  rw [chainHead?, chainHead?, chainHeads_eq_accumulate, chainHeads_eq_accumulate, h]

theorem isContinued_congr {t u : Tree} (h : u.continuations = t.continuations) (i : Nat) :
    u.isContinued i = t.isContinued i := by
  rw [Bool.eq_iff_iff, isContinued_iff, isContinued_iff, h]

section chain

variable {t : Tree} {above : Option Nat} {features : List String} {s : String} {ss : List String}

theorem chainHead?_first :
    chainHead? ⟨t.nodes ++ chainNodes t.size above features s ss⟩ t.size = none := by
  refine (chainHead?_eq (c := none) ?_ (by simp)).trans rfl
  rw [continuations_chain, List.getElem?_append_right (by simp)]
  simp

/-- The nodes behind the first of a new chain have it for their head. -/
theorem chainHead?_chain {k : Nat} (hk : k < ss.length) :
    chainHead? ⟨t.nodes ++ chainNodes t.size above features s ss⟩ (t.size + 1 + k) =
      some t.size := by
  induction k with
  | zero =>
    have hnext : (continuations ⟨t.nodes ++ chainNodes t.size above features s ss⟩)[t.size + 1]? =
        some (some t.size) := by
      rw [continuations_chain, List.getElem?_append_right (by simp)]
      simp [hk]
    rw [Nat.add_zero, chainHead?_eq hnext (by simp), Option.map_some, chainHead?_first,
      Option.getD_none]
  | succ k ih =>
    have hindex : t.size + 1 + (k + 1) - t.continuations.length = k + 2 := by
      rw [length_continuations]
      omega
    have hnext : (continuations ⟨t.nodes ++ chainNodes t.size above features s ss⟩)[
        t.size + 1 + (k + 1)]? = some (some (t.size + 1 + k)) := by
      rw [continuations_chain, List.getElem?_append_right (by rw [length_continuations]; omega),
        hindex, List.getElem?_cons_succ, List.getElem?_map, List.getElem?_range' hk,
        Option.map_some]
      congr 2
      omega
    rw [chainHead?_eq hnext (by simp), Option.map_some, ih (by omega), Option.getD_some]

/-- From the last node of a new chain its first one is found again. -/
theorem chainHead?_last :
    (chainHead? ⟨t.nodes ++ chainNodes t.size above features s ss⟩ (t.size + ss.length)).getD
      (t.size + ss.length) = t.size := by
  cases ss with
  | nil =>
    rw [List.length_nil, Nat.add_zero, chainHead?_first]
    rfl
  | cons r ss =>
    have hlt : ss.length < (r :: ss).length := Nat.lt_succ_self _
    rw [List.length_cons, show t.size + (ss.length + 1) = t.size + 1 + ss.length by omega,
      chainHead?_chain hlt]
    rfl

end chain

end Installer.Directory.Tree
