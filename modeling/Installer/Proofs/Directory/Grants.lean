import Installer.Proofs.Directory.Frames
import Installer.Proofs.Schema.Writing

/-!
# Where attributes are promised

A declared directory grants its attributes to the nodes that were made for its path: to all of them
but the first, or to the only one. Where nothing was made, it grants them to the directory that was
there. The attributes that a tree keeps for its nodes are at any time what the grants so far promise,
the last grant of a name to a node first.
-/
namespace Installer.Directory

open Schema

/-- The attributes of a declared directory, with the nodes that were made for its path and the node
at which the path ends. -/
structure Grant where
  attributes : Attributes
  made : List Nat
  leaf : Nat

/-- The nodes that get the attributes. -/
def Grant.targets (g : Grant) : List Nat :=
  match g.made with
  | [] => [g.leaf]
  | [i] => [i]
  | _ :: rest => rest

/-- The value that a node gets for a name of its own element. -/
def Grant.value? (g : Grant) (i : Nat) (key : String) : Option String :=
  if i ∈ g.targets then g.attributes.own? key else none

/-- The value that a node has of a name after grants: that of the last grant with one for it. -/
def promised? (gs : List Grant) (i : Nat) (key : String) : Option String :=
  gs.reverse.findSome? (·.value? i key)

theorem promised?_append (gs hs : List Grant) (i : Nat) (key : String) :
    promised? (gs ++ hs) i key = (promised? hs i key).or (promised? gs i key) := by
  rw [promised?, List.reverse_append, List.findSome?_append]
  rfl

theorem promised?_singleton (g : Grant) (i : Nat) (key : String) :
    promised? [g] i key = g.value? i key := by
  simp [promised?]

namespace Tree

/-- The grants of a declaration in the order in which its directories are declared. -/
def grants (t : Tree) (parent : Option Nat) : Declaration → List Grant
  | ⟨path, id, features, attributes, installDir, items⟩ =>
      let (leaf, u) := t.opened parent path id features attributes installDir
      ⟨attributes, List.range' t.size (u.size - t.size), leaf⟩ :: grantsAmong u leaf items
where
  grantsAmong (t : Tree) (i : Nat) : List (ItemOf Declaration) → List Grant
    | [] => []
    | .directory d :: items =>
        grants t (some i) d ++ grantsAmong (t.declare (some i) d).2 i items
    | item :: items => grantsAmong (t.modify i (hold · item)) i items

theorem grantsAmong_cons (t : Tree) (i : Nat) {item : ItemOf Declaration}
    (h : ∀ d, item ≠ .directory d) (items : List (ItemOf Declaration)) :
    grants.grantsAmong t i (item :: items) =
      grants.grantsAmong (t.modify i (hold · item)) i items := by
  cases item with
  | directory d => exact absurd rfl (h d)
  | _ => rfl

/-- The value of a name that a tree keeps for the element of a node: what was given to the node, or
to the chain to which it belongs, or to the node and the chain behind it if nothing continues it. -/
def kept? (t : Tree) (i : Nat) (key : String) : Option String :=
  (t.node? i).bind fun n => (n.ownAttributes.own? key).or
    ((((t.chainHead? i).bind t.node?).bind (·.attributes.own? key)).or
      (if t.isContinued i then none else n.attributes.own? key))

theorem kept?_eq_none {t : Tree} {i : Nat} (hi : t.size ≤ i) (key : String) :
    t.kept? i key = none := by
  rw [kept?, node?, List.getElem?_eq_none hi, Option.bind_none]

/-- Attributes of its own win over all others of a node, and no other node gets them. -/
theorem kept?_modify (t : Tree) {j : Nat} (hj : j < t.size) {f : Node → Node} (as : Attributes)
    (hcontinued : ∀ n, (f n).continued? = n.continued?)
    (hattributes : ∀ n, (f n).attributes = n.attributes)
    (hown : ∀ n, (f n).ownAttributes = n.ownAttributes.extend as) (i : Nat) (key : String) :
    (t.modify j f).kept? i key =
      (if i = j then as.own? key else none).or (t.kept? i key) := by
  have hcs := continuations_modify t j hcontinued
  have hhead : (fun k => ((t.modify j f).node? k).bind (·.attributes.own? key)) =
      fun k => (t.node? k).bind (·.attributes.own? key) := by
    funext k
    rw [node?_modify]
    cases t.node? k with
    | none => simp
    | some n => by_cases hjk : j = k <;> simp [hjk, hattributes]
  rw [kept?, kept?, chainHead?_congr hcs, isContinued_congr hcs, Option.bind_assoc,
    Option.bind_assoc, hhead, node?_modify]
  by_cases hij : i = j
  · subst hij
    obtain ⟨n, hn⟩ := exists_node? hj
    simp [hn, hattributes, hown, own?_extend, Option.or_assoc]
  · simp [hij, Ne.symm hij]

/-- Nodes that are not changed keep their values, whatever is declared elsewhere. -/
theorem Keeps.kept? {t u : Tree} {xs : List Nat} (h : Keeps t xs u) (ht : Founded t) {i : Nat}
    (hi : i < t.size) (hxs : i ∉ xs) (key : String) : u.kept? i key = t.kept? i key := by
  obtain ⟨n, hn⟩ := exists_node? hi
  obtain ⟨m, hm, _, hsame⟩ := h.nodes i n hn
  have hhead : ((t.chainHead? i).bind u.node?).bind (·.attributes.own? key) =
      ((t.chainHead? i).bind t.node?).bind (·.attributes.own? key) := by
    cases hchain : t.chainHead? i with
    | none => rfl
    | some k =>
      have hk := chainHead?_lt ht hchain
      obtain ⟨l, hl⟩ := exists_node? (t := t) (i := k) (by omega)
      obtain ⟨l', hl', hkeeps, _⟩ := h.nodes k l hl
      rw [Option.bind_some, Option.bind_some, hl, hl', Option.bind_some, Option.bind_some,
        hkeeps.attributes]
  rw [Tree.kept?, Tree.kept?, h.chainHead? hi, h.isContinued hi, hn, hm, hsame hxs,
    Option.bind_some, Option.bind_some, hhead]

section chain

variable {t : Tree} {above : Option Nat} {features : List String} {s : String} {ss : List String}

/-- The first node of a new chain is continued by the second. -/
theorem isContinued_first (ht : Founded t) :
    isContinued ⟨t.nodes ++ chainNodes t.size above features s ss⟩ t.size = !ss.isEmpty := by
  have hold : some t.size ∉ t.continuations := by
    intro hmem
    obtain ⟨i, hi⟩ := List.mem_iff_getElem?.1 hmem
    have hlt := (List.getElem?_eq_some_iff.1 hi).1
    rw [length_continuations] at hlt
    obtain ⟨n, hn⟩ := exists_node? hlt
    have := ht.continued?_lt hn (Option.some.inj ((getElem?_continuations hn).symm.trans hi))
    omega
  rw [Bool.eq_iff_iff, isContinued_iff, continuations_chain]
  cases ss with
  | nil => simp [hold]
  | cons r ss => simp [hold, List.range'_succ]

/-- Of a new chain all nodes but the first are targets, or the first if it is the only one. -/
theorem mem_targets_chain {as : Attributes} {first more leaf i : Nat} :
    i ∈ Grant.targets ⟨as, List.range' first (more + 1), leaf⟩ ↔
      (more = 0 ∧ i = first) ∨ (first < i ∧ i ≤ first + more) := by
  cases more with
  | zero =>
    have : Grant.targets ⟨as, List.range' first (0 + 1), leaf⟩ = [first] := rfl
    rw [this, List.mem_singleton]
    omega
  | succ more =>
    have : Grant.targets ⟨as, List.range' first (more + 1 + 1), leaf⟩ =
        List.range' (first + 1) (more + 1) := rfl
    rw [this, List.mem_range'_1]
    omega

/-- Attributes that a new chain gets at its first node are kept for the others, or for the first if
there are no others. -/
theorem kept?_chain (ht : Founded t) (ha : t.Holds above) (as : Attributes) (i : Nat)
    (key : String) :
    ((⟨t.nodes ++ chainNodes t.size above features s ss⟩ : Tree).modify t.size
        (·.given as)).kept? i key =
      (Grant.value? ⟨as, List.range' t.size (ss.length + 1), t.size + ss.length⟩ i key).or
        (t.kept? i key) := by
  let u : Tree := ⟨t.nodes ++ chainNodes t.size above features s ss⟩
  have hcs : (u.modify t.size (·.given as)).continuations = u.continuations :=
    continuations_modify u t.size fun _ => rfl
  have hfirst : (u.modify t.size (·.given as)).node? t.size =
      some (({ name := s, parent := above, features } : Node).given as) := by
    rw [node?_modify, if_pos rfl, node?, List.getElem?_append_right (by simp [size])]
    simp [size, chainNodes]
  have hgiven : ((u.modify t.size (·.given as)).node? t.size).bind (·.attributes.own? key) =
      as.own? key := by
    rw [hfirst]
    simp [Node.given, own?_extend]
  rw [Grant.value?]
  simp only [mem_targets_chain]
  rcases Nat.lt_trichotomy i t.size with hi | rfl | hi
  · have hkeeps := Keeps.chain ht ha features s ss (f := (·.given as)) (fun _ => rfl) (fun _ => rfl)
      fun _ => rfl
    rw [if_neg (by omega), Option.none_or]
    exact hkeeps.kept? ht hi (by simp) key
  · -- The first node keeps its attributes for itself only where nothing continues it.
    rw [kept?, hfirst, chainHead?_congr hcs, chainHead?_first, isContinued_congr hcs,
      isContinued_first ht, kept?_eq_none le_rfl]
    cases ss with
    | nil => simp [Node.given, own?_extend]
    | cons r ss => simp [Node.given]
  · rw [kept?_eq_none hi.le, Option.or_none]
    by_cases hlt : i ≤ t.size + ss.length
    · obtain ⟨k, rfl⟩ := Nat.exists_eq_add_of_le (Nat.succ_le_of_lt hi)
      have hk : k < ss.length := by omega
      obtain ⟨n, hn⟩ : ∃ n, (links t.size features ss)[k]? = some n :=
        ⟨_, List.getElem?_eq_getElem (by rwa [length_links])⟩
      have hnode : (u.modify t.size (·.given as)).node? (t.size.succ + k) = some n := by
        rw [node?_modify, if_neg (by omega), node?,
          List.getElem?_append_right (show t.nodes.length ≤ t.size.succ + k from hi.le),
          show t.size.succ + k - t.nodes.length = k + 1 by rw [← size]; omega]
        exact hn
      obtain ⟨name, parent, rfl⟩ := mem_links (List.mem_of_getElem? hn)
      rw [kept?, hnode, chainHead?_congr hcs, chainHead?_chain hk, Option.bind_some,
        Option.bind_some, hgiven, if_pos (Or.inr ⟨hi, hlt⟩)]
      simp
    · rw [if_neg (by omega), kept?_eq_none]
      rw [size_modify, size_chain]
      omega

end chain

/-- Changes that leave attributes and chains alone leave the values of all nodes. -/
theorem kept?_modify_of_same (t : Tree) {j : Nat} (hj : j < t.size) {f : Node → Node}
    (hcontinued : ∀ n, (f n).continued? = n.continued?)
    (hattributes : ∀ n, (f n).attributes = n.attributes)
    (hown : ∀ n, (f n).ownAttributes = n.ownAttributes) (i : Nat) (key : String) :
    (t.modify j f).kept? i key = t.kept? i key := by
  rw [kept?_modify t hj .empty hcontinued hattributes hown, own?_empty]
  split <;> rfl

/-- Opening a directory grants its attributes and changes no other value. -/
theorem kept?_opened {t : Tree} (ht : Founded t) {parent : Option Nat} (hp : t.Holds parent)
    (path : String) (id : Option String) (features : List String) (attributes : Attributes)
    (installDir : Bool) (i : Nat) (key : String) :
    (t.opened parent path id features attributes installDir).2.kept? i key =
      (Grant.value? ⟨attributes, List.range' t.size
          ((t.opened parent path id features attributes installDir).2.size - t.size),
        (t.opened parent path id features attributes installDir).1⟩ i key).or (t.kept? i key) := by
  obtain ⟨leaf, -, hlt, hopened⟩ | ⟨-, above, s, ss, ha, hopened⟩ :=
    opened_cases path id features attributes installDir hp
  · rw [hopened,
      kept?_modify_of_same (f := (·.marked id installDir)) _ (by simpa using hlt) (fun _ => rfl)
        (fun _ => rfl) fun _ => rfl,
      kept?_modify (f := (·.givenOwn attributes)) _ (by simpa using hlt) attributes (fun _ => rfl)
        (fun _ => rfl) fun _ => rfl,
      kept?_modify_of_same (f := (·.addFeatures features)) _ hlt (fun _ => rfl) (fun _ => rfl)
        fun _ => rfl]
    simp [Grant.value?, Grant.targets]
  · have hmade : t.size + ss.length + 1 - t.size = ss.length + 1 := by omega
    have hlt : t.size + ss.length <
        size ⟨t.nodes ++ chainNodes t.size above features s ss⟩ := by
      rw [size_chain]
      exact Nat.lt_succ_self _
    rw [hopened, kept?_modify_of_same (f := (·.marked id installDir)) _ (by simpa using hlt)
      (fun _ => rfl) (fun _ => rfl) fun _ => rfl, size_modify, size_modify, size_chain, hmade]
    exact kept?_chain ht ha attributes i key

/-- What a declaration grants, and the items of a directory, is kept over what was there. -/
theorem kept?_declare_and_items (key : String) :
    (∀ (d : Declaration) (t : Tree) (parent : Option Nat), Founded t → t.Holds parent → ∀ i,
        (t.declare parent d).2.kept? i key =
          (promised? (t.grants parent d) i key).or (t.kept? i key)) ∧
      ∀ (items : List (ItemOf Declaration)) (t : Tree) (j : Nat), Founded t → j < t.size → ∀ i,
        (declare.declareItems t j items).kept? i key =
          (promised? (grants.grantsAmong t j items) i key).or (t.kept? i key) := by
  refine Declaration.induction ?declaration ?nil ?directory ?other
  case declaration =>
    intro path id features attributes installDir items ih t parent ht hp i
    obtain ⟨hopened, hlt, -, -⟩ :=
      keeps_opened path id features attributes installDir ht hp
    have hgrants : t.grants parent ⟨path, id, features, attributes, installDir, items⟩ =
        [⟨attributes, List.range' t.size
            ((t.opened parent path id features attributes installDir).2.size - t.size),
          (t.opened parent path id features attributes installDir).1⟩] ++
        grants.grantsAmong (t.opened parent path id features attributes installDir).2
          (t.opened parent path id features attributes installDir).1 items := rfl
    rw [declare_eq_declareItems, ih _ _ hopened.founded hlt, kept?_opened ht hp, hgrants,
      promised?_append, promised?_singleton, Option.or_assoc]
  case nil =>
    intro t j _ _ i
    rfl
  case directory =>
    intro d items hd hitems t j ht hj i
    have hfirst := keeps_declare_and_items.1 d t (some j) ht (holds_some_iff.2 hj)
    have hsize := hfirst.size_le
    rw [declare.declareItems, hitems _ j hfirst.founded (by omega),
      hd t (some j) ht (holds_some_iff.2 hj), grants.grantsAmong, promised?_append,
      Option.or_assoc]
  case other =>
    intro item items hitem ih t j ht hj i
    have hkeeps := Keeps.modify ht j (Node.Keeps.hold · item)
    have hown : ∀ n : Node, (hold n item).ownAttributes = n.ownAttributes := fun n => by
      cases item <;> rfl
    rw [declareItems_cons hitem, grantsAmong_cons t j hitem,
      ih _ j hkeeps.founded (by rwa [size_modify]),
      kept?_modify_of_same t hj (fun n => (Node.Keeps.hold n item).continued?)
        (fun n => (Node.Keeps.hold n item).attributes) hown]

end Tree

end Installer.Directory
