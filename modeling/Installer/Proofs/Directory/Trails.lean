import Installer.Proofs.Directory.Levels
import Installer.Proofs.Directory.Names

/-!
# Trails and look-ups

The trail of a node is the row of names on the way to it. In a tree without two siblings of one name
a row of segments leads to a node exactly when it spells the node's trail, so a tree is determined
by the trails of its nodes.
-/
namespace Installer.Directory.Tree

/-- The names on the way to a node, its own name last. -/
def trail (t : Tree) (i : Nat) : List String :=
  (t.trails[i]?).getD []

/-- The names on the way to the children of `parent`, or to the roots. -/
def way (t : Tree) (parent : Option Nat) : List String :=
  (parent.map t.trail).getD []

theorem way_some (t : Tree) (i : Nat) : t.way (some i) = t.trail i := rfl

/-- A node's trail from its name and parent and the trails before it. -/
def trailFrom (trails : List (List String)) (n : String × Option Nat) : List String :=
  ((n.2.bind (trails[·]?)).getD []) ++ [n.1]

theorem trails_eq_accumulate (t : Tree) : t.trails = accumulate trailFrom t.skeleton := by
  rw [trails, accumulate, skeleton, List.foldl_map]
  rfl

/-- A node's trail is that of its parent with its own name behind it. -/
theorem trail_eq {t : Tree} (ht : Founded t) {i : Nat} {name : String} {parent : Option Nat}
    (hi : t.skeleton[i]? = some (name, parent)) : t.trail i = t.way parent ++ [name] := by
  rw [trail, trails_eq_accumulate, getElem?_accumulate trailFrom hi, Option.getD_some, trailFrom]
  cases parent with
  | none => rfl
  | some p =>
    have hlt := (List.getElem?_eq_some_iff.1 hi).1
    rw [Option.bind_some, getElem?_accumulate_take trailFrom _ (ht i p name hi) (by omega),
      ← trails_eq_accumulate]
    rfl

/-- No two nodes with the same parent, nor two roots, have names of one directory. -/
def Apart (t : Tree) : Prop :=
  ∀ (i j : Nat) (name other : String) (parent : Option Nat),
    t.skeleton[i]? = some (name, parent) → t.skeleton[j]? = some (other, parent) →
      sameName name other = true → i = j

theorem apart_empty : Apart .empty := by
  intro i j name other parent h
  simp [skeleton, empty] at h

theorem Apart.congr {t u : Tree} (ht : Apart t) (h : u.skeleton = t.skeleton) : Apart u := by
  intro i j name other parent hi hj
  exact ht i j name other parent (h ▸ hi) (h ▸ hj)

/-- Nodes of one level that name the same directory are one. -/
theorem Apart.level {t : Tree} (h : Apart t) {parent : Option Nat} {i j : Nat}
    (hi : i ∈ t.level parent) (hj : j ∈ t.level parent) {n m : Node} (hn : t.node? i = some n)
    (hm : t.node? j = some m) (hname : sameName n.name m.name = true) : i = j := by
  obtain ⟨name, hi⟩ := mem_level_iff.1 hi
  obtain ⟨other, hj⟩ := mem_level_iff.1 hj
  have hni := Option.some.inj ((getElem?_skeleton hn).symm.trans hi)
  have hmj := Option.some.inj ((getElem?_skeleton hm).symm.trans hj)
  rw [Prod.mk.injEq] at hni hmj
  rw [hni.1, hmj.1] at hname
  exact h i j name other parent hi hj hname

theorem sameName_symm {a b : String} (h : sameName a b = true) : sameName b a = true :=
  sameName_iff.2 (sameName_iff.1 h).symm

theorem sameName_trans {a b c : String} (h : sameName a b = true) (h' : sameName b c = true) :
    sameName a c = true :=
  sameName_iff.2 ((sameName_iff.1 h).trans (sameName_iff.1 h'))

theorem isChildNamed_iff {parent : Option Nat} {s : String} {n : String × Option Nat} :
    isChildNamed parent s n = true ↔ n.2 = parent ∧ sameName n.1 s = true := by
  rw [isChildNamed, Bool.and_eq_true, beq_iff_eq]

/-- Where no two siblings have names of one directory, the first child of a name is the only one. -/
theorem child?_eq_some_iff {t : Tree} (ht : Apart t) {parent : Option Nat} {s : String} {i : Nat} :
    t.child? parent s = some i ↔
      ∃ name, t.skeleton[i]? = some (name, parent) ∧ sameName name s = true := by
  rw [child?_eq_findIdx?]
  constructor
  · intro h
    obtain ⟨hlt, hnamed, _⟩ := List.findIdx?_eq_some_iff_getElem.1 h
    obtain ⟨hparent, hname⟩ := isChildNamed_iff.1 hnamed
    exact ⟨_, by rw [List.getElem?_eq_getElem hlt, ← hparent], hname⟩
  · rintro ⟨name, hi, hname⟩
    obtain ⟨hlt, hget⟩ := List.getElem?_eq_some_iff.1 hi
    refine List.findIdx?_eq_some_iff_getElem.2 ⟨hlt, ?_, ?_⟩
    · exact isChildNamed_iff.2 ⟨by rw [hget], by rw [hget]; exact hname⟩
    · intro j hj hnamed
      obtain ⟨hparent, hother⟩ := isChildNamed_iff.1 hnamed
      have hfirst : t.skeleton[j]? = some (t.skeleton[j].1, parent) := by
        rw [List.getElem?_eq_getElem (by omega), ← hparent]
      have := ht j i _ _ parent hfirst hi (sameName_trans hother (sameName_symm hname))
      omega

/-- The leading rows of segments that lead somewhere lead somewhere too. -/
theorem lead?_front {t : Tree} {parent : Option Nat} {front ss : List String} {j : Nat}
    (hne : front ≠ []) (hfront : front <+: ss) (h : t.lead? parent ss = some j) :
    ∃ i, t.lead? parent front = some i := by
  obtain ⟨rest, rfl⟩ := hfront
  cases front with
  | nil => exact absurd rfl hne
  | cons s front =>
    rw [List.cons_append, lead?] at h
    obtain ⟨k, hk, hrest⟩ := Option.bind_eq_some_iff.1 h
    rw [descend_append] at hrest
    obtain ⟨i, hi, _⟩ := Option.bind_eq_some_iff.1 hrest
    exact ⟨i, by rw [lead?, hk, Option.bind_some, hi]⟩

/-- The last segment leads from where the others led. -/
theorem lead?_concat (t : Tree) (parent : Option Nat) (ss : List String) (s : String) :
    t.lead? parent (ss ++ [s]) =
      if ss = [] then t.child? parent s
      else (t.lead? parent ss).bind fun i => t.child? (some i) s := by
  have hlast : ∀ i, t.descend i [s] = t.child? (some i) s := fun i => by
    rw [descend]
    cases t.child? (some i) s <;> rfl
  cases ss with
  | nil =>
    rw [if_pos rfl, List.nil_append, lead?]
    cases t.child? parent s <;> rfl
  | cons r rs =>
    rw [if_neg (by simp), List.cons_append, lead?, lead?, Option.bind_assoc]
    simp only [descend_append, hlast]

/-- From the roots a row of segments leads to the node whose trail it spells, and to no other. -/
theorem lead?_roots_iff {t : Tree} (ht : Founded t) (hapart : Apart t) {ss : List String}
    {i : Nat} :
    t.lead? none ss = some i ↔ i < t.size ∧ SameTrail (t.trail i) ss := by
  have hnode : ∀ {i}, i < t.size → ∃ n : String × Option Nat, t.skeleton[i]? = some n := by
    intro i hi
    exact ⟨_, List.getElem?_eq_getElem (by simpa using hi)⟩
  induction ss using List.reverseRecOn generalizing i with
  | nil =>
    constructor
    · intro h
      exact absurd rfl (ne_nil_of_lead? h)
    · rintro ⟨hi, hsame⟩
      obtain ⟨⟨name, parent⟩, hn⟩ := hnode hi
      rw [trail_eq ht hn] at hsame
      exact absurd (equivalence_sameTrail.symm hsame) not_sameTrail_nil_concat
  | append_singleton ss s ih =>
    rw [lead?_concat]
    constructor
    · intro h
      obtain ⟨parent, hchild, hway⟩ : ∃ parent, t.child? parent s = some i ∧
          SameTrail (t.way parent) ss := by
        by_cases hss : ss = []
        · rw [if_pos hss] at h
          exact ⟨none, h, hss ▸ equivalence_sameTrail.refl _⟩
        · rw [if_neg hss] at h
          obtain ⟨p, hp, hchild⟩ := Option.bind_eq_some_iff.1 h
          exact ⟨some p, hchild, (ih.1 hp).2⟩
      obtain ⟨name, hn, hname⟩ := (child?_eq_some_iff hapart).1 hchild
      rw [trail_eq ht hn]
      exact ⟨child?_lt hchild, sameTrail_concat.2 ⟨hway, hname⟩⟩
    · rintro ⟨hi, hsame⟩
      obtain ⟨⟨name, parent⟩, hn⟩ := hnode hi
      rw [trail_eq ht hn] at hsame
      obtain ⟨hway, hname⟩ := sameTrail_concat.1 hsame
      have hchild : t.child? parent s = some i := (child?_eq_some_iff hapart).2 ⟨name, hn, hname⟩
      cases parent with
      | none =>
        have hss : ss = [] := by
          cases hway
          rfl
        rw [if_pos hss, hchild]
      | some p =>
        have hp : p < t.size := by
          have := ht i p name hn
          omega
        have hlead : t.lead? none ss = some p := ih.2 ⟨hp, hway⟩
        rw [if_neg (ne_nil_of_lead? hlead), hlead, Option.bind_some, hchild]

/-- A row of segments leads from a directory to the node whose trail it spells behind that of the
directory. -/
theorem lead?_eq_some_iff {t : Tree} (ht : Founded t) (hapart : Apart t) {parent : Option Nat}
    (hp : t.Holds parent) {ss : List String} (hss : ss ≠ []) {i : Nat} :
    t.lead? parent ss = some i ↔ i < t.size ∧ SameTrail (t.trail i) (t.way parent ++ ss) := by
  cases parent with
  | none => exact lead?_roots_iff ht hapart
  | some p =>
    have hself : t.lead? none (t.trail p) = some p :=
      (lead?_roots_iff ht hapart).2 ⟨hp p rfl, equivalence_sameTrail.refl _⟩
    rw [way_some, ← lead?_append hself hss]
    exact lead?_roots_iff ht hapart

/-- Nodes with the same trail are the same. -/
theorem eq_of_sameTrail {t : Tree} (ht : Founded t) (hapart : Apart t) {i j : Nat}
    (hi : i < t.size) (hj : j < t.size) (h : SameTrail (t.trail i) (t.trail j)) : i = j := by
  have hlead : t.lead? none (t.trail j) = some i := (lead?_roots_iff ht hapart).2 ⟨hi, h⟩
  have hself : t.lead? none (t.trail j) = some j :=
    (lead?_roots_iff ht hapart).2 ⟨hj, equivalence_sameTrail.refl _⟩
  exact Option.some.inj (hlead.symm.trans hself)

end Installer.Directory.Tree
