import Installer.Proofs.Directory.Levels
import Installer.Proofs.Directory.Payloads

/-!
# What a declaration leaves alone

A declaration names the directories of a tree to which its path leads, and from there those to which
the paths in it lead. All other directories stay as they are. Those that it names get more of what
they hold, behind what they held; their names, their parents and what came with their making stay.
New directories continue new ones only, so no chain that is there changes either.
-/
namespace Installer.Directory

open Schema

namespace Node

/-- The node with more attributes for the chain that it heads. -/
def given (n : Node) (attributes : Attributes) : Node :=
  { n with attributes := n.attributes.extend attributes }

/-- The node with more attributes of its own. -/
def givenOwn (n : Node) (attributes : Attributes) : Node :=
  { n with ownAttributes := n.ownAttributes.extend attributes }

/-- The node with what a declaration says of its own directory. -/
def marked (n : Node) (id : Option String) (installDir : Bool) : Node :=
  { n with id := id.or n.id, installDir := n.installDir || installDir }

end Node

/-- What every later declaration leaves of a node: it stands where it stood, and its lists are
extended at the end only. -/
structure Node.Keeps (n m : Node) : Prop where
  name : m.name = n.name
  parent : m.parent = n.parent
  continues : m.continues = n.continues
  attributes : m.attributes = n.attributes
  features : n.features <+: m.features
  files : n.files <+: m.files
  fileSets : n.fileSets <+: m.fileSets
  shortcuts : n.shortcuts <+: m.shortcuts
  settings : n.settings <+: m.settings

namespace Node.Keeps

@[refl] theorem refl (n : Node) : n.Keeps n where
  name := rfl
  parent := rfl
  continues := rfl
  attributes := rfl
  features := List.prefix_rfl
  files := List.prefix_rfl
  fileSets := List.prefix_rfl
  shortcuts := List.prefix_rfl
  settings := List.prefix_rfl

theorem trans {n m k : Node} (h : n.Keeps m) (h' : m.Keeps k) : n.Keeps k where
  name := h'.name.trans h.name
  parent := h'.parent.trans h.parent
  continues := h'.continues.trans h.continues
  attributes := h'.attributes.trans h.attributes
  features := h.features.trans h'.features
  files := h.files.trans h'.files
  fileSets := h.fileSets.trans h'.fileSets
  shortcuts := h.shortcuts.trans h'.shortcuts
  settings := h.settings.trans h'.settings

theorem continued? {n m : Node} (h : n.Keeps m) : m.continued? = n.continued? := by
  rw [Node.continued?, Node.continued?, h.parent, h.continues]

theorem hold (n : Node) (item : Item) : n.Keeps (Tree.hold n item) := by
  cases item <;> constructor <;> first | rfl | exact List.prefix_rfl | exact List.prefix_append _ _

/-- Features are added behind those that are there. -/
theorem addFeatures (n : Node) (features : List String) : n.Keeps (n.addFeatures features) where
  name := rfl
  parent := rfl
  continues := rfl
  attributes := rfl
  features := by
    refine List.foldlRecOn features _ (motive := (n.features <+: ·)) List.prefix_rfl ?_
    intro fs hfs f _
    split
    · exact hfs
    · exact hfs.trans (List.prefix_append _ _)
  files := List.prefix_rfl
  fileSets := List.prefix_rfl
  shortcuts := List.prefix_rfl
  settings := List.prefix_rfl

end Node.Keeps

namespace Tree

/-- The directories of a tree that a declaration names: the one to which its path leads from
`parent`, and those that declarations in it name below that one. -/
def named (t : Tree) (parent : Option Nat) : Declaration → List Nat
  | ⟨path, _, _, _, _, items⟩ =>
      match t.find? parent path with
      | none => []
      | some i => i :: namedAmong t i items
where
  namedAmong (t : Tree) (i : Nat) : List (ItemOf Declaration) → List Nat
    | [] => []
    | .directory d :: items => named t (some i) d ++ namedAmong t i items
    | _ :: items => namedAmong t i items

theorem namedAmong_cons (t : Tree) (i : Nat) {item : ItemOf Declaration}
    (h : ∀ d, item ≠ .directory d) (items : List (ItemOf Declaration)) :
    named.namedAmong t i (item :: items) = named.namedAmong t i items := by
  cases item with
  | directory d => exact absurd rfl (h d)
  | _ => rfl

theorem child?_gt {t : Tree} (ht : Founded t) {p k : Nat} {s : String}
    (h : t.child? (some p) s = some k) : p < k := by
  rw [child?_eq_findIdx?] at h
  obtain ⟨hlt, hnamed, _⟩ := List.findIdx?_eq_some_iff_getElem.1 h
  have hparent : t.skeleton[k].2 = some p := by
    simpa using (Bool.and_eq_true_iff.1 hnamed).1
  exact ht k p t.skeleton[k].1 (by rw [List.getElem?_eq_getElem hlt, ← hparent])

theorem le_of_descend {t : Tree} (ht : Founded t) {i j : Nat} {ss : List String}
    (h : t.descend i ss = some j) : i ≤ j := by
  induction ss generalizing i with
  | nil => exact (Option.some.inj h).le
  | cons s ss ih =>
    obtain ⟨k, hk, hrest⟩ := Option.bind_eq_some_iff.1 h
    exact (child?_gt ht hk).le.trans (ih hrest)

theorem find?_gt {t : Tree} (ht : Founded t) {p i : Nat} {path : String}
    (h : t.find? (some p) path = some i) : p < i := by
  rw [find?_eq_lead?] at h
  cases hss : segments path with
  | nil => simp [hss, lead?] at h
  | cons s ss =>
    rw [hss, lead?] at h
    obtain ⟨k, hk, hrest⟩ := Option.bind_eq_some_iff.1 h
    exact (child?_gt ht hk).trans_le (le_of_descend ht hrest)

section grown

variable {t u : Tree} (hgrows : t.skeleton <+: u.skeleton) (hu : Founded u)
include hgrows

/-- A child that was there was the first of its name already. -/
theorem child?_of_grows {parent : Option Nat} {s : String} {i : Nat}
    (h : u.child? parent s = some i) (hi : i < t.size) : t.child? parent s = some i := by
  obtain ⟨more, hmore⟩ := hgrows
  rw [child?_eq_findIdx?, ← hmore, List.findIdx?_append] at h
  rw [child?_eq_findIdx?]
  cases hfirst : t.skeleton.findIdx? (isChildNamed parent s) with
  | some j => rwa [hfirst, Option.some_or] at h
  | none =>
    rw [hfirst, Option.none_or] at h
    obtain ⟨j, _, hj⟩ := Option.map_eq_some_iff.1 h
    rw [length_skeleton] at hj
    omega

include hu

theorem descend_of_grows {i j : Nat} {ss : List String} (h : u.descend i ss = some j)
    (hj : j < t.size) : t.descend i ss = some j := by
  induction ss generalizing i with
  | nil => exact h
  | cons s ss ih =>
    obtain ⟨k, hk, hrest⟩ := Option.bind_eq_some_iff.1 h
    have hle := le_of_descend hu hrest
    rw [descend, child?_of_grows hgrows hk (by omega), Option.bind_some]
    exact ih hrest

/-- A path that leads to a directory that was there led to it already. -/
theorem find?_of_grows {parent : Option Nat} {path : String} {i : Nat}
    (h : u.find? parent path = some i) (hi : i < t.size) : t.find? parent path = some i := by
  rw [find?_eq_lead?] at h ⊢
  cases hss : segments path with
  | nil => simp [hss, lead?] at h
  | cons s ss =>
    rw [hss, lead?] at h
    obtain ⟨k, hk, hrest⟩ := Option.bind_eq_some_iff.1 h
    have hle := le_of_descend hu hrest
    rw [lead?, child?_of_grows hgrows hk (by omega), Option.bind_some]
    exact descend_of_grows hgrows hu hrest hi

end grown

/-- What is named below a directory comes after it. -/
theorem lt_of_mem_named_and_among {t : Tree} (ht : Founded t) :
    (∀ (d : Declaration) (p i : Nat), i ∈ t.named (some p) d → p < i) ∧
      ∀ (items : List (ItemOf Declaration)) (p i : Nat),
        i ∈ named.namedAmong t p items → p < i := by
  refine Declaration.induction ?declaration ?nil ?directory ?other
  case declaration =>
    intro path id features attributes installDir items ih p i hi
    rw [named] at hi
    cases hfind : t.find? (some p) path with
    | none => simp [hfind] at hi
    | some k =>
      have hk := find?_gt ht hfind
      rw [hfind] at hi
      rcases List.mem_cons.1 hi with rfl | hi
      · exact hk
      · exact hk.trans (ih k i hi)
  case nil =>
    intro p i hi
    simp [named.namedAmong] at hi
  case directory =>
    intro d items hd hitems p i hi
    rcases List.mem_append.1 hi with hi | hi
    · exact hd p i hi
    · exact hitems p i hi
  case other =>
    intro item items hitem ih p i hi
    rw [namedAmong_cons t p hitem] at hi
    exact ih p i hi

/-- What a declaration names in a tree that has grown, of what was there, it named before. -/
theorem mem_named_of_grows {t u : Tree} (hgrows : t.skeleton <+: u.skeleton) (hu : Founded u) :
    (∀ (d : Declaration) (parent : Option Nat) (i : Nat), i < t.size → i ∈ u.named parent d →
        i ∈ t.named parent d) ∧
      ∀ (items : List (ItemOf Declaration)) (p i : Nat), i < t.size →
        i ∈ named.namedAmong u p items → i ∈ named.namedAmong t p items := by
  refine Declaration.induction ?declaration ?nil ?directory ?other
  case declaration =>
    intro path id features attributes installDir items ih parent i hlt hi
    rw [named] at hi
    cases hfind : u.find? parent path with
    | none => simp [hfind] at hi
    | some k =>
      rw [hfind] at hi
      have hk : k ≤ i := by
        rcases List.mem_cons.1 hi with rfl | hi
        · exact le_rfl
        · exact ((lt_of_mem_named_and_among hu).2 items k i hi).le
      rw [named, find?_of_grows hgrows hu hfind (by omega)]
      rcases List.mem_cons.1 hi with rfl | hi
      · exact List.mem_cons_self
      · exact List.mem_cons_of_mem _ (ih k i hlt hi)
  case nil =>
    intro p i _ hi
    exact hi
  case directory =>
    intro d items hd hitems p i hlt hi
    rcases List.mem_append.1 hi with hi | hi
    · exact List.mem_append_left _ (hd (some p) i hlt hi)
    · exact List.mem_append_right _ (hitems p i hlt hi)
  case other =>
    intro item items hitem ih p i hlt hi
    rw [namedAmong_cons _ _ hitem] at hi ⊢
    exact ih p i hlt hi

/-- From `t` comes `u` with all nodes of `t` in their places, and none of them changed but `touched`
ones. -/
structure Keeps (t : Tree) (touched : List Nat) (u : Tree) : Prop where
  founded : Founded u
  nodes : ∀ i n, t.node? i = some n →
    ∃ m, u.node? i = some m ∧ n.Keeps m ∧ (i ∉ touched → m = n)
  fresh : ∀ i m p, t.size ≤ i → u.node? i = some m → m.continued? = some p → t.size ≤ p

namespace Keeps

variable {t u v : Tree} {xs ys : List Nat}

theorem grows (h : Keeps t xs u) : t.skeleton <+: u.skeleton := by
  rw [List.prefix_iff_getElem?]
  intro i hi
  obtain ⟨n, hn⟩ := exists_node? (t := t) (i := i) (by simpa using hi)
  obtain ⟨m, hm, hkeeps, _⟩ := h.nodes i n hn
  rw [getElem?_skeleton hm, hkeeps.name, hkeeps.parent, ← getElem?_skeleton hn,
    List.getElem?_eq_getElem hi]

theorem continuations (h : Keeps t xs u) : t.continuations <+: u.continuations := by
  rw [List.prefix_iff_getElem?]
  intro i hi
  obtain ⟨n, hn⟩ := exists_node? (t := t) (i := i) (by simpa using hi)
  obtain ⟨m, hm, hkeeps, _⟩ := h.nodes i n hn
  rw [getElem?_continuations hm, hkeeps.continued?, ← getElem?_continuations hn,
    List.getElem?_eq_getElem hi]

theorem size_le (h : Keeps t xs u) : t.size ≤ u.size := by
  simpa using h.grows.length_le

theorem of_same (ht : Founded t) (xs : List Nat) : Keeps t xs t where
  founded := ht
  nodes := fun _ n hn => ⟨n, hn, .refl n, fun _ => rfl⟩
  fresh := by
    intro i m p hi hm _
    have hlt := lt_of_node? hm
    omega

/-- Only what was there counts among what is touched. -/
theorem mono (h : Keeps t xs u) (hxs : ∀ i ∈ xs, i < t.size → i ∈ ys) : Keeps t ys u where
  founded := h.founded
  nodes := by
    intro i n hn
    obtain ⟨m, hm, hkeeps, hsame⟩ := h.nodes i n hn
    have hlt := lt_of_node? hn
    exact ⟨m, hm, hkeeps, fun hi => hsame fun hmem => hi (hxs i hmem hlt)⟩
  fresh := h.fresh

theorem trans (h : Keeps t xs u) (h' : Keeps u ys v) : Keeps t (xs ++ ys) v where
  founded := h'.founded
  nodes := by
    intro i n hn
    obtain ⟨m, hm, hkeeps, hsame⟩ := h.nodes i n hn
    obtain ⟨k, hk, hkeeps', hsame'⟩ := h'.nodes i m hm
    refine ⟨k, hk, hkeeps.trans hkeeps', fun hi => ?_⟩
    rw [List.mem_append, not_or] at hi
    rw [hsame' hi.2, hsame hi.1]
  fresh := by
    intro i k p hi hk hp
    have hsize := h.size_le
    by_cases hlt : i < u.size
    · obtain ⟨m, hm⟩ := exists_node? hlt
      obtain ⟨k', hk', hkeeps, _⟩ := h'.nodes i m hm
      obtain rfl : k = k' := Option.some.inj (hk.symm.trans hk')
      exact h.fresh i m p hi hm (hkeeps.continued? ▸ hp)
    · have := h'.fresh i k p (by omega) hk hp
      omega

/-- A node may be changed in its place. -/
theorem modify (ht : Founded t) (i : Nat) {f : Node → Node} (hf : ∀ n : Node, n.Keeps (f n)) :
    Keeps t [i] (t.modify i f) where
  founded := ht.congr (skeleton_modify t i (fun n => (hf n).name) fun n => (hf n).parent)
  nodes := by
    intro j n hn
    rw [node?_modify, hn]
    by_cases hij : i = j
    · exact ⟨f n, by rw [if_pos hij]; rfl, hf n, fun hj => absurd hij.symm (by simpa using hj)⟩
    · exact ⟨n, by rw [if_neg hij], .refl n, fun _ => rfl⟩
  fresh := by
    intro j m p hj hm _
    have hlt := lt_of_node? hm
    rw [size_modify] at hlt
    omega

/-- A chain is made behind all nodes, and its first node may get anything. -/
theorem chain (ht : Founded t) {above : Option Nat} (ha : t.Holds above) (features : List String)
    (s : String) (ss : List String) {f : Node → Node} (hname : ∀ n, (f n).name = n.name)
    (hparent : ∀ n, (f n).parent = n.parent) (hcontinues : ∀ n, (f n).continues = n.continues) :
    Keeps t [] (Tree.modify ⟨t.nodes ++ chainNodes t.size above features s ss⟩ t.size f) where
  founded := (ht.chain ha features s ss).congr (skeleton_modify _ _ hname hparent)
  nodes := by
    intro i n hn
    have hlt := lt_of_node? hn
    refine ⟨n, ?_, .refl n, fun _ => rfl⟩
    rw [node?_modify, if_neg (by omega), node?, List.getElem?_append_left hlt]
    exact hn
  fresh := by
    intro i m p hi hm hp
    have hcontinued := getElem?_continuations hm
    rw [continuations_modify _ _ fun n => by rw [Node.continued?, Node.continued?, hparent n,
      hcontinues n], continuations_chain, List.getElem?_append_right (by simpa using hi), hp]
      at hcontinued
    have hmem : p ∈ List.range' t.size ss.length := by
      simpa using List.mem_of_getElem? hcontinued
    exact (List.mem_range'_1.1 hmem).1

/-- New nodes continue new ones only, so the nodes that are continued are the same as before. -/
theorem isContinued (h : Keeps t xs u) {i : Nat} (hi : i < t.size) :
    u.isContinued i = t.isContinued i := by
  rw [Bool.eq_iff_iff, isContinued_iff, isContinued_iff]
  refine ⟨fun hmem => ?_, fun hmem => h.continuations.mem hmem⟩
  obtain ⟨j, hj⟩ := List.mem_iff_getElem?.1 hmem
  by_cases hlt : j < t.size
  · rw [List.prefix_iff_getElem?.1 h.continuations j (by simpa using hlt)] at hj
    exact Option.some.inj hj ▸ List.getElem_mem _
  · have hsize := (List.getElem?_eq_some_iff.1 hj).1
    rw [length_continuations] at hsize
    obtain ⟨m, hm⟩ := exists_node? hsize
    rw [getElem?_continuations hm] at hj
    have := h.fresh j m i (by omega) hm (Option.some.inj hj)
    omega

theorem chainHead? (h : Keeps t xs u) {i : Nat} (hi : i < t.size) :
    u.chainHead? i = t.chainHead? i :=
  chainHead?_of_grows h.continuations hi

end Keeps

/-- The tree with a declared directory in which nothing is put yet, and the directory's number. -/
def opened (t : Tree) (parent : Option Nat) (path : String) (id : Option String)
    (features : List String) (attributes : Attributes) (installDir : Bool) : Nat × Tree :=
  t.declare parent ⟨path, id, features, attributes, installDir, []⟩

section opened

variable {t : Tree} {parent : Option Nat} (path : String) (id : Option String)
  (features : List String) (attributes : Attributes) (installDir : Bool)

/-- Opening a directory that is there changes its node three times; otherwise a chain is made, which
gets the attributes at its first node and the rest at its last. -/
theorem opened_cases (hp : t.Holds parent) :
    (∃ i, t.find? parent path = some i ∧ i < t.size ∧
        t.opened parent path id features attributes installDir =
          (i, ((t.modify i (·.addFeatures features)).modify i (·.givenOwn attributes)).modify i
            (·.marked id installDir))) ∨
      t.find? parent path = none ∧ ∃ above s ss, t.Holds above ∧
        t.opened parent path id features attributes installDir =
          (t.size + ss.length,
            ((⟨t.nodes ++ chainNodes t.size above features s ss⟩ : Tree).modify t.size
              (·.given attributes)).modify (t.size + ss.length) (·.marked id installDir)) := by
  have hopened : t.opened parent path id features attributes installDir =
      ((t.overlay parent path features).leaf,
        (giveAttributes (t.overlay parent path features) attributes).mark
          (t.overlay parent path features).leaf id installDir) := rfl
  obtain ⟨i, hi, hm⟩ | ⟨hi, above, s, ss, ha, hm⟩ := overlay_eq hp path features
  · refine Or.inl ⟨i, hi, ?_, by rw [hopened, hm]; rfl⟩
    rw [find?_eq_lead?] at hi
    exact lead?_lt hi
  · exact Or.inr ⟨hi, above, s, ss, ha, by rw [hopened, hm]; rfl⟩

theorem declare_eq_declareItems (items : List (ItemOf Declaration)) :
    t.declare parent ⟨path, id, features, attributes, installDir, items⟩ =
      ((t.opened parent path id features attributes installDir).1,
        declare.declareItems (t.opened parent path id features attributes installDir).2
          (t.opened parent path id features attributes installDir).1 items) := rfl

/-- Opening a directory that is there changes it and nothing else. Otherwise nothing changes, and
the directory is new. -/
theorem keeps_opened (ht : Founded t) (hp : t.Holds parent) :
    Keeps t (t.find? parent path).toList
        (t.opened parent path id features attributes installDir).2 ∧
      (t.opened parent path id features attributes installDir).1 <
        (t.opened parent path id features attributes installDir).2.size ∧
      (∀ i, t.find? parent path = some i →
        (t.opened parent path id features attributes installDir).1 = i) ∧
      (t.find? parent path = none →
        t.size ≤ (t.opened parent path id features attributes installDir).1) := by
  have hmark : ∀ n : Node, n.Keeps (n.marked id installDir) := fun n => { Node.Keeps.refl n with }
  have hgive : ∀ n : Node, n.Keeps (n.givenOwn attributes) := fun n => { Node.Keeps.refl n with }
  obtain ⟨i, hi, hlt, hopened⟩ | ⟨hi, above, s, ss, ha, hopened⟩ :=
    opened_cases path id features attributes installDir hp
  · have hfeatures := Keeps.modify ht i fun n => Node.Keeps.addFeatures n features
    have hgiven := Keeps.modify hfeatures.founded i hgive
    have hmarked := Keeps.modify hgiven.founded i hmark
    rw [hopened, hi]
    refine ⟨((hfeatures.trans hgiven).trans hmarked).mono (by simp), ?_,
      fun j hj => Option.some.inj hj, by simp⟩
    simpa using hlt
  · have hchain := Keeps.chain ht ha features s ss (f := (·.given attributes)) (fun _ => rfl)
      (fun _ => rfl) fun _ => rfl
    have hmarked := Keeps.modify hchain.founded (t.size + ss.length) hmark
    rw [hopened, hi]
    refine ⟨(hchain.trans hmarked).mono ?_, ?_, by simp, by simp⟩
    · intro j hj hlt
      have hj : j = t.size + ss.length := by simpa using hj
      omega
    · simp [size_chain]

end opened

/-- A declaration changes what it names, and its items change their directory too. -/
theorem keeps_declare_and_items :
    (∀ (d : Declaration) (t : Tree) (parent : Option Nat), Founded t → t.Holds parent →
        Keeps t (t.named parent d) (t.declare parent d).2) ∧
      ∀ (items : List (ItemOf Declaration)) (t : Tree) (i : Nat), Founded t → i < t.size →
        Keeps t (i :: named.namedAmong t i items) (declare.declareItems t i items) := by
  refine Declaration.induction ?declaration ?nil ?directory ?other
  case declaration =>
    intro path id features attributes installDir items ih t parent ht hp
    obtain ⟨hopened, hlt, hfound, hmade⟩ :=
      keeps_opened path id features attributes installDir ht hp
    rw [declare_eq_declareItems]
    have hitems := ih _ _ hopened.founded hlt
    refine (hopened.trans hitems).mono fun j hj hjt => ?_
    cases hfind : t.find? parent path with
    | none =>
      -- The directory is new, and what is named below it comes after it.
      have hleaf := hmade hfind
      rw [hfind, Option.toList_none, List.nil_append] at hj
      rcases List.mem_cons.1 hj with rfl | hj
      · omega
      · have := (lt_of_mem_named_and_among hopened.founded).2 items _ j hj
        omega
    | some i =>
      rw [named, hfind]
      rw [hfind, hfound i hfind] at hj
      rcases List.mem_append.1 hj with hj | hj
      · simpa using Or.inl (by simpa using hj)
      · rcases List.mem_cons.1 hj with rfl | hj
        · exact List.mem_cons_self
        · exact List.mem_cons_of_mem _
            ((mem_named_of_grows hopened.grows hopened.founded).2 items i j hjt hj)
  case nil =>
    intro t i ht _
    exact .of_same ht _
  case directory =>
    intro d items hd hitems t i ht hi
    have hfirst := hd t (some i) ht (holds_some_iff.2 hi)
    have hsize := hfirst.size_le
    have hrest := hitems _ i hfirst.founded (by omega)
    refine (hfirst.trans hrest).mono fun j hj hlt => ?_
    rcases List.mem_append.1 hj with hj | hj
    · exact List.mem_cons_of_mem _ (List.mem_append_left _ hj)
    · rcases List.mem_cons.1 hj with rfl | hj
      · exact List.mem_cons_self
      · exact List.mem_cons_of_mem _ (List.mem_append_right _
          ((mem_named_of_grows hfirst.grows hfirst.founded).2 items i j hlt hj))
  case other =>
    intro item items hitem ih t i ht hi
    have hfirst := Keeps.modify ht i (Node.Keeps.hold · item)
    have hrest := ih _ i hfirst.founded (by rwa [size_modify])
    rw [declareItems_cons hitem]
    refine (hfirst.trans hrest).mono fun j hj hlt => ?_
    rw [namedAmong_cons _ _ hitem]
    rcases List.mem_cons.1 hj with rfl | hj
    · exact List.mem_cons_self
    rcases List.mem_cons.1 hj with rfl | hj
    · exact List.mem_cons_self
    · exact List.mem_cons_of_mem _
        ((mem_named_of_grows hfirst.grows hfirst.founded).2 items i j hlt hj)

theorem add_eq_ok {t u : Tree} {parent : Option Nat} {d : Declaration} {leaf : Nat} :
    t.add parent d = .ok (leaf, u) ↔ d.misplaced? = none ∧ t.declare parent d = (leaf, u) := by
  unfold add
  cases d.misplaced? <;> simp

theorem Founded.keeps_add {t u : Tree} (ht : Founded t) {parent : Option Nat}
    (hp : t.Holds parent) {d : Declaration} {leaf : Nat} (h : t.add parent d = .ok (leaf, u)) :
    Keeps t (t.named parent d) u := by
  obtain ⟨-, hdeclare⟩ := add_eq_ok.1 h
  have hkeeps := keeps_declare_and_items.1 d t parent ht hp
  rwa [hdeclare] at hkeeps

end Tree

end Installer.Directory
