import Installer.Proofs.Directory.Inventory
import Installer.Proofs.PrefixTree

/-!
# Features on their way to nodes

A declaration asks for its features along its own path, and the items that it holds itself count on
them. Its path may be made, be met by another declaration or be met in part, so its features go to
more nodes or fewer. Every item arrives at a node that has all features which the item counts on, and
what features a node has, declarations asked for whose paths run through the node.
-/
namespace Installer.Directory

open Schema

/-- An item for a directory, with the segments of all paths declared around it and the features of
the declaration that holds it. -/
structure Deposit where
  trail : List String
  item : Item
  around : List String

/-- The segments of a declared path, behind those of all paths declared around it, with the features
that are asked for along it. -/
structure Course where
  above : List String
  path : List String
  features : List String

/-- What a declaration deposits, itself and through the declarations in it. -/
def Declaration.deposits : Declaration → List Deposit
  | ⟨path, _, features, _, _, items⟩ =>
      (depositsAmong features items).map fun d => { d with trail := segments path ++ d.trail }
where
  depositsAmong (around : List String) : List (ItemOf Declaration) → List Deposit
    | [] => []
    | .directory d :: items => d.deposits ++ depositsAmong around items
    | item :: items =>
        ([item].filter (·.isHeld)).map (⟨[], ·, around⟩) ++ depositsAmong around items

/-- The courses of a declaration, its own before those in it. -/
def Declaration.courses : Declaration → List Course
  | ⟨path, _, features, _, _, items⟩ =>
      ⟨[], segments path, features⟩ ::
        (coursesAmong items).map fun c => { c with above := segments path ++ c.above }
where
  coursesAmong : List (ItemOf Declaration) → List Course
    | [] => []
    | .directory d :: items => d.courses ++ coursesAmong items
    | _ :: items => coursesAmong items

section other

variable {item : ItemOf Declaration} (h : ∀ d, item ≠ .directory d)
  (items : List (ItemOf Declaration))
include h

theorem Declaration.depositsAmong_cons (around : List String) :
    deposits.depositsAmong around (item :: items) =
      ([item].filter (·.isHeld)).map (⟨[], ·, around⟩) ++ deposits.depositsAmong around items := by
  cases item with
  | directory d => exact absurd rfl (h d)
  | _ => rfl

theorem Declaration.coursesAmong_cons :
    courses.coursesAmong (item :: items) = courses.coursesAmong items := by
  cases item with
  | directory d => exact absurd rfl (h d)
  | _ => rfl

end other

/-- The path of a course runs through a node: a leading part of it ends there. -/
def Course.RunsThrough (c : Course) (t : Tree) (parent : Option Nat) (i : Nat) : Prop :=
  ∃ front, front ≠ [] ∧ front <+: c.path ∧ t.lead? parent (c.above ++ front) = some i

theorem Course.RunsThrough.mono {c : Course} {t u : Tree} {parent : Option Nat} {i : Nat}
    (h : c.RunsThrough t parent i) (htu : t.skeleton <+: u.skeleton) :
    c.RunsThrough u parent i := by
  obtain ⟨front, hne, hfront, hlead⟩ := h
  exact ⟨front, hne, hfront, Tree.lead?_mono htu hlead⟩

namespace Tree

/-- A change that leaves features alone gives every node the features that it had. -/
theorem features_of_modify {t : Tree} {i : Nat} {f : Node → Node}
    (hf : ∀ n : Node, (f n).features = n.features) {j : Nat} {n : Node}
    (hn : (t.modify i f).node? j = some n) :
    ∃ m, t.node? j = some m ∧ m.features = n.features := by
  rw [node?_modify] at hn
  split at hn
  · obtain ⟨m, hm, rfl⟩ := Option.map_eq_some_iff.1 hn
    exact ⟨m, hm, (hf m).symm⟩
  · exact ⟨n, hn, rfl⟩

theorem features_of_giveAttributes {m : Overlay} {attributes : Attributes} {j : Nat} {n : Node}
    (hn : (giveAttributes m attributes).node? j = some n) :
    ∃ k, m.tree.node? j = some k ∧ k.features = n.features := by
  unfold giveAttributes at hn
  cases hhead : m.head with
  | none =>
    rw [hhead] at hn
    exact features_of_modify (f := (·.givenOwn attributes)) (fun _ => rfl) hn
  | some head =>
    rw [hhead] at hn
    exact features_of_modify (f := (·.given attributes)) (fun _ => rfl) hn

/-- From `t` comes `u` by bringing deposits and features along courses from `parent` on. -/
structure Carries (t : Tree) (parent : Option Nat) (ds : List Deposit) (cs : List Course)
    (u : Tree) : Prop where
  keeps : ∃ touched, Keeps t touched u
  holdings : u.holdings.Perm
    (t.holdings ++ ds.map fun d => (u.arrive? parent d.trail, d.item))
  arrives : ∀ d ∈ ds, ∃ i n, u.arrive? parent d.trail = some i ∧ u.node? i = some n ∧
    d.around ⊆ n.features
  asked : ∀ i n, u.node? i = some n → ∀ f ∈ n.features,
    (∃ m, t.node? i = some m ∧ f ∈ m.features) ∨ ∃ c ∈ cs, f ∈ c.features ∧ c.RunsThrough u parent i

namespace Carries

variable {t u v : Tree} {parent : Option Nat} {xs ys : List Deposit} {cs es : List Course}

theorem founded (h : Carries t parent xs cs u) : Founded u := by
  obtain ⟨_, hkeeps⟩ := h.keeps
  exact hkeeps.founded

theorem grows (h : Carries t parent xs cs u) : t.skeleton <+: u.skeleton := by
  obtain ⟨_, hkeeps⟩ := h.keeps
  exact hkeeps.grows

theorem of_same (ht : Founded t) (parent : Option Nat) : Carries t parent [] [] t where
  keeps := ⟨[], .of_same ht []⟩
  holdings := by simp
  arrives := by simp
  asked := fun i n hn f hf => Or.inl ⟨n, hn, hf⟩

/-- Where something has arrived it stays. -/
theorem arrive?_mono (huv : u.skeleton <+: v.skeleton) {ss : List String} {i : Nat}
    (h : u.arrive? parent ss = some i) : v.arrive? parent ss = some i := by
  unfold arrive? at h ⊢
  split at h
  · rwa [if_pos ‹_›]
  · rw [if_neg ‹_›]
    exact lead?_mono huv h

theorem trans (h : Carries t parent xs cs u) (h' : Carries u parent ys es v) :
    Carries t parent (xs ++ ys) (cs ++ es) v where
  keeps := by
    obtain ⟨_, hkeeps⟩ := h.keeps
    obtain ⟨_, hkeeps'⟩ := h'.keeps
    exact ⟨_, hkeeps.trans hkeeps'⟩
  holdings := by
    have hxs : xs.map (fun d => (v.arrive? parent d.trail, d.item)) =
        xs.map fun d => (u.arrive? parent d.trail, d.item) := by
      refine List.map_congr_left fun d hd => ?_
      obtain ⟨i, _, hi, _⟩ := h.arrives d hd
      rw [hi, arrive?_mono h'.grows hi]
    rw [List.map_append, hxs, ← List.append_assoc]
    exact h'.holdings.trans (h.holdings.append_right _)
  arrives := by
    intro d hd
    rcases List.mem_append.1 hd with hd | hd
    · obtain ⟨i, n, hi, hn, haround⟩ := h.arrives d hd
      obtain ⟨_, hkeeps⟩ := h'.keeps
      obtain ⟨m, hm, hnm, _⟩ := hkeeps.nodes i n hn
      exact ⟨i, m, arrive?_mono h'.grows hi, hm, List.Subset.trans haround hnm.features.subset⟩
    · exact h'.arrives d hd
  asked := by
    intro i n hn f hf
    obtain ⟨m, hm, hfm⟩ | ⟨c, hc, hfc, hruns⟩ := h'.asked i n hn f hf
    · obtain hold | ⟨c, hc, hfc, hruns⟩ := h.asked i m hm f hfm
      · exact Or.inl hold
      · exact Or.inr ⟨c, List.mem_append_left _ hc, hfc, hruns.mono h'.grows⟩
    · exact Or.inr ⟨c, List.mem_append_right _ hc, hfc, hruns⟩

/-- What is carried to a directory is carried from its parent, behind the way to the directory. -/
theorem under {ss : List String} {i : Nat} (h : Carries t (some i) xs cs u)
    (hi : t.lead? parent ss = some i) :
    Carries t parent (xs.map fun d => { d with trail := ss ++ d.trail })
      (cs.map fun c => { c with above := ss ++ c.above }) u where
  keeps := h.keeps
  holdings := by
    simpa [Function.comp_def, arrive?_append (lead?_mono h.grows hi)] using h.holdings
  arrives := by
    intro d hd
    obtain ⟨x, hx, rfl⟩ := List.mem_map.1 hd
    obtain ⟨j, n, hj, hn, haround⟩ := h.arrives x hx
    exact ⟨j, n, (arrive?_append (lead?_mono h.grows hi) _).trans hj, hn, haround⟩
  asked := by
    intro j n hn f hf
    refine (h.asked j n hn f hf).imp_right ?_
    rintro ⟨c, hc, hfc, front, hne, hfront, hlead⟩
    refine ⟨_, List.mem_map_of_mem hc, hfc, front, hne, hfront, ?_⟩
    rw [List.append_assoc, lead?_append (lead?_mono h.grows hi) (by simp [hne])]
    exact hlead

/-- An item that is no directory stays where it is put. -/
theorem hold (ht : Founded t) {i : Nat} {n : Node} (hn : t.node? i = some n) {around : List String}
    (haround : around ⊆ n.features) (item : Item) :
    Carries t (some i) (([item].filter (·.isHeld)).map (⟨[], ·, around⟩)) []
      (t.modify i (Tree.hold · item)) where
  keeps := ⟨[i], .modify ht i fun n => Node.Keeps.hold n item⟩
  holdings := by
    simpa [Function.comp_def, arrive?] using
      holdings_modify t (lt_of_node? hn) fun n => items_hold n item
  arrives := by
    intro d hd
    obtain ⟨x, _, rfl⟩ := List.mem_map.1 hd
    refine ⟨i, Tree.hold n item, rfl, by rw [node?_modify, if_pos rfl, hn]; rfl, ?_⟩
    exact List.Subset.trans haround (Node.Keeps.hold n item).features.subset
  asked := by
    intro j m hm f hf
    obtain ⟨k, hk, hsame⟩ := features_of_modify (fun n => by cases item <;> rfl) hm
    exact Or.inl ⟨k, hk, hsame ▸ hf⟩

end Carries

/-- Laying a path gives its features to the last of its nodes, and to no node off the path. -/
theorem features_overlay {t : Tree} (ht : Founded t) {parent : Option Nat} (hp : t.Holds parent)
    {path : String} (features : List String) (hpath : segments path ≠ []) :
    (∀ n, (t.overlay parent path features).tree.node? (t.overlay parent path features).leaf =
      some n → features ⊆ n.features) ∧
    ∀ i n, (t.overlay parent path features).tree.node? i = some n → ∀ f ∈ n.features,
      (∃ m, t.node? i = some m ∧ f ∈ m.features) ∨ f ∈ features ∧
        Course.RunsThrough ⟨[], segments path, features⟩ (t.overlay parent path features).tree
          parent i := by
  have hmade := fun i => exists_lead?_overlay ht hp features hpath (i := i)
  have hleads := (overlay_leads ht hp features hpath).2
  obtain ⟨i, hi, hm⟩ | ⟨ys, s, ss, -, -, -, hm⟩ := overlay_cases t parent features hpath
  · rw [hm] at hleads ⊢
    refine ⟨fun n hn f hf => ?_, fun j n hn f hf => ?_⟩
    · rw [node?_modify, if_pos rfl] at hn
      obtain ⟨m, _, rfl⟩ := Option.map_eq_some_iff.1 hn
      exact mem_features_addFeatures.2 (Or.inr hf)
    · rw [node?_modify] at hn
      split at hn
      next hij =>
        obtain ⟨m, hm, rfl⟩ := Option.map_eq_some_iff.1 hn
        refine (mem_features_addFeatures.1 hf).imp (⟨m, hm, ·⟩) (⟨·, ?_⟩)
        exact ⟨segments path, hpath, List.prefix_rfl, hij ▸ hleads⟩
      next => exact Or.inl ⟨n, hn, hf⟩
  · rw [hm] at hmade ⊢
    have hnew : ∀ i n, t.size ≤ i → node? ⟨t.nodes ++ chainNodes t.size
        ((t.lead? parent ys).or parent) features s ss⟩ i = some n → n.features = features := by
      intro i n hi hn
      rw [node?, List.getElem?_append_right hi] at hn
      obtain ⟨name, above, continues, rfl⟩ := mem_chainNodes (List.mem_of_getElem? hn)
      rfl
    refine ⟨fun n hn => (hnew _ n (Nat.le_add_right _ _) hn).symm ▸ List.Subset.refl _, ?_⟩
    intro i n hn f hf
    by_cases hi : i < t.size
    · rw [node?, List.getElem?_append_left hi] at hn
      exact Or.inl ⟨n, hn, hf⟩
    · exact Or.inr ⟨hnew i n (by omega) hn ▸ hf, hmade i (by omega) (lt_of_node? hn)⟩

/-- Opening a directory carries the declaration's features along its path, and nothing else. -/
theorem carries_opened {t : Tree} (ht : Founded t) {parent : Option Nat} (hp : t.Holds parent)
    {path : String} (hpath : segments path ≠ []) (id : Option String) (features : List String)
    (attributes : Attributes) (installDir : Bool) :
    let o := t.opened parent path id features attributes installDir
    Carries t parent [] [⟨[], segments path, features⟩] o.2 ∧
      o.2.lead? parent (segments path) = some o.1 ∧
        ∃ n, o.2.node? o.1 = some n ∧ features ⊆ n.features := by
  intro o
  let m := t.overlay parent path features
  have ho : o = (m.leaf, (giveAttributes m attributes).mark m.leaf id installDir) := rfl
  have hskeleton : o.2.skeleton = m.tree.skeleton := by
    rw [ho, skeleton_mark, skeleton_giveAttributes]
  obtain ⟨hleaf, hasked⟩ := features_overlay ht hp features hpath
  obtain ⟨hkeeps, hlt, -⟩ := keeps_opened path id features attributes installDir ht hp
  have hsame : ∀ {i n}, o.2.node? i = some n → ∃ k, m.tree.node? i = some k ∧
      k.features = n.features := by
    intro i n hn
    obtain ⟨k, hk, hfeatures⟩ :=
      features_of_modify (f := (·.marked id installDir)) (fun _ => rfl) hn
    obtain ⟨k', hk', hfeatures'⟩ := features_of_giveAttributes hk
    exact ⟨k', hk', hfeatures'.trans hfeatures⟩
  refine ⟨⟨⟨_, hkeeps⟩, ?_, by simp, ?_⟩, ?_, ?_⟩
  · rw [holdings_opened hp]
    simp
  · intro i n hn f hf
    obtain ⟨k, hk, hfeatures⟩ := hsame hn
    refine (hasked i k hk f (hfeatures ▸ hf)).imp_right fun ⟨hf, hruns⟩ => ?_
    exact ⟨_, List.mem_cons_self, hf, hruns.mono (by rw [hskeleton])⟩
  · exact lead?_mono (by rw [hskeleton]) (overlay_leads ht hp features hpath).2
  · obtain ⟨n, hn⟩ := exists_node? hlt
    obtain ⟨k, hk, hfeatures⟩ := hsame hn
    exact ⟨n, hn, hfeatures ▸ hleaf k hk⟩

/-- A declaration carries its deposits and courses from the parent on. Items do from their directory,
if that has the features on which its declaration counts. -/
theorem carries_declare_and_items :
    (∀ (d : Declaration) (t : Tree) (parent : Option Nat), d.hasPaths = true → Founded t →
        t.Holds parent → Carries t parent d.deposits d.courses (t.declare parent d).2) ∧
      ∀ (items : List (ItemOf Declaration)) (t : Tree) (i : Nat) (n : Node) (around : List String),
        Declaration.hasPaths.pathsAmong items = true → Founded t → t.node? i = some n →
        around ⊆ n.features →
        Carries t (some i) (Declaration.deposits.depositsAmong around items)
          (Declaration.courses.coursesAmong items) (declare.declareItems t i items) := by
  refine Declaration.induction ?declaration ?nil ?directory ?other
  case declaration =>
    intro path id features attributes installDir items ih t parent hpaths ht hp
    rw [Declaration.hasPaths, Bool.and_eq_true, bne_iff_ne] at hpaths
    obtain ⟨hopened, hleads, n, hn, hfeatures⟩ :=
      carries_opened ht hp (segments_ne_nil hpaths.1) id features attributes installDir
    have hitems := ih _ _ n features hpaths.2 hopened.founded hn hfeatures
    exact hopened.trans (hitems.under hleads)
  case nil =>
    intro t i n around _ ht _ _
    exact .of_same ht _
  case directory =>
    intro d items hd hitems t i n around hpaths ht hn haround
    rw [Declaration.hasPaths.pathsAmong, Bool.and_eq_true] at hpaths
    have hfirst := hd t (some i) hpaths.1 ht (holds_some_iff.2 (lt_of_node? hn))
    obtain ⟨_, hkeeps⟩ := hfirst.keeps
    obtain ⟨m, hm, hnm, _⟩ := hkeeps.nodes i n hn
    exact hfirst.trans
      (hitems _ i m around hpaths.2 hfirst.founded hm (List.Subset.trans haround hnm.features.subset))
  case other =>
    intro item items hitem ih t i n around hpaths ht hn haround
    have hfirst := Carries.hold ht hn haround item
    obtain ⟨_, hkeeps⟩ := hfirst.keeps
    obtain ⟨m, hm, hnm, _⟩ := hkeeps.nodes i n hn
    rw [Declaration.pathsAmong_cons hitem] at hpaths
    rw [Declaration.depositsAmong_cons hitem, Declaration.coursesAmong_cons hitem,
      declareItems_cons hitem]
    exact hfirst.trans
      (ih _ i m around hpaths hfirst.founded hm (List.Subset.trans haround hnm.features.subset))

/-- The declarations of a row that are accepted. -/
def accepted (ds : List Declaration) : List Declaration :=
  ds.filter (·.misplaced?.isNone)

/-- Declarations at the roots, one after the other, carry what is accepted of them. -/
theorem carries_build {ds : List Declaration} (hds : ∀ d ∈ ds, d.hasPaths = true) :
    Carries .empty none ((accepted ds).flatMap Declaration.deposits)
      ((accepted ds).flatMap Declaration.courses) (build (ds.map .add)) := by
  induction ds using List.reverseRecOn with
  | nil => exact .of_same founded_empty none
  | append_singleton ds d ih =>
    have hrest := ih fun e he => hds e (by simp [he])
    have hbuild : build ((ds ++ [d]).map .add) = Call.run (build (ds.map .add)) none (.add d) := by
      rw [List.map_append, build, List.foldl_append]
      rfl
    have haccepted : accepted (ds ++ [d]) = accepted ds ++ accepted [d] := List.filter_append ..
    rw [hbuild, Call.run, add, haccepted, List.flatMap_append, List.flatMap_append]
    cases hd : d.misplaced? with
    | some e => simpa [hd, accepted] using hrest
    | none =>
      have hlast := carries_declare_and_items.1 d _ none (hds d (by simp)) hrest.founded
        (holds_none _)
      simpa [hd, accepted] using hrest.trans hlast

end Tree

end Installer.Directory
