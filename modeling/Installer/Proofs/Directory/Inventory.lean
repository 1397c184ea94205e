import Installer.Proofs.Directory.Arena

/-!
# Inventories of declarations

The inventory of a declaration has its items and those of the directories among them, each directory
before what is in it. Checking a declaration is looking for the first item of its inventory that
belongs to the product. Carrying it out puts all items of the inventory that directories can hold on
nodes of the tree, each once, whatever paths are declared.
-/
namespace Installer.Directory

open Schema

namespace ItemOf

variable {Folder : Type}

/-- The item belongs to the product and may not stand in a directory. -/
def isOfProduct : ItemOf Folder → Bool
  | .feature _ | .property _ | .media _ | .dialog _ => true
  | _ => false

/-- A directory holds the item itself. -/
def isHeld : ItemOf Folder → Bool
  | .file _ | .files _ | .shortcut _ | .setting _ => true
  | _ => false

theorem fitsDirectory_eq (item : ItemOf Folder) : item.fitsDirectory = !item.isOfProduct := by
  cases item <;> rfl

end ItemOf

/-- The items of a declaration at any depth, each directory before the items in it. -/
def Declaration.inventory : Declaration → List (ItemOf Declaration)
  | ⟨_, _, _, _, _, items⟩ => inventoryAmong items
where
  inventoryAmong : List (ItemOf Declaration) → List (ItemOf Declaration)
    | [] => []
    | .directory d :: items => .directory d :: (d.inventory ++ inventoryAmong items)
    | item :: items => item :: inventoryAmong items

/-- The items of a row at any depth, each directory before the items in it. -/
abbrev inventoryAmong : List Item → List Item :=
  Declaration.inventory.inventoryAmong

theorem inventoryAmong_cons {item : ItemOf Declaration} (h : ∀ d, item ≠ .directory d)
    (items : List (ItemOf Declaration)) :
    inventoryAmong (item :: items) = item :: inventoryAmong items := by
  cases item with
  | directory d => exact absurd rfl (h d)
  | _ => rfl

theorem inventory_eq (d : Declaration) : d.inventory = inventoryAmong d.items := by
  cases d
  rfl

/-- What is in a directory of an inventory is in the inventory. -/
theorem mem_inventory_of_nested :
    (∀ d e : Declaration, .directory e ∈ d.inventory → ∀ item ∈ e.inventory, item ∈ d.inventory) ∧
      ∀ (items : List (ItemOf Declaration)) (e : Declaration), .directory e ∈ inventoryAmong items →
        ∀ item ∈ e.inventory, item ∈ inventoryAmong items := by
  refine Declaration.induction ?declaration ?nil ?directory ?other
  case declaration =>
    intro path id features attributes installDir items ih
    exact ih
  case nil =>
    intro e he
    simp [inventoryAmong, Declaration.inventory.inventoryAmong] at he
  case directory =>
    intro d items hd hitems e he item hitem
    refine List.mem_cons_of_mem _ (List.mem_append.2 ?_)
    rcases List.mem_cons.1 he with he | he
    · obtain rfl : e = d := by simpa using he
      exact Or.inl hitem
    · exact (List.mem_append.1 he).imp (hd e · item hitem) (hitems e · item hitem)
  case other =>
    intro item items hitem ih e he x hx
    rw [inventoryAmong_cons hitem] at he ⊢
    rcases List.mem_cons.1 he with he | he
    · exact absurd he.symm (hitem e)
    · exact List.mem_cons_of_mem _ (ih e he x hx)

/-- The complaint about an item among those of a directory. -/
def complaint (item : Item) : Misplaced :=
  ⟨item.typeName, "Dir"⟩

/-- The check finds the first item of the inventory that belongs to the product. -/
theorem misplaced?_eq_find? :
    (∀ d : Declaration, d.misplaced? = (d.inventory.find? (·.isOfProduct)).map complaint) ∧
      ∀ items : List (ItemOf Declaration),
        misplacedAmong? items = ((inventoryAmong items).find? (·.isOfProduct)).map complaint := by
  refine Declaration.induction ?declaration ?nil ?directory ?other
  case declaration =>
    intro path id features attributes installDir items ih
    exact ih
  case nil => rfl
  case directory =>
    intro d items hd hitems
    change d.misplaced?.or (misplacedAmong? items) =
      ((.directory d :: (d.inventory ++ inventoryAmong items)).find? (·.isOfProduct)).map complaint
    rw [List.find?_cons_of_neg (by simp [ItemOf.isOfProduct]), List.find?_append, hd, hitems,
      Option.map_or]
  case other =>
    intro item items hitem ih
    rw [Arena.misplacedAmong?_cons hitem, inventoryAmong_cons hitem, List.find?_cons, ih,
      ItemOf.fitsDirectory_eq]
    cases item.isOfProduct <;> rfl

/-- The complaint is about the first item of a row that belongs to the product. -/
def IsFirstComplaint (items : List Item) (e : Misplaced) : Prop :=
  ∃ before item after, items = before ++ item :: after ∧
    (∀ x ∈ before, x.isOfProduct = false) ∧ item.isOfProduct = true ∧ e = complaint item

theorem misplacedAmong?_eq_some_iff {items : List Item} {e : Misplaced} :
    misplacedAmong? items = some e ↔ IsFirstComplaint (inventoryAmong items) e := by
  rw [misplaced?_eq_find?.2, Option.map_eq_some_iff]
  constructor
  · rintro ⟨item, hfind, rfl⟩
    obtain ⟨hitem, before, after, hsplit, hbefore⟩ := List.find?_eq_some_iff_append.1 hfind
    exact ⟨before, item, after, hsplit, fun x hx => by simpa using hbefore x hx, hitem, rfl⟩
  · rintro ⟨before, item, after, hsplit, hbefore, hitem, rfl⟩
    refine ⟨item, List.find?_eq_some_iff_append.2 ⟨hitem, before, after, hsplit, ?_⟩, rfl⟩
    exact fun x hx => by simp [hbefore x hx]

theorem misplacedAmong?_eq_none_iff {items : List Item} :
    misplacedAmong? items = none ↔ ∀ item ∈ inventoryAmong items, item.isOfProduct = false := by
  rw [misplaced?_eq_find?.2, Option.map_eq_none_iff, List.find?_eq_none]
  simp

theorem misplaced?_eq (d : Declaration) : d.misplaced? = misplacedAmong? d.items := by
  cases d
  rfl

/-- What passes the check passes it in every directory in it. -/
theorem misplaced?_of_nested {items : List Item} (h : misplacedAmong? items = none)
    {e : Declaration} (he : .directory e ∈ inventoryAmong items) : e.misplaced? = none := by
  rw [misplaced?_eq, misplacedAmong?_eq_none_iff, ← inventory_eq]
  exact fun item hitem =>
    misplacedAmong?_eq_none_iff.1 h item (mem_inventory_of_nested.2 items e he item hitem)

def Node.items (n : Node) : List Item :=
  n.files.map .file ++ n.fileSets.map .files ++ n.shortcuts.map .shortcut ++
    n.settings.map .setting

namespace Tree

/-- The items that the nodes of a tree hold, each with the number of its node. -/
def holdings (t : Tree) : List (Option Nat × Item) :=
  t.nodes.zipIdx.flatMap fun n => n.1.items.map (some n.2, ·)

theorem holdings_append (t : Tree) {ns : List Node} (h : ∀ n ∈ ns, n.items = []) :
    holdings ⟨t.nodes ++ ns⟩ = t.holdings := by
  have hnone : (ns.zipIdx (0 + t.nodes.length)).flatMap (fun n => n.1.items.map (some n.2, ·)) = [] := by
    refine List.flatMap_eq_nil_iff.2 fun n hn => ?_
    rw [h n.1 (List.fst_mem_of_mem_zipIdx hn), List.map_nil]
  rw [holdings, List.zipIdx_append, List.flatMap_append, hnone, List.append_nil, holdings]

/-- A change to a node that adds items to it adds them to the holdings. -/
theorem holdings_modify (t : Tree) {i : Nat} (hi : i < t.size) {f : Node → Node} {items : List Item}
    (hf : ∀ n : Node, (f n).items.Perm (n.items ++ items)) :
    (t.modify i f).holdings.Perm (t.holdings ++ items.map (some i, ·)) := by
  obtain ⟨ns, n, ms, hsplit, hlength, hmodify⟩ := List.exists_of_modify f hi
  have hholdings : ∀ m : Node, holdings ⟨ns ++ m :: ms⟩ = holdings ⟨ns⟩ ++
      (m.items.map (some i, ·) ++ (ms.zipIdx (i + 1)).flatMap fun n => n.1.items.map (some n.2, ·)) := by
    intro m
    rw [holdings, List.zipIdx_append, List.flatMap_append, List.zipIdx_cons, List.flatMap_cons,
      Nat.zero_add, hlength, holdings]
  have ht : t = ⟨ns ++ n :: ms⟩ := congrArg mk hsplit
  rw [modify, hmodify, hholdings, ht, hholdings, List.append_assoc]
  refine List.Perm.append_left _ ?_
  refine (((hf n).map (some i, ·)).append_right _).trans ?_
  rw [List.map_append, List.append_assoc, List.append_assoc]
  exact List.perm_append_comm.append_left _

/-- A change to a node that leaves its items alone leaves the holdings alone. -/
theorem holdings_modify_of_eq (t : Tree) (i : Nat) {f : Node → Node}
    (hf : ∀ n : Node, (f n).items = n.items) : (t.modify i f).holdings = t.holdings := by
  by_cases hi : i < t.size
  · obtain ⟨ns, n, ms, hsplit, -, hmodify⟩ := List.exists_of_modify f hi
    have ht : t = ⟨ns ++ n :: ms⟩ := congrArg mk hsplit
    rw [modify, hmodify, ht, holdings, holdings, List.zipIdx_append, List.zipIdx_append,
      List.zipIdx_cons, List.zipIdx_cons, List.flatMap_append, List.flatMap_append,
      List.flatMap_cons, List.flatMap_cons, hf]
  · rw [modify, List.modify_eq_self (Nat.le_of_not_lt hi)]

/-- A node that takes an item holds the item as well, if directories hold such items. -/
theorem items_hold (n : Node) (item : Item) :
    (hold n item).items.Perm (n.items ++ [item].filter (·.isHeld)) := by
  classical
  rw [List.perm_iff_count]
  intro x
  cases item with
  | directory | feature | property | media | dialog => simp [hold, ItemOf.isHeld]
  | file | files | shortcut | setting =>
    simp only [hold, Node.items, List.map_append, List.count_append, List.map_cons, List.map_nil,
      List.filter_cons, List.filter_nil, ItemOf.isHeld, if_true]
    omega

/-- A chain of new nodes holds nothing. -/
theorem holdings_chain (t : Tree) (above : Option Nat) (features : List String) (s : String)
    (ss : List String) :
    holdings ⟨t.nodes ++ chainNodes t.size above features s ss⟩ = t.holdings := by
  refine t.holdings_append fun n hn => ?_
  obtain ⟨name, parent, continues, rfl⟩ := mem_chainNodes hn
  rfl

/-- A directory is opened before anything is put into it. -/
theorem holdings_opened {t : Tree} {parent : Option Nat} (hp : t.Holds parent) (path : String)
    (id : Option String) (features : List String) (attributes : Attributes) (installDir : Bool) :
    (t.opened parent path id features attributes installDir).2.holdings = t.holdings := by
  obtain ⟨i, -, -, hopened⟩ | ⟨-, above, s, ss, -, hopened⟩ :=
    opened_cases path id features attributes installDir hp
  · rw [hopened]
    refine (holdings_modify_of_eq _ i (f := (·.marked id installDir)) fun _ => rfl).trans ?_
    refine (holdings_modify_of_eq _ i (f := (·.givenOwn attributes)) fun _ => rfl).trans ?_
    exact holdings_modify_of_eq t i fun _ => rfl
  · rw [hopened]
    refine (holdings_modify_of_eq _ _ (f := (·.marked id installDir)) fun _ => rfl).trans ?_
    refine (holdings_modify_of_eq _ _ (f := (·.given attributes)) fun _ => rfl).trans ?_
    exact t.holdings_chain above features s ss

/-- Declaring adds to what a tree holds all that is held of the inventory. -/
theorem map_snd_holdings_declare_and_items :
    (∀ (d : Declaration) (t : Tree) (parent : Option Nat), Founded t → t.Holds parent →
        ((t.declare parent d).2.holdings.map (·.2)).Perm
          (t.holdings.map (·.2) ++ d.inventory.filter (·.isHeld))) ∧
      ∀ (items : List (ItemOf Declaration)) (t : Tree) (i : Nat), Founded t → i < t.size →
        ((declare.declareItems t i items).holdings.map (·.2)).Perm
          (t.holdings.map (·.2) ++ (inventoryAmong items).filter (·.isHeld)) := by
  refine Declaration.induction ?declaration ?nil ?directory ?other
  case declaration =>
    intro path id features attributes installDir items ih t parent ht hp
    obtain ⟨hopened, hlt, -⟩ := keeps_opened path id features attributes installDir ht hp
    have hitems := ih _ _ hopened.founded hlt
    rwa [holdings_opened hp] at hitems
  case nil =>
    intro t i _ _
    simp [declare.declareItems, inventoryAmong, Declaration.inventory.inventoryAmong]
  case directory =>
    intro d items hd hitems t i ht hi
    have hkeeps := keeps_declare_and_items.1 d t (some i) ht (holds_some_iff.2 hi)
    have hsize := hkeeps.size_le
    have hrest := hitems (t.declare (some i) d).2 i hkeeps.founded (by omega)
    have hinventory : (inventoryAmong (.directory d :: items)).filter (·.isHeld) =
        d.inventory.filter (·.isHeld) ++ (inventoryAmong items).filter (·.isHeld) :=
      List.filter_append ..
    rw [hinventory, ← List.append_assoc]
    exact hrest.trans ((hd t (some i) ht (holds_some_iff.2 hi)).append_right _)
  case other =>
    intro item items hitem ih t i ht hi
    have hheld := (holdings_modify t hi fun n => items_hold n item).map (·.2)
    have hrest := ih (t.modify i (hold · item)) i (ht.congr (skeleton_hold t i item))
      (by rwa [size_modify])
    rw [declareItems_cons hitem, inventoryAmong_cons hitem, ← List.singleton_append,
      List.filter_append, ← List.append_assoc]
    refine hrest.trans (List.Perm.append_right _ ?_)
    simpa [Function.comp_def] using hheld

end Tree

end Installer.Directory
