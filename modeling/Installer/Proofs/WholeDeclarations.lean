import Installer.Project
import Installer.Proofs.ArenaLinks
import Installer.Proofs.Directory.Inventory

/-!
# All of a declaration or nothing

A declaration is checked as a whole, and then it is carried out by calls that check its parts again.
The calls on an arena keep what was done before a complaint, so a part that were refused late would
leave a declaration half done. None is: what is refused is refused before anything is done.
-/
namespace Installer

open Directory

namespace Directory.Arena

/-- A call on a tree and on an arena that stores it is refused or carried out. It is refused if some
item of the inventory belongs to the product, for the first such item, and then the arena is as it
was. Otherwise both hold what they held and all that is held of the inventory. -/
structure AllOrNothing {α : Type} (a : Arena) (t : Tree) (inventory : List Item)
    (onTree : Except Misplaced (α × Tree)) (onArena : Option (Except Misplaced α × Arena)) :
    Prop where
  refused_iff : (∃ e, onTree = .error e) ↔ ∃ item ∈ inventory, item.isOfProduct = true
  refused : ∀ e, onTree = .error e → IsFirstComplaint inventory e ∧ onArena = some (.error e, a)
  done : ∀ x u, onTree = .ok (x, u) → (∃ b, onArena = some (.ok x, b) ∧ b.Stores u) ∧
    (u.holdings.map (·.2)).Perm (t.holdings.map (·.2) ++ inventory.filter (·.isHeld))

section calls

variable {a : Arena} {t : Tree} (h : a.Stores t)

theorem exists_misplaced_iff {items : List Item} :
    (∃ e, misplacedAmong? items = some e) ↔
      ∃ item ∈ inventoryAmong items, item.isOfProduct = true := by
  rw [← Option.isSome_iff_exists, ← Option.ne_none_iff_isSome, ne_eq,
    misplacedAmong?_eq_none_iff]
  simp

/-- A declaration is refused by the check of its items and by nothing else. -/
theorem add_of_misplaced (a : Arena) (parent : Option Nat) {d : Declaration} {e : Misplaced}
    (he : d.misplaced? = some e) : a.add parent d = some (.error e, a) := by
  cases d with
  | mk path id features attributes installDir items =>
    have he : misplacedAmong? items = some e := he
    rw [add, he]

include h

theorem allOrNothing_add {parent : Option Nat} (hp : t.Holds parent) (d : Declaration) :
    AllOrNothing a t d.inventory (t.add parent d) (a.add parent d) := by
  have hcheck : d.misplaced? = misplacedAmong? d.items := misplaced?_eq d
  cases he : d.misplaced? with
  | some e =>
    have hadd : t.add parent d = .error e := by rw [Tree.add, he]
    have hsome := he.symm.trans hcheck
    rw [hadd, inventory_eq]
    refine ⟨⟨fun _ => exists_misplaced_iff.1 ⟨e, hsome.symm⟩, fun _ => ⟨e, rfl⟩⟩, ?_, by simp⟩
    rintro _ ⟨⟩
    exact ⟨misplacedAmong?_eq_some_iff.1 hsome.symm, a.add_of_misplaced parent he⟩
  | none =>
    have hadd : t.add parent d = .ok (t.declare parent d) := by rw [Tree.add, he]
    have hnone := (he.symm.trans hcheck).symm
    obtain ⟨b, hb, hstores⟩ := stores_add_and_putItems.1 d a t parent h hp he
    rw [hadd]
    refine ⟨⟨by simp, ?_⟩, by simp, ?_⟩
    · rintro ⟨item, hitem, hproduct⟩
      rw [inventory_eq] at hitem
      rw [misplacedAmong?_eq_none_iff.1 hnone item hitem] at hproduct
      cases hproduct
    · intro leaf u hok
      have hdeclare : t.declare parent d = (leaf, u) := Except.ok.inj hok
      have hholdings :=
        Tree.map_snd_holdings_declare_and_items.1 d t parent h.founded hp
      rw [hdeclare] at hb hstores hholdings
      exact ⟨⟨b, hb, hstores⟩, hholdings⟩

theorem allOrNothing_addItems {i : Nat} (hi : i < t.size) (items : List Item) :
    AllOrNothing a t (inventoryAmong items) ((t.addItems i items).map ((), ·))
      (a.addItems i items) := by
  cases he : misplacedAmong? items with
  | some e =>
    have hadd : t.addItems i items = .error e := by rw [Tree.addItems, he]
    rw [hadd, addItems, he]
    refine ⟨⟨fun _ => exists_misplaced_iff.1 ⟨e, he⟩, fun _ => ⟨e, rfl⟩⟩, ?_, ?_⟩
    · rintro _ ⟨⟩
      exact ⟨misplacedAmong?_eq_some_iff.1 he, rfl⟩
    · rintro _ _ ⟨⟩
  | none =>
    have hadd : t.addItems i items = .ok (Tree.declare.declareItems t i items) := by
      rw [Tree.addItems, he]
    obtain ⟨b, hb, hstores⟩ := stores_add_and_putItems.2 items a t i h hi he
    rw [hadd, addItems, he]
    refine ⟨⟨?_, ?_⟩, ?_, ?_⟩
    · rintro ⟨_, ⟨⟩⟩
    · rintro ⟨item, hitem, hproduct⟩
      rw [misplacedAmong?_eq_none_iff.1 he item hitem] at hproduct
      cases hproduct
    · rintro _ ⟨⟩
    · rintro _ _ ⟨⟩
      exact ⟨⟨b, hb, hstores⟩, Tree.map_snd_holdings_declare_and_items.2 items t i h.founded hi⟩

/-- Behind a check that passed, every call for a directory in the checked items passes, wherever the
directory is to be put by then, and so does the call for its items. -/
theorem accepts_nested {items : List Item} (hitems : misplacedAmong? items = none)
    {d : Declaration} (hd : .directory d ∈ inventoryAmong items) :
    (∀ parent, t.Holds parent → ∃ leaf b, a.add parent d = some (.ok leaf, b)) ∧
      ∀ i < t.size, ∃ b, a.addItems i d.items = some (.ok (), b) := by
  have hnone := misplaced?_of_nested hitems hd
  refine ⟨fun parent hp => ?_, fun i hi => ?_⟩
  · obtain ⟨b, hb, -⟩ := stores_add_and_putItems.1 d a t parent h hp hnone
    exact ⟨_, b, hb⟩
  · rw [misplaced?_eq] at hnone
    obtain ⟨b, hb, -⟩ := stores_add_and_putItems.2 d.items a t i h hi hnone
    exact ⟨b, by rw [addItems, hnone]; exact hb⟩

end calls

end Directory.Arena

/-- The item has to stand in a directory. -/
def Directory.ItemOf.needsDirectory {Folder : Type} : ItemOf Folder → Bool
  | .file _ | .files _ | .shortcut _ => true
  | _ => false

/-- A project whose directories are in an arena. The directories among its entries are not used. -/
structure Draft where
  entries : Project
  arena : Arena

namespace Draft

def project (w : Draft) : Project :=
  { w.entries with directories := w.arena.tree }

/-- The draft with an item of the product, or with what was done before the complaint about it. -/
def add (w : Draft) : Item → Option (Except Misplaced Unit × Draft)
  | .directory d => do
      let (result, arena) ← w.arena.add none d
      return (result.map fun _ => (), { w with arena })
  | .setting s =>
      some (.ok (), { w with entries.settings := w.entries.settings ++ [s] })
  | .feature f =>
      some (.ok (), { w with entries.features := w.entries.features ++ [f] })
  | .property q =>
      some (.ok (), { w with entries.properties := w.entries.properties ++ [q] })
  | .media m => some (.ok (), { w with entries.media := m })
  | .dialog d =>
      let ui := w.entries.ui.getD .stock
      some (.ok (), { w with entries.ui := some { ui with sequence := ui.sequence.register d } })
  | item => some (.error ⟨item.typeName, "Project"⟩, w)

/-- Adding an item to a draft is refused, with the draft as it was, or it is done, and then with all
that the item says. -/
inductive RefusedOrDone (w : Draft) (item : Item) : Prop
  | refused (e : Misplaced) (draft : w.add item = some (.error e, w))
      (project : w.project.add item = .error e)
      (reason : item.needsDirectory = true ∧ e = ⟨item.typeName, "Project"⟩ ∨
        ∃ d, item = .directory d ∧ IsFirstComplaint d.inventory e)
  | done (v : Draft) (draft : w.add item = some (.ok (), v))
      (project : w.project.add item = .ok v.project) (stores : v.arena.Stores v.arena.tree)
      (fits : item.needsDirectory = false)
      (directory : ∀ d, item = .directory d →
        (∀ x ∈ d.inventory, x.isOfProduct = false) ∧
          (v.arena.tree.holdings.map (·.2)).Perm
            (w.arena.tree.holdings.map (·.2) ++ d.inventory.filter (·.isHeld)))

theorem refusedOrDone {w : Draft} (h : w.arena.Stores w.arena.tree) (item : Item) :
    w.RefusedOrDone item := by
  cases item with
  | file f => exact .refused _ rfl rfl (.inl ⟨rfl, rfl⟩)
  | files s => exact .refused _ rfl rfl (.inl ⟨rfl, rfl⟩)
  | shortcut s => exact .refused _ rfl rfl (.inl ⟨rfl, rfl⟩)
  | setting s => exact .done _ rfl rfl h rfl (by simp)
  | feature f => exact .done _ rfl rfl h rfl (by simp)
  | property q => exact .done _ rfl rfl h rfl (by simp)
  | media m => exact .done _ rfl rfl h rfl (by simp)
  | dialog d => exact .done _ rfl rfl h rfl (by simp)
  | directory d =>
    have hall := Arena.allOrNothing_add h (Tree.holds_none _) d
    have hproject : w.project.add (.directory d) =
        (w.arena.tree.add none d).map fun added => { w.project with directories := added.2 } := by
      change ((w.arena.tree.add none d).bind _).map _ = _
      cases w.arena.tree.add none d <;> rfl
    cases hadd : w.arena.tree.add none d with
    | error e =>
      obtain ⟨hfirst, harena⟩ := hall.refused e hadd
      refine .refused e ?_ (by rw [hproject, hadd]; rfl) (.inr ⟨d, rfl, hfirst⟩)
      change (w.arena.add none d).bind _ = _
      rw [harena]
      rfl
    | ok added =>
      obtain ⟨leaf, u⟩ := added
      obtain ⟨⟨b, harena, hb⟩, hholdings⟩ := hall.done leaf u hadd
      obtain rfl : b.tree = u := hb.tree
      refine .done { w with arena := b } ?_ (by rw [hproject, hadd]; rfl) hb rfl ?_
      · change (w.arena.add none d).bind _ = _
        rw [harena]
        rfl
      · rintro _ ⟨⟩
        refine ⟨fun x hx => ?_, hholdings⟩
        rw [← Bool.not_eq_true]
        intro hproduct
        obtain ⟨e, he⟩ := hall.refused_iff.2 ⟨x, hx, hproduct⟩
        rw [hadd] at he
        cases he

end Draft

/-- A directory, items or any item of a project are taken as a whole or refused, and who refuses
leaves everything as it was. Refused is what has an item of the product in it, at any depth, for the
first such item; and what has passed the check at the top passes all checks inside. -/
theorem declarations_are_all_or_nothing :
    (∀ (a : Arena) (t : Tree), a.Stores t →
      (∀ parent, t.Holds parent → ∀ d : Declaration,
        a.AllOrNothing t d.inventory (t.add parent d) (a.add parent d)) ∧
      (∀ i < t.size, ∀ items : List Item,
        a.AllOrNothing t (inventoryAmong items) ((t.addItems i items).map ((), ·))
          (a.addItems i items)) ∧
      ∀ items : List Item, misplacedAmong? items = none →
        ∀ d : Declaration, .directory d ∈ inventoryAmong items →
          (∀ parent, t.Holds parent → ∃ leaf b, a.add parent d = some (.ok leaf, b)) ∧
            ∀ i < t.size, ∃ b, a.addItems i d.items = some (.ok (), b)) ∧
    ∀ w : Draft, w.arena.Stores w.arena.tree → ∀ item : Item, w.RefusedOrDone item :=
  ⟨fun _ _ h => ⟨fun _ hp => Arena.allOrNothing_add h hp, fun _ hi => Arena.allOrNothing_addItems h hi,
    fun _ hitems _ hd => Arena.accepts_nested h hitems hd⟩, fun _ h => Draft.refusedOrDone h⟩

/-- A directory in which two directories with items of the product stand behind a file. -/
def misplacedInside : Declaration where
  path := "App"
  items := [.file { source := "a.txt" },
    .directory { path := "Docs", items := [.feature { name := "Main" }] },
    .directory { path := "Bin", items := [.media {}] }]

/-- A project of the two segments. -/
def twoSegmentDraft : Draft where
  entries := { name := "Acme" }
  arena := Arena.twoSegments

theorem declarations_are_all_or_nothing_two_segments :
    Arena.twoSegments.Stores Arena.twoSegments.tree ∧ Arena.twoSegments.tree.Holds (some 0) ∧
      Arena.twoSegments.add (some 0) misplacedInside =
        some (.error ⟨"Feature", "Dir"⟩, Arena.twoSegments) ∧
      (∃ leaf b, Arena.twoSegments.add (some 0) Arena.emptyInside = some (.ok leaf, b) ∧
        (b.tree.holdings.map (·.2)).Perm [.file { source := "a.txt" }]) ∧
      (∃ b, Arena.twoSegments.addItems 1 Arena.emptyInside.items = some (.ok (), b)) ∧
      (∃ leaf b, Arena.twoSegments.add (some 1) { path := "" } = some (.ok leaf, b)) ∧
      twoSegmentDraft.RefusedOrDone (.directory misplacedInside) := by
  obtain ⟨hcalls, hdrafts⟩ := declarations_are_all_or_nothing
  have htwo : Arena.twoSegments.Reached :=
    .step (o := .resolve none "Acme\\App" []) .empty (by simp [Operation.Valid]) rfl
  have hstores := htwo.stores
  have hsize : Arena.twoSegments.tree.size = 2 := by decide +kernel
  have hp : Arena.twoSegments.tree.Holds (some 0) := Tree.holds_some_iff.2 (by omega)
  obtain ⟨hadd, haddItems, hnested⟩ := hcalls _ _ hstores
  have hfits : misplacedAmong? Arena.emptyInside.items = none := rfl
  have hempty : Arena.twoSegments.tree.holdings.map (·.2) = [] := by
    rw [List.map_eq_nil_iff, Tree.holdings, List.flatMap_eq_nil_iff]
    decide +kernel
  refine ⟨hstores, hp, ((hadd _ hp misplacedInside).refused ⟨"Feature", "Dir"⟩ rfl).2, ?_, ?_, ?_,
    hdrafts twoSegmentDraft hstores _⟩
  · obtain ⟨⟨b, hb, hbstores⟩, hholdings⟩ := (hadd _ hp Arena.emptyInside).done _ _ rfl
    rw [hempty, ← hbstores.tree] at hholdings
    exact ⟨_, b, hb, hholdings⟩
  · obtain ⟨⟨b, hb, -⟩, -⟩ := (haddItems 1 (by omega) Arena.emptyInside.items).done () _ rfl
    exact ⟨b, hb⟩
  · refine (hnested Arena.emptyInside.items hfits { path := "" } ?_).1 _
      (Tree.holds_some_iff.2 (by omega))
    exact List.mem_cons_of_mem _ List.mem_cons_self

end Installer
