import Installer.Proofs.Directory.Frames

/-!
# Directories that a declaration does not name

Directories are declared one after the other, and a later declaration meets what earlier ones made.
It changes the directories that it names, by its own path or by one nested in it, and no others;
and of those it changes neither where they stand nor what they got when they were made.
-/
namespace Installer.Directory.Tree

/-- The trees that accepted declarations make, each at the roots or under a node. -/
inductive Declared : Tree → Prop
  | empty : Declared .empty
  | add {t u : Tree} {parent : Option Nat} {d : Declaration} {leaf : Nat} (ht : Declared t)
      (hp : t.Holds parent) (h : t.add parent d = .ok (leaf, u)) : Declared u

theorem Declared.founded {t : Tree} (h : Declared t) : Founded t := by
  induction h with
  | empty => exact founded_empty
  | add _ hp h ih => exact (ih.keeps_add hp h).founded

/-- A declaration leaves every node where it is, with its name and with the attributes and the chain
that came with its making. New children come behind those that are there. All else on a node stays
as well, unless the declaration names the node; then its lists are extended at the end. -/
theorem add_changes_named {t u : Tree} (ht : Declared t) {parent : Option Nat}
    (hp : t.Holds parent) {d : Declaration} {leaf : Nat} (h : t.add parent d = .ok (leaf, u))
    {i : Nat} {n : Node} (hn : t.node? i = some n) :
    (∃ m, u.node? i = some m ∧ n.Keeps m ∧ (i ∉ t.named parent d → m = n)) ∧
      (∃ new, u.children i = t.children i ++ new ∧ ∀ j ∈ new, t.size ≤ j) ∧
      u.isContinued i = t.isContinued i ∧ u.chainHead? i = t.chainHead? i := by
  have hkeeps := ht.founded.keeps_add hp h
  have hi := lt_of_node? hn
  exact ⟨hkeeps.nodes i n hn, level_of_grows hkeeps.grows (some i), hkeeps.isContinued hi,
    hkeeps.chainHead? hi⟩

/-- A directory of two segments with attributes and a file. -/
def acmeApp : Declaration where
  path := "Acme\\App"
  attributes := .ofList [("DiskId", "1")]
  items := [.file { source := "app.exe" }]

/-- The first of those segments in another spelling, with a feature and a new directory. -/
def acmeDocs : Declaration where
  path := "acme"
  features := ["Main"]
  items := [.directory { path := "Docs", items := [.file { source := "help.txt" }] }]

/-- The tree of the first declaration. -/
def acmeTree : Tree :=
  (Tree.empty.declare none acmeApp).2

theorem add_changes_named_docs :
    Declared acmeTree ∧ acmeTree.Holds none ∧
      ∃ u n m, acmeTree.add none acmeDocs = .ok (0, u) ∧ acmeTree.node? 0 = some n ∧
        acmeTree.node? 1 = some m ∧ 1 ∉ acmeTree.named none acmeDocs ∧ u.node? 1 = some m ∧
        (∃ k, u.node? 0 = some k ∧ n.Keeps k) ∧
        (∃ new, u.children 0 = acmeTree.children 0 ++ new ∧ ∀ j ∈ new, acmeTree.size ≤ j) ∧
        u.isContinued 0 = acmeTree.isContinued 0 ∧ u.chainHead? 1 = acmeTree.chainHead? 1 := by
  have hadd : Tree.empty.add none acmeApp = .ok (1, acmeTree) := rfl
  have ht : Declared acmeTree := .add .empty (holds_none _) hadd
  have hleaf : (acmeTree.declare none acmeDocs).1 = 0 := by decide +kernel
  have hdocs : acmeTree.add none acmeDocs = .ok (0, (acmeTree.declare none acmeDocs).2) := by
    rw [add_eq_ok, ← hleaf]
    exact ⟨by decide, (Prod.eta _).symm⟩
  have hsize : acmeTree.size = 2 := by decide +kernel
  obtain ⟨n, hn⟩ := exists_node? (show 0 < acmeTree.size by omega)
  obtain ⟨m, hm⟩ := exists_node? (show 1 < acmeTree.size by omega)
  have hnamed : 1 ∉ acmeTree.named none acmeDocs := by decide +kernel
  obtain ⟨⟨k, hk, hkeeps, _⟩, hchildren, hcontinued, _⟩ :=
    add_changes_named ht (holds_none _) hdocs hn
  obtain ⟨⟨k', hk', _, hsame⟩, _, _, hhead⟩ := add_changes_named ht (holds_none _) hdocs hm
  exact ⟨ht, holds_none _, _, n, m, hdocs, hn, hm, hnamed, hsame hnamed ▸ hk', ⟨k, hk, hkeeps⟩,
    hchildren, hcontinued, hhead⟩

end Installer.Directory.Tree
