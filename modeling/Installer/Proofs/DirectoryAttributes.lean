import Installer.Proofs.Compile.Elision
import Installer.Proofs.Directory.Grants

/-!
# Verbatim attributes of directories

The element of a directory has the attributes that the declarations of the tree grant to its node.
Which node heads a chain, which one was made with others and which one was there already is read off
the finished tree when the document is written; it comes to the same as what each declaration found
at its time.
-/
namespace Installer

open Schema

namespace Directory.Tree

/-- The trees that accepted declarations make, each at the roots or under a node, with the grants of
the declarations in their order. -/
inductive Logged : Tree → List Grant → Prop
  | empty : Logged .empty []
  | add {t u : Tree} {gs : List Grant} {parent : Option Nat} {d : Declaration} {leaf : Nat}
      (ht : Logged t gs) (hp : t.Holds parent) (h : t.add parent d = .ok (leaf, u)) :
      Logged u (gs ++ t.grants parent d)

/-- A tree keeps for its nodes what has been promised. -/
theorem Logged.kept? {t : Tree} {gs : List Grant} (h : Logged t gs) :
    Founded t ∧ ∀ i key, t.kept? i key = promised? gs i key := by
  induction h with
  | empty => exact ⟨founded_empty, fun i key => rfl⟩
  | @add t u gs parent d leaf _ hp hadd ih =>
    refine ⟨(ih.1.keeps_add hp hadd).founded, fun i key => ?_⟩
    have hdeclare := (kept?_declare_and_items key).1 d t parent ih.1 hp i
    rw [(add_eq_ok.1 hadd).2, ih.2] at hdeclare
    rw [hdeclare, promised?_append]

end Directory.Tree

namespace Compile

open Directory Identifier Markup

/-- The element of a directory, or of the one above all others, before it gets any attributes. -/
def plainDirectory (p : Project) : Option Nat → Element
  | none => targetDirElement
  | some i =>
      let name := (nodeAt p i).name
      ((Element.named "Directory").set "Id" ((assignDirectories p).id i)).set "Name"
        ((specialFolder? name).getD name)

theorem get?_directoryElement {t : Tree} {i : Nat} {n : Node} (hn : t.node? i = some n)
    (id key : String) : (directoryElement t i n id).get? key = (t.kept? i key).or
      ((((Element.named "Directory").set "Id" id).set "Name"
        ((specialFolder? n.name).getD n.name)).get? key) := by
  have hhead : ∀ (o : Option Node) (e : Element),
      (e.setAll ((o.map (·.attributes.own)).getD [])).get? key =
        (o.bind (·.attributes.own? key)).or (e.get? key) := by
    intro o e
    cases o with
    | none => rfl
    | some n => exact get?_setAll_own? e n.attributes key
  have hif : ∀ (b : Bool) (e : Element),
      (e.setAll (if b then [] else n.attributes.own)).get? key =
        (if b then none else n.attributes.own? key).or (e.get? key) := by
    intro b e
    cases b with
    | true => rfl
    | false => exact get?_setAll_own? e n.attributes key
  rw [directoryElement, directoryAttributes, Element.setAll_append, Element.setAll_append,
    get?_setAll_own?, hhead, hif, Tree.kept?, hn, Option.bind_some, Option.or_assoc,
    Option.or_assoc]

/-- The attributes of an element that shows a directory are those that were promised to it. -/
theorem get?_eq_promised? {p : Project} {gs : List Grant} (hgs : p.directories.Logged gs)
    {i : Option Nat} {e : Element} (h : ShowsDirectory p i e) (key : String) :
    e.get? key = (i.bind (promised? gs · key)).or ((plainDirectory p i).get? key) := by
  cases h with
  | target inside => rfl
  | node hn inside =>
    rw [Element.get?_pushAll, get?_directoryElement hn, hgs.kept?.2, Option.bind_some,
      plainDirectory, nodeAt, hn, Option.getD_some]

theorem promised?_component (gs : List Grant) (i : Nat) (key : String) :
    promised? gs i ("Component:" ++ key) = none := by
  rw [promised?, List.findSome?_eq_none_iff]
  intro g _
  rw [Grant.value?, own?_eq, componentName?_eq_some.2 rfl]
  split <;> rfl

theorem plainDirectory_component (p : Project) (i : Option Nat) (key : String) :
    (plainDirectory p i).get? ("Component:" ++ key) = none := by
  have hid : "Id" ≠ "Component:" ++ key := fun h => by
    simpa using congrArg (fun s => s.toList.head?) h
  have hname : "Name" ≠ "Component:" ++ key := fun h => by
    simpa using congrArg (fun s => s.toList.head?) h
  have hset : ∀ id name, (((Element.named "Directory").set "Id" id).set "Name" name).get?
      ("Component:" ++ key) = none := by
    intro id name
    rw [Element.get?_set, if_neg hname, Element.get?_set, if_neg hid]
    rfl
  cases i with
  | none => exact hset _ _
  | some i => exact hset _ _

/-- Attributes of declarations land where they are granted. The directories of a document are the
one above all others and the kept ones; each of these has, for every name, the value of the last
grant to its node, and where there is none what its element has without attributes. Names behind
`Component:` stand on no directory. -/
theorem attributes_land {p : Project} {gs : List Grant} (hgs : p.directories.Logged gs)
    {c : Compiled} (hc : p.compile = .ok c) :
    List.Forall₂
      (fun i e =>
        (∀ key, e.get? key = (i.bind (promised? gs · key)).or ((plainDirectory p i).get? key)) ∧
        ∀ key, e.get? ("Component:" ++ key) = none)
      (none :: (keptOutlines p).map fun o => some o.index)
      (c.document.descendantsNamed "Directory") := by
  obtain ⟨x, hx⟩ := shows_of_compile hc
  refine (showsDirectory_of_shows hx).imp fun i e h => ⟨get?_eq_promised? hgs h, fun key => ?_⟩
  rw [get?_eq_promised? hgs h, plainDirectory_component, Option.or_none]
  cases i with
  | none => rfl
  | some i => exact promised?_component gs i key

/-- A directory of three segments, with attributes for the directories and for components. -/
def deepFolder : Declaration where
  path := "Acme\\App\\Data"
  attributes := .ofList [("DiskId", "1"), ("Component:Guid", "*")]
  items := [.file { source := "a.txt" }]

/-- The first two of the segments, with other attributes and a directory of its own. -/
def middleFolder : Declaration where
  path := "Acme\\App"
  attributes := .ofList [("DiskId", "2")]
  items := [.directory { path := "Logs", attributes := .ofList [("DiskId", "3")] }]

/-- The project with those directories and nothing else. -/
def layeredFolders : Project where
  name := "Acme"
  directories := ((Tree.empty.declare none deepFolder).2.declare none middleFolder).2

theorem compile_layeredFolders : ∃ c, layeredFolders.compile = .ok c ∧
    (c.document.descendantsNamed "Directory").map (·.get? "DiskId") =
      [none, none, some "2", some "1", some "3"] := by
  have hrun : (layeredFolders.compile.toOption.map fun c =>
      (c.document.descendantsNamed "Directory").map (·.get? "DiskId")) =
      some [none, none, some "2", some "1", some "3"] := by
    decide +kernel
  exact exists_ok_of_toOption_map hrun

theorem attributes_land_layered : ∃ gs c, layeredFolders.directories.Logged gs ∧
    (List.range 4).map (promised? gs · "DiskId") = [none, some "2", some "1", some "3"] ∧
    layeredFolders.compile = .ok c ∧
    List.Forall₂
      (fun i e =>
        (∀ key, e.get? key =
          (i.bind (promised? gs · key)).or ((plainDirectory layeredFolders i).get? key)) ∧
        ∀ key, e.get? ("Component:" ++ key) = none)
      (none :: (keptOutlines layeredFolders).map fun o => some o.index)
      (c.document.descendantsNamed "Directory") := by
  have hdeep : Tree.empty.add none deepFolder = .ok (2, (Tree.empty.declare none deepFolder).2) :=
    rfl
  have hmiddle := Tree.add_eq_ok.2 ⟨show middleFolder.misplaced? = none by decide,
    (Prod.eta ((Tree.empty.declare none deepFolder).2.declare none middleFolder)).symm⟩
  have hgs := Tree.Logged.add (.add .empty (Tree.holds_none _) hdeep) (Tree.holds_none _) hmiddle
  have hdirectories : layeredFolders.directories =
      ((Tree.empty.declare none deepFolder).2.declare none middleFolder).2 := by
    rw [layeredFolders]
  rw [← hdirectories] at hgs
  obtain ⟨c, hc, -⟩ := compile_layeredFolders
  exact ⟨_, c, hgs, by decide +kernel, hc, attributes_land hgs hc⟩

end Compile

end Installer
