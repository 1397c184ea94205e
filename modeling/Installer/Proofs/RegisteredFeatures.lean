import Installer.Proofs.Compile.Elision
import Installer.Proofs.Compile.MentionedFeatures
import Installer.Proofs.Directory.Deposits
import Installer.Proofs.FeatureAssignment

/-!
# The features that components are registered for

A payload may name features itself, its collection may, and the declaration that holds it may. The
compiler knows no declarations, it looks at the node on which the payload landed. Still every
component is registered for what was declared for its payload, and goes to the default feature only
where the node has no feature at all.
-/
namespace Installer
open Identifier Directory Markup Schema

/-- A payload of a declaration with the segments of all paths around it, the features that it names
itself, those that its collection names, and those of the declaration that holds it. -/
structure Membership where
  trail : List String
  payload : Payload
  own : List String
  collection : List String
  around : List String

/-- The payload as the task that it is on a node with the given features. -/
def Membership.task (m : Membership) (features : List String) : Payload × List String :=
  (m.payload, Compile.nearest [m.own, m.collection, features])

namespace Directory

/-- The payloads that an item brings itself, each with its features. -/
def ItemOf.memberships {Folder : Type} (trail around : List String) :
    ItemOf Folder → List Membership
  | .file f => [⟨trail, .file f, f.features, [], around⟩]
  | .files s => s.files.map fun f => ⟨trail, .file f, f.features, s.features, around⟩
  | .shortcut s => [⟨trail, .shortcut s, s.features, [], around⟩]
  | .setting s => [⟨trail, .setting s, s.features, [], around⟩]
  | _ => []

def Deposit.memberships (d : Deposit) : List Membership :=
  d.item.memberships d.trail d.around

/-- The payloads of a declaration that get components. -/
def Declaration.memberships (d : Declaration) : List Membership :=
  (d.deposits.flatMap Deposit.memberships).filter (!·.payload.isLoose)

theorem eq_of_mem_memberships {d : Deposit} {m : Membership} (h : m ∈ d.memberships) :
    m.trail = d.trail ∧ m.around = d.around := by
  cases hitem : d.item <;> simp only [Deposit.memberships, hitem, ItemOf.memberships, List.mem_map,
    List.mem_singleton, List.not_mem_nil] at h
  case files s =>
    obtain ⟨f, _, rfl⟩ := h
    exact ⟨rfl, rfl⟩
  all_goals exact h ▸ ⟨rfl, rfl⟩

/-- What task a payload is on a node does not depend on how it got there. -/
theorem map_task_memberships {Folder : Type} (item : ItemOf Folder)
    (trail around features : List String) :
    (item.memberships trail around).map (·.task features) =
      (item.memberships [] []).map (·.task features) := by
  cases item <;> simp [ItemOf.memberships, Membership.task]

end Directory

namespace Compile

/-- The entries for the components of a project, in the order in which the components are made. From
these the features are written. -/
def registered (p : Project) (d : DirectoryIds) : Emit (List ComponentRef) := do
  let directories ← directoryPart.directoryParts p d p.directories.outlines
  let placed ← ({} : Placement).processAll p.seed p.settings
  let (settings, _) := placedPart placed []
  return (directories.append settings).refs

theorem registered_of_compile {p : Project} {c : Compiled} (h : p.compile = .ok c) :
    ∃ b, registered p (assignDirectories p) (assignDirectories p).ids =
      .ok ((allBoxes p).map (·.ref), b) := by
  obtain ⟨w⟩ := nonempty_writing_of_compile h
  have hrefs := refs_of_directories w.writesDirectories w.placesSettings
  refine ⟨w.behindSettings, Emit.bind_eq_ok.2 ⟨w.directories, _, w.writesDirectories, ?_⟩⟩
  exact Emit.bind_eq_ok.2 ⟨w.placed, _, w.placesSettings, Emit.pure_eq_ok.2 ⟨hrefs, rfl⟩⟩

theorem nearest_cons (level : List String) (levels : List (List String)) :
    nearest (level :: levels) = if level = [] then nearest levels else level := by
  cases level <;> rfl

theorem tasksOf_eq (n : Node) : tasksOf n =
    n.items.flatMap fun item => (item.memberships [] []).map (·.task n.features) := by
  simp [tasksOf, settingTasks, Node.items, ItemOf.memberships, Membership.task, nearest_cons,
    List.flatMap_map, List.map_flatMap, Function.comp_def, ← List.map_eq_flatMap]

/-- The features of a node, if there is one. -/
def featuresAt (t : Tree) (i : Option Nat) : List String :=
  ((i.bind t.node?).map (·.features)).getD []

theorem featuresAt_some (p : Project) (i : Nat) :
    featuresAt p.directories (some i) = (nodeAt p i).features := by
  rw [featuresAt, Option.bind_some, nodeAt]
  cases p.directories.node? i <;> rfl

theorem holdings_eq_flatMap (p : Project) : p.directories.holdings =
    (List.range p.directories.size).flatMap fun i => (nodeAt p i).items.map (some i, ·) := by
  have hzip : p.directories.nodes.zipIdx =
      (List.range p.directories.size).map fun i => (nodeAt p i, i) := by
    refine List.ext_getElem (by simp [Tree.size]) fun i hi _ => ?_
    have hlt : i < p.directories.nodes.length := by simpa using hi
    simp [nodeAt, Tree.node?, List.getElem?_eq_getElem hlt]
  rw [Tree.holdings, hzip, List.flatMap_map]

theorem tasksOf_nodeAt_eq_nil {p : Project} {i : Nat} (h : p.directories.holdsPayload i = false) :
    tasksOf (nodeAt p i) = [] := by
  rw [← List.map_eq_nil_iff, map_fst_tasksOf, payloads_nodeAt_eq_nil h]

/-- The pieces of the directories, each with the number of its node. -/
def lodgers (p : Project) : List (Nat × Piece) :=
  (housing p).1.flatMap fun r => r.pieces.map (r.outline.index, ·)

/-- The pieces of the directories are the tasks of what the nodes hold. -/
theorem map_assignment_lodgers_perm (p : Project) : ((lodgers p).map assignment).Perm
    (p.directories.holdings.flatMap fun h =>
      (h.2.memberships [] []).map fun m => (h.1, m.task (featuresAt p.directories h.1))) := by
  have hnode : ∀ i, (tasksOf (nodeAt p i)).map ((some i, ·) : _ → Option Nat × _) =
      ((nodeAt p i).items.map (some i, ·)).flatMap fun h =>
        (h.2.memberships [] []).map fun m => (h.1, m.task (featuresAt p.directories h.1)) := by
    intro i
    rw [tasksOf_eq, List.map_flatMap, List.flatMap_map]
    simp only [List.map_map, featuresAt_some, Function.comp_def]
  have hempty : ∀ i, p.directories.holdsPayload i = false →
      (tasksOf (nodeAt p i)).map ((some i, ·) : _ → Option Nat × _) = [] := by
    intro i hi
    rw [tasksOf_nodeAt_eq_nil hi, List.map_nil]
  rw [lodgers, housing, map_assignment_house, holdings_eq_flatMap, List.flatMap_assoc]
  simp only [← hnode]
  exact flatMap_keptOutlines_perm p _ hempty

/-- The components of the directories' pieces are among those of the project, in their order. -/
theorem map_box_lodgers_sublist (p : Project) :
    (((lodgers p).filter (!·.2.payload.isLoose)).map fun x =>
      x.2.box p ((assignDirectories p).id x.1)).Sublist (allBoxes p) := by
  have hboxes : ∀ (directory : String) (xs : List Piece), boxes p directory xs =
      (xs.filter (!·.payload.isLoose)).map (·.box p directory) := by
    intro directory xs
    rw [boxes, ← List.filterMap_eq_map, List.filterMap_filter]
    refine List.filterMap_congr fun x _ => ?_
    cases hx : x.payload.isLoose <;> simp [Piece.box?, hx]
  rw [allBoxes, lodgers, List.filter_flatMap, List.map_flatMap]
  refine List.Sublist.trans ?_ (List.sublist_append_left _ _)
  refine List.Sublist.flatMap_right _ fun r _ => ?_
  rw [Room.boxes, hboxes, List.filter_map, List.map_map]
  exact List.sublist_append_left _ _

/-- A component with its entry in the register, for a payload on a node. The component is made around
the payload's element with the identifier in the entry, and its features are the payload's own, else
those of its collection, else all those of the declaration around it with others asked for along paths
that run through the node. There are none only where the node has none. -/
structure Registers (p : Project) (courses : List Course) (m : Membership) (i : Nat) (n : Node)
    (e : Element) (r : ComponentRef) : Prop where
  node : p.directories.lead? none m.trail = some i ∧ p.directories.node? i = some n
  component : ∃ id, e =
    ((Component.element p.seed r.id).setAll m.payload.requests).pushAll
      (Piece.element p ((assignDirectories p).id i) ⟨m.payload, r.features, id⟩ ::
        m.payload.companions)
  own : m.own ≠ [] → r.features = m.own
  collection : m.own = [] → m.collection ≠ [] → r.features = m.collection
  around : m.own = [] → m.collection = [] → m.around ⊆ r.features
  asked : m.own = [] → m.collection = [] → ∀ f ∈ r.features,
    ∃ c ∈ courses, f ∈ c.features ∧ c.RunsThrough p.directories none i
  empty : r.features = [] → n.features = []

/-- The component of a piece registers the membership of which the piece is the task. -/
theorem registers_box {p : Project} {courses : List Course} {m : Membership} {x : Nat × Piece}
    {n : Node} (hi : p.directories.arrive? none m.trail = some x.1)
    (hn : p.directories.node? x.1 = some n) (htask : (x.2.payload, x.2.features) = m.task n.features)
    (haround : m.around ⊆ n.features)
    (hasked : ∀ f ∈ n.features, ∃ c ∈ courses, f ∈ c.features ∧
      c.RunsThrough p.directories none x.1) :
    Registers p courses m x.1 n ((x.2.box p ((assignDirectories p).id x.1)).element p.seed)
      (x.2.box p ((assignDirectories p).id x.1)).ref := by
  obtain ⟨i, payload, features, id⟩ := x
  obtain ⟨rfl, rfl⟩ := Prod.mk.inj htask
  have hfeatures : ∀ directory, (Piece.box p directory
      ⟨m.payload, nearest [m.own, m.collection, n.features], id⟩).ref.features =
        nearest [m.own, m.collection, n.features] := fun _ => rfl
  have hnode : nearest [n.features] = n.features := by
    cases n.features <;> rfl
  refine ⟨⟨?_, hn⟩, ⟨id, rfl⟩, ?_, ?_, ?_, ?_, ?_⟩
  · unfold Tree.arrive? at hi
    split at hi
    · cases hi
    · exact hi
  · intro hown
    rw [hfeatures, nearest_cons, if_neg hown]
  · intro hown hcollection
    rw [hfeatures, nearest_cons, if_pos hown, nearest_cons, if_neg hcollection]
  · intro hown hcollection
    rwa [hfeatures, nearest_cons, if_pos hown, nearest_cons, if_pos hcollection, hnode]
  · intro hown hcollection
    rwa [hfeatures, nearest_cons, if_pos hown, nearest_cons, if_pos hcollection, hnode]
  · intro hempty
    rw [hfeatures, nearest_cons, nearest_cons, hnode] at hempty
    by_cases hown : m.own = []
    · rw [if_pos hown] at hempty
      by_cases hcollection : m.collection = []
      · rwa [if_pos hcollection] at hempty
      · exact absurd ((if_neg hcollection).symm.trans hempty) hcollection
    · exact absurd ((if_neg hown).symm.trans hempty) hown

/-- The task of a membership on the node to which its trail leads. -/
def Membership.place (t : Tree) (m : Membership) : Option Nat × Payload × List String :=
  (t.arrive? none m.trail, m.task (featuresAt t (t.arrive? none m.trail)))

/-- What was deposited is what the pieces of the directories came from. -/
theorem map_assignment_lodgers_perm_memberships {p : Project} {ds : List Deposit}
    (h : p.directories.holdings.Perm
      (ds.map fun d => (p.directories.arrive? none d.trail, d.item))) :
    ((lodgers p).map assignment).Perm
      ((ds.flatMap Deposit.memberships).map (Membership.place p.directories)) := by
  refine ((map_assignment_lodgers_perm p).trans (h.flatMap_right _)).trans (List.Perm.of_eq ?_)
  rw [List.flatMap_map, List.map_flatMap]
  refine List.flatMap_congr fun d _ => ?_
  let i := p.directories.arrive? none d.trail
  have htask := congrArg (List.map (i, ·))
    (map_task_memberships d.item d.trail d.around (featuresAt p.directories i))
  rw [List.map_map, List.map_map] at htask
  refine htask.symm.trans (List.map_congr_left fun m hm => ?_)
  rw [Membership.place, (eq_of_mem_memberships (d := d) hm).1]
  rfl

/-- The component of a piece of the directories. -/
def boxOf (p : Project) (x : Nat × Piece) : Box :=
  x.2.box p ((assignDirectories p).id x.1)

/-- The pieces of the directories with components, in the order of what was deposited, register the
memberships of the deposits. -/
theorem registers_deposits {p : Project} {ds : List Deposit} {cs : List Course}
    (h : Tree.Carries .empty none ds cs p.directories) :
    ∃ ys, ys.Perm ((lodgers p).filter (!·.2.payload.isLoose)) ∧
      List.Forall₂ (fun m y => ∃ i n,
          Registers p cs m i n ((boxOf p y).element p.seed) (boxOf p y).ref)
        ((ds.flatMap Deposit.memberships).filter (!·.payload.isLoose)) ys := by
  have hplaces : (((ds.flatMap Deposit.memberships).filter (!·.payload.isLoose)).map
      (Membership.place p.directories)).Perm
        (((lodgers p).filter (!·.2.payload.isLoose)).map assignment) := by
    have hperm := (map_assignment_lodgers_perm_memberships h.holdings).filter (!·.2.1.isLoose)
    rw [List.filter_map, List.filter_map] at hperm
    exact hperm.symm
  obtain ⟨ys, hsame, hys⟩ := List.perm_comp_forall₂ hplaces
    (List.forall₂_map_left_iff (R := fun k x => k = assignment x) |>.2
      (List.forall₂_same.2 fun x _ => rfl))
  refine ⟨ys, hys, ?_⟩
  rw [List.forall₂_map_left_iff] at hsame
  refine ((List.forall₂_and_left _ _).2 ⟨fun m hm => hm, hsame⟩).imp ?_
  rintro m y ⟨hm, hplace⟩
  obtain ⟨d, hd, hmd⟩ := List.mem_flatMap.1 (List.mem_of_mem_filter hm)
  obtain ⟨htrail, haround⟩ := eq_of_mem_memberships hmd
  obtain ⟨i, n, hi, hn, hfeatures⟩ := h.arrives d hd
  rw [← htrail] at hi
  obtain ⟨hindex, htask⟩ := Prod.mk.inj hplace
  obtain rfl : y.1 = i := Option.some.inj (hindex.symm.trans hi)
  have hat : featuresAt p.directories (some y.1) = n.features := by
    rw [featuresAt, Option.bind_some, hn]
    rfl
  rw [hi, hat] at htask
  refine ⟨y.1, n, registers_box hi hn htask.symm (haround ▸ hfeatures) fun f hf => ?_⟩
  obtain ⟨m, hm, -⟩ | hasked := h.asked y.1 n hn f hf
  · simp [Tree.node?, Tree.empty] at hm
  · exact hasked

/-- The features of a document have the components assigned that are in the register. -/
theorem assigns_of_shows {p : Project} {c : Compiled} {x : Content} (h : Shows p c x) :
    let ms := mentions p.options.defaultFeature ((allBoxes p).map (·.ref))
    Assigns (documentFeatures p ms) ms (c.document.elements.flatMap (·.childrenNamed "Feature")) := by
  intro ms
  obtain ⟨part, warnings, b, hrun, hfeatures, -⟩ := h.written
  obtain ⟨hwrites, hnone, -⟩ := writes_allFeatureParts hrun
  have hassigns := hwrites.assigns hnone
  have hnames : x.features.filter (·.name == "Feature") = x.features := by
    rw [List.filter_eq_self]
    intro e he
    rw [beq_iff_eq]
    exact name_of_shows (hfeatures ▸ hassigns.forest) e he
  rwa [h.childrenNamed_feature, hnames, hfeatures]

/-- Whatever directories are declared in whatever order, the register has an entry for each component
in the order of the document, and those of the declared payloads are for the features declared for
them. The features of the document are written from the register, where an entry without features
counts for the default feature. -/
theorem registered_features_declared {ds : List Declaration} (hds : ∀ d ∈ ds, d.hasPaths = true)
    {p : Project} (hp : p.directories = Tree.build (ds.map .add)) {c : Compiled}
    (hc : p.compile = .ok c) :
    ∃ refs b, registered p (assignDirectories p) (assignDirectories p).ids = .ok (refs, b) ∧
      refs.length = (c.document.descendantsNamed "Component").length ∧
      (∃ entries, entries.Subperm ((c.document.descendantsNamed "Component").zip refs) ∧
        List.Forall₂ (fun m x => ∃ i n,
            Registers p ((Tree.accepted ds).flatMap Declaration.courses) m i n x.1 x.2)
          ((Tree.accepted ds).flatMap Declaration.memberships) entries) ∧
      Assigns (documentFeatures p (mentions p.options.defaultFeature refs))
        (mentions p.options.defaultFeature refs)
        (c.document.elements.flatMap (·.childrenNamed "Feature")) := by
  obtain ⟨b, hregistered⟩ := registered_of_compile hc
  obtain ⟨x, hx⟩ := shows_of_compile hc
  have hcomponents : c.document.descendantsNamed "Component" =
      (allBoxes p).map (·.element p.seed) := by
    rw [Element.descendantsNamed_eq_allNamed, hx.allNamed_component]
  have hcarries := Tree.carries_build hds
  rw [← hp] at hcarries
  have hmemberships : (Tree.accepted ds).flatMap Declaration.memberships =
      (((Tree.accepted ds).flatMap Declaration.deposits).flatMap Deposit.memberships).filter
        (!·.payload.isLoose) := by
    rw [List.flatMap_assoc, List.filter_flatMap]
    rfl
  obtain ⟨ys, hys, hregisters⟩ := registers_deposits hcarries
  refine ⟨_, b, hregistered, by simp [hcomponents],
    ⟨ys.map fun y => ((boxOf p y).element p.seed, (boxOf p y).ref), ?_, ?_⟩, assigns_of_shows hx⟩
  · have hzip : (c.document.descendantsNamed "Component").zip ((allBoxes p).map (·.ref)) =
        (allBoxes p).map fun b => (b.element p.seed, b.ref) := by
      rw [hcomponents, List.zip_map']
    have hsublist := (map_box_lodgers_sublist p).map fun b : Box => (b.element p.seed, b.ref)
    rw [List.map_map] at hsublist
    rw [hzip]
    exact (hys.map _).subperm.trans hsublist.subperm
  · rwa [hmemberships, List.forall₂_map_right_iff]

/-- Declarations of which the second meets the first directory of the first, the third meets both, and
the last is refused. -/
def meetingDeclarations : List Declaration := [
  { path := "Acme\\Bin"
    id := some "BinFolder"
    features := ["Main"]
    items := [.file { source := "a.txt" }, .file { source := "b.txt", features := ["Own"] },
      .files { pattern := "*.dll", features := ["Set"], files := [{ source := "c.dll" }] }] },
  { path := "acme"
    id := some "AcmeFolder"
    items := [.setting (.environment { name := "HOME" }),
      .directory {
        path := "Docs", id := some "DocsFolder", items := [.file { source := "d.txt" }] }] },
  { path := "ACME/bin", features := ["Main", "Extra"] },
  { path := "Acme", features := ["Never"], items := [.feature { name := "Never" }] }]

/-- A project of these declarations. -/
def meetingProject : Project where
  name := "Acme"
  directories := Tree.build (meetingDeclarations.map .add)

theorem registered_features_declared_meeting :
    (∀ d ∈ meetingDeclarations, d.hasPaths = true) ∧
      ∃ c refs b, meetingProject.compile = .ok c ∧
        registered meetingProject (assignDirectories meetingProject)
          (assignDirectories meetingProject).ids = .ok (refs, b) ∧
        refs.map (fun r => (r.id, r.features)) =
          [("Component.HOME", ["Main"]), ("Component.a.txt", ["Main", "Extra"]),
            ("Component.b.txt", ["Own"]), ("Component.c.dll", ["Set"]), ("Component.d.txt", [])] ∧
        ∃ entries, entries.Subperm ((c.document.descendantsNamed "Component").zip refs) ∧
          List.Forall₂ (fun m x => ∃ i n, Registers meetingProject
              ((Tree.accepted meetingDeclarations).flatMap Declaration.courses) m i n x.1 x.2)
            ((Tree.accepted meetingDeclarations).flatMap Declaration.memberships) entries := by
  have hpaths : ∀ d ∈ meetingDeclarations, d.hasPaths = true := by decide +kernel
  have hrun : (meetingProject.compile.toOption.map fun c => c.document.idsOf "Feature") =
      some ["Complete", "Main", "Extra", "Own", "Set"] := by
    decide +kernel
  have hrefs : ((registered meetingProject (assignDirectories meetingProject)
      (assignDirectories meetingProject).ids).toOption.map fun r =>
        r.1.map fun r => (r.id, r.features)) =
      some [("Component.HOME", ["Main"]), ("Component.a.txt", ["Main", "Extra"]),
        ("Component.b.txt", ["Own"]), ("Component.c.dll", ["Set"]), ("Component.d.txt", [])] := by
    decide +kernel
  have hbuilt : meetingProject.directories = Tree.build (meetingDeclarations.map .add) := rfl
  obtain ⟨c, hc, -⟩ := exists_ok_of_toOption_map hrun
  obtain ⟨refs, b, hregistered, -, hentries, -⟩ := registered_features_declared hpaths hbuilt hc
  refine ⟨hpaths, c, refs, b, hc, hregistered, ?_, hentries⟩
  rw [hregistered] at hrefs
  exact Option.some.inj hrefs

end Compile

end Installer
