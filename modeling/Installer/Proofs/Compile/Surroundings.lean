import Installer.Proofs.Compile.DocumentParts
import Installer.Proofs.Compile.NamedFeatures
import Installer.Proofs.Compile.Numbering
import Installer.Proofs.Compile.Policies

/-!
# What stands around the directories

Beside its directories a document has a frame and the features. The frame does not depend on what
becomes of empty directories. The features do, as a component that keeps a directory alive is one
more to refer to, but fewer components never stand in the way of writing them.
-/
namespace Installer.Compile
open Identifier Directory Markup Schema

/-- The settings of the product in their places, and what stands before the directories. -/
def opening (p : Project) : Emit (Placement × List Element) := do
  let placed ← ({} : Placement).processAll p.seed p.settings
  let media ← Media.schema.emit p.media
  let upgrade ← p.majorUpgrade.toList.mapM MajorUpgrade.schema.emit
  return (placed, [packageElement p, media.element] ++ upgrade.map (·.element))

/-- What stands behind the features. -/
def closing (p : Project) (d : DirectoryIds) : Emit (List Element) := do
  let properties ← p.properties.mapM Property.schema.emit
  let ui ← interfaceElements p d.installDirId
  return properties.map (·.element) ++ ui

theorem idle_interfaceElements (p : Project) (installDir : Option String) :
    Idle (interfaceElements p installDir) := by
  have hcontrol : ∀ c : Dialog.Control, Idle c.emit := fun c =>
    .bind (.emit rfl) fun _ => .pure _
  have hdefinition : ∀ d : Dialog.Definition, Idle d.emit := fun d =>
    .bind (.emit rfl) fun _ => .bind (.mapM hcontrol _) fun _ => .pure _
  have hui : ∀ ui : Dialog.Interface, Idle ui.emit := fun ui =>
    .bind (.mapM (fun _ => .emit rfl) _) fun _ => .bind (.mapM hdefinition _) fun _ => .pure _
  unfold interfaceElements
  split
  · split
    · exact .bind (hui _) fun _ => .pure _
    · exact .pure _
  · exact .pure _

theorem idle_closing (p : Project) (d : DirectoryIds) : Idle (closing p d) :=
  .bind (.mapM (fun _ => .emit rfl) _) fun _ =>
    .bind (idle_interfaceElements p _) fun _ => .pure _

/-- A document but for its directories and its features. -/
structure Frame where
  usesUtil : Bool
  before : List Element
  components : List Element
  loose : List Element
  behind : List Element

/-- The frame around the settings of the product in their places. -/
def frameOf (usesUtil : Bool) (placed : Placement) (before behind : List Element) : Frame where
  usesUtil := usesUtil || placed.usesUtil
  before
  components := placed.components
  loose := placed.parentElements
  behind

/-- The directory above all others, with directories in it. -/
def Frame.target (x : Frame) (directories : List Element) : Element :=
  targetDirElement.pushAll (directories ++ x.components)

/-- The document with directories and features. -/
def Frame.document (p : Project) (x : Frame) (directories features : List Element) : Element :=
  rootElement x.usesUtil ((productElement p).pushAll
    (x.before ++ [x.target directories] ++ x.loose ++ features ++ x.behind))

namespace Frame

/-- Nothing in the frame is a directory, but for the one above all others. -/
structure Plain (x : Frame) : Prop where
  before : Element.allNamed "Directory" x.before = []
  components : Element.allNamed "Directory" x.components = []
  loose : Element.allNamed "Directory" x.loose = []
  behind : Element.allNamed "Directory" x.behind = []

/-- The elements of a name in a document, in their order. -/
theorem allNamed_document (p : Project) (x : Frame) {name : String} (hproduct : name ≠ "Product")
    (directories features : List Element) :
    Element.allNamed name (x.document p directories features).elements =
      Element.allNamed name x.before ++ (if name = "Directory" then [x.target directories] else []) ++
        Element.allNamed name directories ++ Element.allNamed name x.components ++
        Element.allNamed name x.loose ++ Element.allNamed name features ++
        Element.allNamed name x.behind := by
  let product := (productElement p).pushAll
    (x.before ++ [x.target directories] ++ x.loose ++ features ++ x.behind)
  have hroot : (x.document p directories features).elements = [product] := by
    simp [document, rootElement, product]
  have hname : ¬ product.name = name := by
    intro h
    simp [product, productElement] at h
    exact hproduct h.symm
  have helements : product.elements =
      x.before ++ [x.target directories] ++ x.loose ++ features ++ x.behind := by
    simp [product, productElement]
  have htarget : Element.allNamed name [x.target directories] =
      (if name = "Directory" then [x.target directories] else []) ++
        (Element.allNamed name directories ++ Element.allNamed name x.components) := by
    rw [Element.allNamed_cons]
    simp [target, targetDirElement, eq_comm]
  rw [hroot, Element.allNamed_cons, if_neg hname, helements]
  simp only [Element.allNamed_append, htarget, Element.allNamed_nil, List.nil_append,
    List.append_nil, List.append_assoc]

/-- The elements of a name in a document whose features have none of it. -/
theorem descendantsNamed_document (p : Project) (x : Frame) {name : String}
    {directories features : List Element} (hproduct : name ≠ "Product")
    (hfeatures : Element.allNamed name features = []) :
    (x.document p directories features).descendantsNamed name =
      Element.allNamed name x.before ++ (if name = "Directory" then [x.target directories] else []) ++
        Element.allNamed name directories ++ Element.allNamed name x.components ++
        Element.allNamed name x.loose ++ Element.allNamed name x.behind := by
  rw [Element.descendantsNamed_eq_allNamed, allNamed_document p x hproduct, hfeatures,
    List.append_nil]

/-- The directories of a document are the one above all others and those that are put into it. -/
theorem Plain.descendantsNamed_directory {x : Frame} (h : x.Plain) (p : Project)
    {directories features : List Element} (hfeatures : Element.allNamed "Directory" features = []) :
    (x.document p directories features).descendantsNamed "Directory" =
      x.target directories :: Element.allNamed "Directory" directories := by
  rw [descendantsNamed_document p x (by decide) hfeatures, h.before, h.components, h.loose,
    h.behind]
  simp

end Frame

theorem Quiet.allNamed_directory {es : List Element} (h : Quiet es) :
    Element.allNamed "Directory" es = [] :=
  Element.allNamed_eq_nil fun e he hname => h e he (by rw [hname]; decide)

/-- The settings of the product are written as pieces, and what stands before is quiet. -/
theorem opening_spec {p : Project} {placed : Placement} {before : List Element} {a b : Allocator}
    (h : opening p a = .ok ((placed, before), b)) : Quiet before ∧
      placed.components ++ placed.parentElements =
        pieceElements p targetDirId (furnish a (settingTasks [] p.settings)).1 := by
  obtain ⟨settings, _, hplaced, h⟩ := Emit.bind_eq_ok.1 h
  obtain ⟨media, _, hmedia, h⟩ := Emit.bind_eq_ok.1 h
  obtain ⟨upgrade, _, hupgrade, h⟩ := Emit.bind_eq_ok.1 h
  obtain ⟨heq, -⟩ := Emit.pure_eq_ok.1 h
  obtain ⟨rfl, rfl⟩ := Prod.mk.inj heq
  exact ⟨((quiet_packageElement p).append (quiet_media hmedia)).append
      (.mapM hupgrade fun _ _ _ _ hemit => quiet_majorUpgrade hemit),
    (furnishes_settings targetDirId [] hplaced).elements⟩

theorem quiet_closing {p : Project} {d : DirectoryIds} {behind : List Element} {a b : Allocator}
    (h : closing p d a = .ok (behind, b)) : Quiet behind := by
  obtain ⟨properties, _, hproperties, h⟩ := Emit.bind_eq_ok.1 h
  obtain ⟨ui, _, hui, h⟩ := Emit.bind_eq_ok.1 h
  obtain ⟨rfl, -⟩ := Emit.pure_eq_ok.1 h
  exact (Quiet.mapM hproperties fun _ _ _ _ hemit => quiet_property hemit).append
    (quiet_interfaceElements hui)

/-- The frame of a document holds no directories. -/
theorem plain_frameOf {p : Project} {d : DirectoryIds} {placed : Placement}
    {before behind : List Element} {a b c e : Allocator}
    (hopening : opening p a = .ok ((placed, before), b))
    (hclosing : closing p d c = .ok (behind, e)) (usesUtil : Bool) :
    (frameOf usesUtil placed before behind).Plain := by
  obtain ⟨hquiet, hsettings⟩ := opening_spec hopening
  have hnone : Element.allNamed "Directory" (placed.components ++ placed.parentElements) = [] := by
    rw [hsettings]
    exact Element.allNamed_eq_nil_of_names (fun _ => name_of_mem_within_pieces p targetDirId)
      (by decide)
  rw [Element.allNamed_append, List.append_eq_nil_iff] at hnone
  exact ⟨hquiet.allNamed_directory, hnone.1, hnone.2, (quiet_closing hclosing).allNamed_directory⟩

/-- A compiled document but for its directories. -/
structure Surroundings where
  frame : Frame
  features : List Element
  ids : List Assigned
  warnings : List Warning

/-- The document with directories, and the report on it. -/
def Surroundings.compiled (p : Project) (d : DirectoryIds) (s : Surroundings)
    (directories : List Element) : Compiled where
  document := s.frame.document p directories s.features
  ids := s.ids
  installDir := d.installDirId
  warnings := s.warnings

/-- The surroundings of directories of which only the tally is known. -/
def surroundings (p : Project) (d : DirectoryIds) (tally : Part) : Emit Surroundings := do
  let (placed, before) ← opening p
  let all := tally.append (placedPart placed []).1
  let (features, warnings) ← allFeatureParts p all.refs
  let behind ← closing p d
  return ⟨frameOf tally.usesUtil placed before behind, features.elements,
    d.report p.directories ++ all.assigned ++ features.assigned, d.warnings ++ warnings⟩

/-- Surroundings hold no directories, and their features nothing but features. -/
theorem plain_surroundings {p : Project} {d : DirectoryIds} {tally : Part} {s : Surroundings}
    {a b : Allocator} (h : surroundings p d tally a = .ok (s, b)) :
    s.frame.Plain ∧ ∀ e ∈ Element.within s.features, e.name ∈ featureNames := by
  obtain ⟨⟨placed, before⟩, _, hopening, h⟩ := Emit.bind_eq_ok.1 h
  obtain ⟨⟨features, warnings⟩, _, hfeatures, h⟩ := Emit.bind_eq_ok.1 h
  obtain ⟨behind, _, hclosing, h⟩ := Emit.bind_eq_ok.1 h
  obtain ⟨rfl, -⟩ := Emit.pure_eq_ok.1 h
  exact ⟨plain_frameOf hopening hclosing _, (refers_allFeatureParts hfeatures).names⟩

/-- With fewer components the surroundings are still written, in the same frame. -/
theorem exists_surroundings_of_subset {p : Project} {d : DirectoryIds} {tally more : Part}
    (hrefs : tally.refs ⊆ more.refs) (hutil : tally.usesUtil = more.usesUtil) {s : Surroundings}
    {a b : Allocator} (h : surroundings p d more a = .ok (s, b)) :
    ∃ t c, surroundings p d tally a = .ok (t, c) ∧ t.frame = s.frame := by
  obtain ⟨⟨placed, before⟩, e, hopening, h⟩ := Emit.bind_eq_ok.1 h
  obtain ⟨⟨features, warnings⟩, f, hfeatures, h⟩ := Emit.bind_eq_ok.1 h
  obtain ⟨behind, g, hclosing, h⟩ := Emit.bind_eq_ok.1 h
  obtain ⟨rfl, -⟩ := Emit.pure_eq_ok.1 h
  have hsubset : (tally.append (placedPart placed []).1).refs ⊆
      (more.append (placedPart placed []).1).refs := by
    intro r hr
    rcases List.mem_append.1 hr with hr | hr
    · exact List.mem_append_left _ (hrefs hr)
    · exact List.mem_append_right _ hr
  obtain ⟨⟨⟨fewer, others⟩, c⟩, hfewer⟩ := exists_allFeatureParts_of_subset hsubset hfeatures e
  have hbehind := (idle_closing p d).run hclosing c
  refine ⟨_, c, Emit.bind_eq_ok.2 ⟨_, e, hopening, Emit.bind_eq_ok.2 ⟨_, c, hfewer,
    Emit.bind_eq_ok.2 ⟨_, c, hbehind, rfl⟩⟩⟩, ?_⟩
  rw [hutil]

/-- A document is written by writing its directories and then its surroundings. -/
theorem document_eq (p : Project) (d : DirectoryIds) : document p d = do
    let part ← directoryPart.directoryParts p d p.directories.outlines
    let s ← surroundings p d part.tally
    return s.compiled p d part.elements := by
  simp only [document, surroundings, opening, closing, bind_assoc, pure_bind]
  refine bind_congr fun part => bind_congr fun placed => bind_congr fun media =>
    bind_congr fun upgrade => bind_congr fun features => bind_congr fun properties =>
      bind_congr fun ui => ?_
  rw [List.append_assoc _ (properties.map _) ui]
  rfl

/-- A compiled document has its directories, and its surroundings behind them. -/
theorem surroundings_of_compile {p : Project} {c : Compiled} (h : p.compile = .ok c) :
    ∃ part s a b, directoryPart.directoryParts p (assignDirectories p) p.directories.outlines
        (assignDirectories p).ids = .ok (part, a) ∧
      surroundings p (assignDirectories p) part.tally a = .ok (s, b) ∧
      s.compiled p (assignDirectories p) part.elements = c := by
  obtain ⟨_, hrun⟩ := compile_eq_ok.1 h
  rw [document_eq] at hrun
  obtain ⟨part, a, hpart, hrun⟩ := Emit.bind_eq_ok.1 hrun
  obtain ⟨s, b', hs, hrun⟩ := Emit.bind_eq_ok.1 hrun
  obtain ⟨rfl, rfl⟩ := Emit.pure_eq_ok.1 hrun
  exact ⟨part, s, a, b', hpart, hs, rfl⟩

theorem document_withPolicy (p : Project) (d : DirectoryIds) (policy : EmptyDirectoryPolicy) :
    document (p.withPolicy policy) d = do
      let part ← directoryPart.directoryParts (p.withPolicy policy) d p.directories.outlines
      let s ← surroundings p d part.tally
      return s.compiled p d part.elements :=
  document_eq (p.withPolicy policy) d

theorem number_withPolicy (p : Project) (policy : EmptyDirectoryPolicy) (installDir : Option Nat) :
    (∀ o parent s, number (p.withPolicy policy) installDir parent s o =
        number p installDir parent s o) ∧
      ∀ os parent s, number.numberAll (p.withPolicy policy) installDir parent s os =
        number.numberAll p installDir parent s os := by
  refine Outline.induction ?node ?nil ?cons
  case node =>
    intro i children ih parent s
    rw [number, number]
    exact ih _ _
  case nil => exact fun _ _ => rfl
  case cons =>
    intro o os ho hos parent s
    rw [number.numberAll, number.numberAll, ho, hos]

/-- The identifiers of directories do not depend on what becomes of empty ones. -/
theorem assignDirectories_withPolicy (p : Project) (policy : EmptyDirectoryPolicy) :
    assignDirectories (p.withPolicy policy) = assignDirectories p := by
  have hnumber : numbered (p.withPolicy policy) = numbered p :=
    (number_withPolicy p policy (chosenInstallDir p).1).2 p.directories.outlines none
      { ids := startingIds p }
  rw [assignDirectories_eq, assignDirectories_eq, hnumber]
  rfl

def layoutElements (p : Project) (ls : List Layout) : List Element :=
  ls.map (Layout.element (shellOf p (assignDirectories p)))

/-- What is reported of layouts. -/
def tallyOf (p : Project) (ls : List Layout) : Part :=
  (Layout.part.parts (shellOf p (assignDirectories p)) ls).tally

/-- The layouts without the directories in which nothing is held. -/
def thinned (p : Project) (ls : List Layout) : List Layout :=
  ls.flatMap (Layout.pruned p.directories.holdsPayload)

/-- The layouts with a component in each directory that holds nothing and has none below it. -/
def keptAlive (p : Project) (ls : List Layout) : List Layout :=
  ls.map (Layout.withKeepers p.directories.holdsPayload (keeperPart p (assignDirectories p)))

/-- What a policy makes of layouts. -/
def underPolicy (p : Project) : EmptyDirectoryPolicy → List Layout → List Layout
  | .component => keptAlive p
  | .elide => thinned p
  | .keep => id

theorem flatMap_under (p : Project) (policy : EmptyDirectoryPolicy) (ls : List Layout) :
    ls.flatMap (·.under p (assignDirectories p) policy) = underPolicy p policy ls := by
  cases policy with
  | component => exact List.map_eq_flatMap.symm
  | elide => rfl
  | keep => exact List.flatMap_singleton' ls

/-- Layouts for all directories of a project, one for each and all with what is written for its
items. -/
structure LaysOut (p : Project) (ls : List Layout) : Prop where
  outlines : ls.map Layout.outline = p.directories.outlines
  fits : ∀ l ∈ ls.flatMap Layout.walk, l.Fits p (assignDirectories p)

/-- All directories laid out, behind their identifiers. -/
def laidOut (p : Project) : Except MissingValue (List Layout × Allocator) :=
  layout.layouts p (assignDirectories p) p.directories.outlines (assignDirectories p).ids

theorem laysOut_of_laidOut {p : Project} {ls : List Layout} {a : Allocator}
    (h : laidOut p = .ok (ls, a)) : LaysOut p ls :=
  have hls := (fits_layout p (assignDirectories p)).2 _ _ _ _ h
  ⟨hls.1, hls.2⟩

def documentOf (p : Project) (ls : List Layout) : Emit Compiled := do
  let s ← surroundings p (assignDirectories p) (tallyOf p ls)
  return s.compiled p (assignDirectories p) (layoutElements p ls)

/-- Under a policy a project is compiled by laying its directories out, whatever the policy, and by
writing the document of what the policy makes of the layouts. -/
theorem compile_withPolicy (p : Project) (policy : EmptyDirectoryPolicy) :
    (p.withPolicy policy).compile = (laidOut p).bind fun laid =>
      (documentOf p (underPolicy p policy laid.1) laid.2).map (·.1) := by
  have hrun : (p.withPolicy policy).compile =
      ((document (p.withPolicy policy) (assignDirectories p)) (assignDirectories p).ids).map
        (·.1) := by
    rw [← assignDirectories_withPolicy p policy]
    rfl
  have hparts := (directoryPart_eq_layout p (assignDirectories p) policy).2 p.directories.outlines
    (assignDirectories p).ids
  rw [hrun, document_withPolicy]
  cases hlaid : laidOut p with
  | error e =>
    rw [show layout.layouts p (assignDirectories p) p.directories.outlines (assignDirectories p).ids
      = .error e from hlaid] at hparts
    rw [Emit.bind_of_error hparts]
    rfl
  | ok laid =>
    obtain ⟨ls, a⟩ := laid
    rw [show layout.layouts p (assignDirectories p) p.directories.outlines (assignDirectories p).ids
      = .ok (ls, a) from hlaid] at hparts
    rw [Emit.bind_of_ok hparts, flatMap_under, (Layout.elements_part _).2]
    rfl

theorem compile_withPolicy_of_laidOut {p : Project} {ls : List Layout} {a : Allocator}
    (h : laidOut p = .ok (ls, a)) (policy : EmptyDirectoryPolicy) :
    (p.withPolicy policy).compile = (documentOf p (underPolicy p policy ls) a).map (·.1) := by
  rw [compile_withPolicy, h]
  rfl

theorem laidOut_of_compile {p : Project} {policy : EmptyDirectoryPolicy} {c : Compiled}
    (h : (p.withPolicy policy).compile = .ok c) : ∃ ls a b, laidOut p = .ok (ls, a) ∧
      documentOf p (underPolicy p policy ls) a = .ok (c, b) := by
  cases hlaid : laidOut p with
  | error e =>
    rw [compile_withPolicy, hlaid] at h
    cases h
  | ok laid =>
    obtain ⟨ls, a⟩ := laid
    rw [compile_withPolicy_of_laidOut hlaid] at h
    cases hdocument : documentOf p (underPolicy p policy ls) a with
    | error e =>
      rw [hdocument] at h
      cases h
    | ok r =>
      rw [hdocument] at h
      cases h
      exact ⟨ls, a, r.2, rfl, hdocument⟩

end Installer.Compile
