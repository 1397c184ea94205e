import Installer.Proofs.Compile.Elision
import Installer.Proofs.EmptyDirectories

/-!
# Directories that are installed

A directory is on the disk after an installation if a component stands in it or anywhere below. What
a directory is said to hold need not become a component: files that were to be found by a pattern may
not be there, and the closing of an application needs none. So a directory can hold something and
still be neither kept alive nor left out.
-/
namespace Installer.Compile
open Identifier Directory Markup Schema

/-- The directories of a document below the one above all others, at any depth. -/
def belowTarget (c : Compiled) : List Element :=
  ((c.document.descendantsNamed "Directory").filter
    fun e => e.get? "Id" == some targetDirId).flatMap (·.descendantsNamed "Directory")

/-- All directories of a project, each with those below it. -/
def allOutlines (p : Project) : List Outline :=
  keptOutlines (p.withPolicy .keep)

theorem map_outline_walk (p : Project) :
    (∀ l : Layout, l.walk.map Layout.outline = kept (p.withPolicy .keep) l.outline) ∧
      ∀ ls : List Layout, (ls.flatMap Layout.walk).map Layout.outline =
        (ls.map Layout.outline).flatMap (kept (p.withPolicy .keep)) := by
  refine Layout.induction ?node ?nil ?cons
  case node =>
    intro i content children ih
    rw [Layout.walk_eq, List.map_cons, ih, Layout.outline_eq, kept, keptAll_eq_flatMap]
    rfl
  case nil => rfl
  case cons =>
    intro l ls hl hls
    rw [List.flatMap_cons, List.map_append, hl, hls, List.map_cons, List.flatMap_cons]

/-- The layouts of a project's directories have their outlines. -/
theorem LaysOut.map_outline {p : Project} {ls : List Layout} (h : LaysOut p ls) :
    (ls.flatMap Layout.walk).map Layout.outline = allOutlines p := by
  rw [(map_outline_walk p).2, h.outlines]
  rfl

theorem LaysOut.forall_outlines {p : Project} {ls : List Layout} (h : LaysOut p ls)
    {P : Outline → Prop} : (∀ o ∈ allOutlines p, P o) ↔ ∀ l ∈ ls.flatMap Layout.walk, P l.outline := by
  rw [← h.map_outline, List.forall_mem_map]

/-- What has a name other than a directory's in the element of a layout is in the contents. -/
theorem descendantsNamed_element (p : Project) {name : String} (hname : name ≠ "Directory")
    (l : Layout) :
    (l.element (shellOf p (assignDirectories p))).descendantsNamed name =
      l.walk.flatMap fun m => Element.allNamed name m.content.elements := by
  have hshell := shellOf_spec p (assignDirectories p)
  have hother : ¬ (l.element (shellOf p (assignDirectories p))).name = name := by
    obtain ⟨i, content, children⟩ := l
    rw [Layout.element_eq, Element.pushAll_name, (hshell i).1]
    exact hname.symm
  rw [← (Layout.allNamed_elements hshell hname).1, Element.descendantsNamed_eq_allNamed,
    Element.allNamed_cons, if_neg hother]
  simp

/-- The directories below the one above all others are the elements of the layouts. -/
theorem Consists.forall_belowTarget {p : Project} {x : Frame} {features : List Element}
    {ls : List Layout} {c : Compiled} (h : Consists p x features ls c)
    (hls : ∀ l ∈ ls.flatMap Layout.walk, Element.allNamed "Directory" l.content.elements = [])
    {P : Element → Prop} : (∀ e ∈ belowTarget c, P e) ↔
      ∀ l ∈ ls.flatMap Layout.walk, P (l.element (shellOf p (assignDirectories p))) := by
  have hshell := shellOf_spec p (assignDirectories p)
  have htarget : (x.target (layoutElements p ls)).descendantsNamed "Directory" =
      layoutElements p (ls.flatMap Layout.walk) := by
    have hall := (Layout.allNamed_directory hshell).2 ls hls
    rw [Element.descendantsNamed_eq_allNamed, Frame.target, Element.elements_pushAll,
      Element.allNamed_append, Element.allNamed_append, h.frame.components, layoutElements, hall]
    simp [targetDirElement, layoutElements]
  have hmem : ∀ e, e ∈ belowTarget c ↔ e ∈ layoutElements p (ls.flatMap Layout.walk) := by
    intro e
    rw [belowTarget, h.directories]
    constructor
    · intro he
      obtain ⟨f, hf, he⟩ := List.mem_flatMap.1 he
      rcases List.mem_cons.1 (List.mem_filter.1 hf).1 with rfl | hf
      · exact htarget ▸ he
      · -- Below a directory that is below stands nothing new.
        obtain ⟨l, hl, rfl⟩ := List.mem_map.1 hf
        have hsubset := Layout.walk_subset.2 ls l hl
        have hwithin : e ∈ Element.allNamed "Directory"
            [l.element (shellOf p (assignDirectories p))] := by
          rw [Element.descendantsNamed_eq_allNamed] at he
          rw [Element.allNamed_cons]
          exact List.mem_append_left _ (List.mem_append_right _ he)
        rw [(Layout.allNamed_directory hshell).1 l fun m hm => hls m (hsubset hm)] at hwithin
        exact List.map_subset _ hsubset hwithin
    · intro he
      refine List.mem_flatMap.2 ⟨_, List.mem_filter.2 ⟨List.mem_cons_self, ?_⟩, htarget ▸ he⟩
      rw [Frame.target, Element.get?_pushAll]
      decide
  simp only [hmem, layoutElements, List.forall_mem_map]

theorem payload_mem_furnish {p : Project} {i : Nat} {a : Allocator} {q : Payload} :
    q ∈ (nodeAt p i).payloads ↔
      ∃ x ∈ (furnish a (tasksOf (nodeAt p i))).1, x.payload = q := by
  rw [← map_fst_tasksOf, ← map_payload_furnish a, List.mem_map]

theorem elementName_of_isLoose {q : Payload} (h : q.isLoose = true) :
    q.elementName = "util:CloseApplication" := by
  cases q with
  | file f | shortcut s => cases h
  | setting s =>
    cases s with
    | closeApplication c => rfl
    | registry r | environment v => cases h

section contents

variable {p : Project} {l : Layout} (h : l.Fits p (assignDirectories p))

include h

/-- Components in a directory are those of what it holds, but for closings of applications. -/
theorem exists_component_iff : Element.allNamed "Component" l.content.elements ≠ [] ↔
    ∃ q ∈ (nodeAt p l.index).payloads, q.isLoose = false := by
  obtain ⟨a, b, hfurnishes⟩ := h.furnishes
  rw [hfurnishes.elements, ← pieceElements, allNamed_component_pieces, Ne, List.map_eq_nil_iff,
    boxes, List.filterMap_eq_nil_iff]
  simp only [payload_mem_furnish (a := a), Piece.box?]
  constructor
  · intro hnone
    by_contra hloose
    refine hnone fun x hx => if_pos (by_contra fun hq => hloose ?_)
    exact ⟨x.payload, ⟨x, hx, rfl⟩, Bool.eq_false_iff.2 hq⟩
  · rintro ⟨q, ⟨x, hx, rfl⟩, hq⟩ hnone
    simpa [hq] using hnone x hx

/-- A directory that holds anything to install or to do shows a component or the closing of an
application. -/
theorem exists_component_or_closing_iff : (Element.allNamed "Component" l.content.elements ≠ [] ∨
    Element.allNamed "util:CloseApplication" l.content.elements ≠ []) ↔
      (nodeAt p l.index).payloads ≠ [] := by
  constructor
  · intro hsome hnone
    obtain ⟨a, b, hfurnishes⟩ := h.furnishes
    have htasks : tasksOf (nodeAt p l.index) = [] := by
      rw [← List.map_eq_nil_iff, map_fst_tasksOf, hnone]
    have hcontent : l.content.elements = [] := by
      rw [hfurnishes.elements, htasks]
      rfl
    simp [hcontent] at hsome
  · intro hsome
    obtain ⟨q, hq⟩ := List.exists_mem_of_ne_nil _ hsome
    cases hloose : q.isLoose with
    | false => exact Or.inl ((exists_component_iff h).2 ⟨q, hq, hloose⟩)
    | true =>
      obtain ⟨a, b, hfurnishes⟩ := h.furnishes
      obtain ⟨x, hx, rfl⟩ := (payload_mem_furnish (a := a)).1 hq
      let e := x.element p ((assignDirectories p).id l.index)
      have hname : e.name = "util:CloseApplication" :=
        (x.element_spec p _).1.trans (elementName_of_isLoose hloose)
      have hmem : e ∈ l.content.elements := by
        rw [hfurnishes.elements]
        refine List.mem_append_right _ (List.mem_filterMap.2 ⟨x, hx, ?_⟩)
        rw [Piece.loose?, if_pos hloose]
      refine Or.inr (List.ne_nil_of_mem (a := e) (List.mem_filter.2 ⟨?_, ?_⟩))
      · exact List.mem_flatMap.2 ⟨e, hmem, List.mem_cons_self⟩
      · exact beq_iff_eq.2 hname

end contents

theorem payloads_eq_nil_of_bare {p : Project} {i : Nat}
    (h : p.directories.holdsPayload i = false) : (nodeAt p i).payloads = [] :=
  Node.payloads_eq_nil ((hasPayload_nodeAt p i).trans h)

/-- With keepers a directory shows a component itself where it holds something that needs one, or
holds nothing and has no directory below it. -/
theorem exists_component_withKeepers_iff {p : Project} {l : Layout}
    (h : l.Fits p (assignDirectories p)) :
    Element.allNamed "Component" (l.withKeepers p.directories.holdsPayload
        (keeperPart p (assignDirectories p))).content.elements ≠ [] ↔
      (∃ q ∈ (nodeAt p l.index).payloads, q.isLoose = false) ∨
        p.directories.holdsPayload l.index = false ∧ l.children = [] := by
  rw [Layout.content_withKeepers, ← exists_component_iff h]
  by_cases hkeeper : (!p.directories.holdsPayload l.index && l.children.isEmpty) = true
  · have hbare : p.directories.holdsPayload l.index = false ∧ l.children = [] := by
      simpa using hkeeper
    have hbox : Element.allNamed "Component" (keeperPart p (assignDirectories p) l.index).elements ≠
        [] := by
      rw [elements_keeperPart, Element.allNamed_cons, if_pos (by rfl)]
      simp
    rw [if_pos hkeeper, Part.append, Element.allNamed_append]
    simp [hbox, hbare]
  · have hnot : ¬ (p.directories.holdsPayload l.index = false ∧ l.children = []) := by
      simpa using hkeeper
    rw [if_neg hkeeper]
    simp [hnot]

theorem flatMap_ne_nil_iff {α β : Type} {f : α → List β} {xs : List α} :
    xs.flatMap f ≠ [] ↔ ∃ x ∈ xs, f x ≠ [] := by
  simp [List.flatMap_eq_nil_iff]

theorem isEmpty_children_outline (l : Layout) : l.outline.children = [] ↔ l.children = [] := by
  obtain ⟨i, content, children⟩ := l
  rw [Layout.outline_eq, List.map_eq_nil_iff]

theorem index_outline (l : Layout) : l.outline.index = l.index := by
  obtain ⟨i, content, children⟩ := l
  rfl

/-- Where components keep directories alive, every directory has a component in it or below it if
every directory without others below it that holds anything holds something that needs one. -/
theorem component_below_iff {p : Project} {c : Compiled}
    (hc : (p.withPolicy .component).compile = .ok c) :
    (∀ e ∈ belowTarget c, e.descendantsNamed "Component" ≠ []) ↔
      ∀ o ∈ allOutlines p, o.children = [] → p.directories.holdsPayload o.index = true →
        ∃ q ∈ (nodeAt p o.index).payloads, q.isLoose = false := by
  obtain ⟨ls, a, b, hlaid, hdocument⟩ := laidOut_of_compile hc
  have hls := laysOut_of_laidOut hlaid
  obtain ⟨s, hs, rfl⟩ := documentOf_eq_ok.1 hdocument
  have hbare := hls.no_directories_keptAlive
  have hbelow : ∀ l ∈ ls.flatMap Layout.walk,
      ((l.withKeepers p.directories.holdsPayload (keeperPart p (assignDirectories p))).element
          (shellOf p (assignDirectories p))).descendantsNamed "Component" ≠ [] ↔
        ∃ m ∈ l.walk, (∃ q ∈ (nodeAt p m.index).payloads, q.isLoose = false) ∨
          p.directories.holdsPayload m.index = false ∧ m.children = [] := by
    intro l hl
    rw [descendantsNamed_element p (by decide), Layout.walk_withKeepers.1, List.flatMap_map,
      flatMap_ne_nil_iff]
    refine exists_congr fun m => and_congr_right fun hm => ?_
    exact exists_component_withKeepers_iff (hls.fits m (Layout.walk_subset.2 ls l hl hm))
  refine ((consists_compiled hs hbare).forall_belowTarget hbare).trans ?_
  rw [hls.forall_outlines, keptAlive, Layout.walk_withKeepers.2, List.forall_mem_map]
  constructor
  · intro h l hl hleaf hholds
    obtain ⟨m, hm, hsome⟩ := (hbelow l hl).1 (h l hl)
    obtain ⟨i, content, children⟩ := l
    obtain rfl : children = [] := (isEmpty_children_outline _).1 hleaf
    obtain rfl : m = ⟨i, content, []⟩ := by simpa [Layout.walk_eq] using hm
    exact hsome.resolve_right fun hnone => Bool.false_ne_true (hnone.1.symm.trans hholds)
  · intro h l hl
    obtain ⟨m, hm, hleaf⟩ := Layout.exists_leaf.1 l
    refine (hbelow l hl).2 ⟨m, hm, ?_⟩
    cases hholds : p.directories.holdsPayload m.index with
    | false => exact Or.inr ⟨rfl, hleaf⟩
    | true =>
      have hsome := h m (Layout.walk_subset.2 ls l hl hm) ((isEmpty_children_outline m).2 hleaf)
      rw [index_outline] at hsome
      exact Or.inl (hsome hholds)

/-- Where empty directories are left out, what is left of a directory shows a component or the
closing of an application where there is something to install or to do in it or below it. -/
theorem exists_below_thinned_iff {p : Project} {ls : List Layout} (hls : LaysOut p ls) {l m : Layout}
    (hl : l ∈ ls.flatMap Layout.walk) (hm : m ∈ l.pruned p.directories.holdsPayload) :
    ((m.element (shellOf p (assignDirectories p))).descendantsNamed "Component" ≠ [] ∨
        (m.element (shellOf p (assignDirectories p))).descendantsNamed "util:CloseApplication" ≠
          []) ↔
      ∃ n ∈ l.walk, (nodeAt p n.index).payloads ≠ [] := by
  have hfits : ∀ n ∈ l.walk, n.Fits p (assignDirectories p) := fun n hn =>
    hls.fits n (Layout.walk_subset.2 ls l hl hn)
  rw [descendantsNamed_element p (by decide), descendantsNamed_element p (by decide),
    (Layout.mem_pruned hm).2.2, flatMap_ne_nil_iff, flatMap_ne_nil_iff]
  constructor
  · rintro (⟨x, hx, hshown⟩ | ⟨x, hx, hshown⟩) <;> obtain ⟨n, hn, hx⟩ := List.mem_flatMap.1 hx <;>
      rw [(Layout.mem_pruned hx).2.1] at hshown
    · exact ⟨n, hn, (exists_component_or_closing_iff (hfits n hn)).1 (Or.inl hshown)⟩
    · exact ⟨n, hn, (exists_component_or_closing_iff (hfits n hn)).1 (Or.inr hshown)⟩
  · rintro ⟨n, hn, hpayloads⟩
    have hholds : p.directories.holdsPayload n.index = true := by
      by_contra hbare
      exact hpayloads (payloads_eq_nil_of_bare (Bool.eq_false_iff.2 hbare))
    obtain ⟨x, hx⟩ := Layout.exists_mem_pruned_iff.2 ⟨n, n.mem_walk_self, hholds⟩
    have hmem := List.mem_flatMap.2 ⟨n, hn, hx⟩
    have hshown := (exists_component_or_closing_iff (hfits n hn)).2 hpayloads
    rw [← (Layout.mem_pruned hx).2.1] at hshown
    exact hshown.imp (⟨x, hmem, ·⟩) (⟨x, hmem, ·⟩)

/-- Where empty directories are left out, every directory has a component or the closing of an
application in it or below it if every directory that holds anything has something to install or to
do, itself or below it. -/
theorem component_or_closing_below_iff {p : Project} {c : Compiled}
    (hc : (p.withPolicy .elide).compile = .ok c) :
    (∀ e ∈ belowTarget c, e.descendantsNamed "Component" ≠ [] ∨
        e.descendantsNamed "util:CloseApplication" ≠ []) ↔
      ∀ o ∈ allOutlines p, p.directories.holdsPayload o.index = true →
        ∃ i ∈ o.walk, (nodeAt p i).payloads ≠ [] := by
  obtain ⟨ls, a, b, hlaid, hdocument⟩ := laidOut_of_compile hc
  have hls := laysOut_of_laidOut hlaid
  obtain ⟨s, hs, rfl⟩ := documentOf_eq_ok.1 hdocument
  have hbare := hls.no_directories_thinned
  have hwalk : ∀ l : Layout, (∃ i ∈ l.outline.walk, (nodeAt p i).payloads ≠ []) ↔
      ∃ n ∈ l.walk, (nodeAt p n.index).payloads ≠ [] := fun l => by
    rw [Layout.walk_outline.1]
    simp only [List.mem_map, exists_exists_and_eq_and]
  refine ((consists_compiled hs hbare).forall_belowTarget hbare).trans ?_
  rw [hls.forall_outlines]
  constructor
  · intro h l hl hholds
    rw [index_outline] at hholds
    obtain ⟨m, hm⟩ := Layout.exists_mem_pruned_iff.2 ⟨l, l.mem_walk_self, hholds⟩
    have hthinned : m ∈ (thinned p ls).flatMap Layout.walk := by
      rw [thinned, Layout.flatMap_walk_pruned.2]
      exact List.mem_flatMap.2 ⟨l, hl, hm⟩
    rw [hwalk, ← exists_below_thinned_iff hls hl hm]
    exact h m hthinned
  · intro h m hthinned
    change m ∈ (thinned p ls).flatMap Layout.walk at hthinned
    rw [thinned, Layout.flatMap_walk_pruned.2] at hthinned
    obtain ⟨l, hl, hm⟩ := List.mem_flatMap.1 hthinned
    obtain ⟨n, hn, hholds⟩ := Layout.exists_mem_pruned_iff.1 ⟨m, hm⟩
    have hsome := h n (Layout.walk_subset.2 ls l hl hn) (by rwa [index_outline])
    rw [hwalk] at hsome
    obtain ⟨k, hk, hpayloads⟩ := hsome
    exact (exists_below_thinned_iff hls hl hm).2
      ⟨k, Layout.walk_subset.1 l n hn hk, hpayloads⟩

/-- Every directory below the one above all others has a component in it or below it where
components keep directories alive, and a component or the closing of an application where empty
directories are left out, exactly when no directory is taken to hold something for a row of files
that was not found or, where a component is needed, for the closing of an application. -/
theorem installed_directories_iff (p : Project) :
    (∀ c, (p.withPolicy .component).compile = .ok c →
      ((∀ e ∈ belowTarget c, e.descendantsNamed "Component" ≠ []) ↔
        ∀ o ∈ allOutlines p, o.children = [] → p.directories.holdsPayload o.index = true →
          ∃ q ∈ (nodeAt p o.index).payloads, q.isLoose = false)) ∧
    ∀ c, (p.withPolicy .elide).compile = .ok c →
      ((∀ e ∈ belowTarget c, e.descendantsNamed "Component" ≠ [] ∨
          e.descendantsNamed "util:CloseApplication" ≠ []) ↔
        ∀ o ∈ allOutlines p, p.directories.holdsPayload o.index = true →
          ∃ i ∈ o.walk, (nodeAt p i).payloads ≠ []) :=
  ⟨fun _ => component_below_iff, fun _ => component_or_closing_below_iff⟩

/-- A directory for files of a pattern, where no file was found. -/
def unmatchedFiles : Declaration where
  path := "App"
  id := some "AppFolder"
  items := [.files { pattern := "*.dll" }]

/-- The project with this directory and nothing else. -/
def unmatchedProject : Project where
  name := "Acme"
  directories := (Tree.empty.declare none unmatchedFiles).2

theorem compile_unmatchedProject (policy : EmptyDirectoryPolicy) :
    ∃ c, (unmatchedProject.withPolicy policy).compile = .ok c ∧
      ∃ e ∈ belowTarget c, e.descendants = [] := by
  have hrun : ((unmatchedProject.withPolicy policy).compile.toOption.map fun c =>
      (belowTarget c).any (·.descendants.isEmpty)) = some true := by
    cases policy <;> decide +kernel
  obtain ⟨c, hc, hany⟩ := exists_ok_of_toOption_map hrun
  obtain ⟨e, he, hempty⟩ := List.any_eq_true.1 hany
  exact ⟨c, hc, e, he, List.isEmpty_iff.1 hempty⟩

/-- A directory with nothing to install in it or below it, which is neither kept alive nor left
out. -/
theorem directory_for_unmatched_files :
    ({ name := "Acme" } : Project).add (.directory unmatchedFiles) = .ok unmatchedProject ∧
    (∃ c, (unmatchedProject.withPolicy .component).compile = .ok c ∧
      ¬ ∀ e ∈ belowTarget c, e.descendantsNamed "Component" ≠ []) ∧
    ∃ c, (unmatchedProject.withPolicy .elide).compile = .ok c ∧
      ¬ ∀ e ∈ belowTarget c, e.descendantsNamed "Component" ≠ [] ∨
        e.descendantsNamed "util:CloseApplication" ≠ [] := by
  have hnone : ∀ {e : Element} (name : String), e.descendants = [] →
      e.descendantsNamed name = [] := fun name h => by
    rw [Element.descendantsNamed, h]
    rfl
  obtain ⟨c, hc, e, he, hempty⟩ := compile_unmatchedProject .component
  obtain ⟨c', hc', e', he', hempty'⟩ := compile_unmatchedProject .elide
  refine ⟨rfl, ⟨c, hc, fun h => h e he (hnone _ hempty)⟩, c', hc', fun h => ?_⟩
  exact (h e' he').elim (· (hnone _ hempty')) (· (hnone _ hempty'))

/-- A directory for files of which none was found, with an empty one below it. -/
def unmatchedAbove : Project where
  name := "Acme"
  directories := (Tree.empty.declare none {
    path := "App"
    id := some "AppFolder"
    items := [.files { pattern := "*.dll" },
      .directory { path := "Logs", id := some "LogsFolder" }] }).2

theorem installed_directories_iff_unmatched : ∃ alive less,
    (unmatchedAbove.withPolicy .component).compile = .ok alive ∧
    (unmatchedAbove.withPolicy .elide).compile = .ok less ∧
    (∀ e ∈ belowTarget alive, e.descendantsNamed "Component" ≠ []) ∧
    ¬ ∀ e ∈ belowTarget less, e.descendantsNamed "Component" ≠ [] ∨
      e.descendantsNamed "util:CloseApplication" ≠ [] := by
  have halive : ((unmatchedAbove.withPolicy .component).compile.toOption.map fun c =>
      c.ids.length) = some 4 := by
    decide +kernel
  have hless : ((unmatchedAbove.withPolicy .elide).compile.toOption.map fun c =>
      c.ids.length) = some 3 := by
    decide +kernel
  obtain ⟨alive, halive, -⟩ := exists_ok_of_toOption_map halive
  obtain ⟨less, hless, -⟩ := exists_ok_of_toOption_map hless
  obtain ⟨hcomponent, helide⟩ := installed_directories_iff unmatchedAbove
  refine ⟨alive, less, halive, hless, (hcomponent alive halive).2 ?_, fun h => ?_⟩
  · decide +kernel
  · exact absurd ((helide less hless).1 h) (by decide +kernel)

end Installer.Compile
